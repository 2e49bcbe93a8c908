import PropertyGraph.Proofs.FilterMask

namespace PropertyGraph

theorem exists_mapM_ok_iff {ε α β : Type} {f : α → Except ε β} {xs : List α} :
    (∃ ys, xs.mapM f = .ok ys) ↔ ∀ x ∈ xs, ∃ y, f x = .ok y := by
  induction xs with
  | nil => exact iff_of_true ⟨[], rfl⟩ (by simp)
  | cons x xs ih =>
    rw [List.forall_mem_cons, ← ih, List.mapM_cons]
    simp only [bind_eq_ok_iff]
    constructor
    · rintro ⟨_, y, hy, ys, hys, _⟩
      exact ⟨⟨y, hy⟩, ys, hys⟩
    · rintro ⟨⟨y, hy⟩, ys, hys⟩
      exact ⟨y :: ys, y, hy, ys, hys, rfl⟩

namespace Filter

mutual

/-- The form of a filter: a map in which every key is fit for what stands under it. -/
inductive WellFormed : Value → Prop
  | map {entries : Properties} (fits : ∀ e ∈ entries, Fits (Head.ofKey e.1) e.2) :
    WellFormed (.map entries)

/-- What may stand under a key. A property may have any value; a connective takes a list of
filters, patterns are texts that can be read, and an operator takes any operands by property. -/
inductive Fits : Head → Value → Prop
  | property (name : String) (v : Value) : Fits (.property name) v
  | connective (c : Connective) {items : List Value} (wellFormed : ∀ v ∈ items, WellFormed v) :
    Fits (.connective c) (.list items)
  | patterns {entries : Properties}
    (readable : ∀ e ∈ entries, ∃ text p, e.2 = .string text ∧ Pattern.parse? text = some p) :
    Fits .patterns (.map entries)
  | operator (op : Operator) (entries : Properties) : Fits (.operator op) (.map entries)

end

theorem ofPattern_ok_iff (property : String) {v : Value} :
    (∃ f, ofPattern property v = .ok f) ↔
      ∃ text p, v = .string text ∧ Pattern.parse? text = some p := by
  constructor
  · rintro ⟨f, h⟩
    unfold ofPattern at h
    split at h
    · split at h
      · next p hp => exact ⟨_, p, rfl, hp⟩
      · cases h
    · cases h
  · rintro ⟨text, p, rfl, hp⟩
    exact ⟨.matching property p, by simp [ofPattern, hp]⟩

mutual

/-- A value is read as a filter exactly if it is well-formed. -/
theorem compile_ok_iff : ∀ v : Value, (∃ f, compile v = .ok f) ↔ WellFormed v
  | .map entries => by
    simp only [compile, map_eq_ok_iff]
    constructor
    · rintro ⟨_, filters, h, _⟩
      exact .map ((compileEntries_ok_iff entries).mp ⟨filters, h⟩)
    · rintro ⟨fits⟩
      obtain ⟨filters, h⟩ := (compileEntries_ok_iff entries).mpr fits
      exact ⟨_, filters, h, rfl⟩
  | .null | .bool _ | .int _ | .double _ | .string _ | .list _ => by
    refine iff_of_false ?_ (fun h => nomatch h)
    rintro ⟨_, h⟩
    rw [compile] at h
    · cases h
    · rintro _ ⟨⟩

theorem compileEntries_ok_iff : ∀ entries : Properties,
    (∃ filters, compileEntries entries = .ok filters) ↔
      ∀ e ∈ entries, Fits (Head.ofKey e.1) e.2
  | [] => iff_of_true ⟨[], by rw [compileEntries]⟩ (by simp)
  | (key, v) :: rest => by
    rw [List.forall_mem_cons, ← compileEntry_ok_iff (Head.ofKey key) v,
      ← compileEntries_ok_iff rest]
    simp only [compileEntries, bind_eq_ok_iff]
    constructor
    · rintro ⟨_, clauses, hc, others, ho, _⟩
      exact ⟨⟨clauses, hc⟩, others, ho⟩
    · rintro ⟨⟨clauses, hc⟩, others, ho⟩
      exact ⟨_, clauses, hc, others, ho, rfl⟩

theorem compileEntry_ok_iff : ∀ (head : Head) (v : Value),
    (∃ filters, compileEntry head v = .ok filters) ↔ Fits head v
  | .connective c, .list items => by
    simp only [compileEntry, map_eq_ok_iff]
    constructor
    · rintro ⟨_, filters, h, _⟩
      exact .connective c ((compileItems_ok_iff items).mp ⟨filters, h⟩)
    · intro h
      cases h with
      | connective _ wellFormed =>
        obtain ⟨filters, h⟩ := (compileItems_ok_iff items).mpr wellFormed
        exact ⟨_, filters, h, rfl⟩
  | .connective c, .null | .connective c, .bool _ | .connective c, .int _
  | .connective c, .double _ | .connective c, .string _ | .connective c, .map _ => by
    refine iff_of_false ?_ (fun h => nomatch h)
    rintro ⟨_, h⟩
    rw [compileEntry] at h
    · cases h
    · rintro _ ⟨⟩
  | .property name, v => iff_of_true ⟨_, by rw [compileEntry]⟩ (.property name v)
  | .patterns, v => by
    simp only [compileEntry, bind_eq_ok_iff]
    constructor
    · rintro ⟨filters, entries, ho, h⟩
      obtain rfl := operands_eq_ok ho
      exact .patterns (fun e he =>
        (ofPattern_ok_iff e.1).mp (exists_mapM_ok_iff.mp ⟨filters, h⟩ e he))
    · intro h
      cases h with
      | patterns readable =>
        obtain ⟨filters, h⟩ := exists_mapM_ok_iff.mpr (fun e he =>
          (ofPattern_ok_iff e.1).mpr (readable e he))
        exact ⟨filters, _, rfl, h⟩
  | .operator op, v => by
    simp only [compileEntry, bind_eq_ok_iff]
    constructor
    · rintro ⟨filters, entries, ho, _⟩
      obtain rfl := operands_eq_ok ho
      exact .operator op entries
    · intro h
      cases h with
      | operator _ entries => exact ⟨_, entries, rfl, rfl⟩
  | .unknown name, v => by
    refine iff_of_false ?_ (fun h => nomatch h)
    rintro ⟨_, h⟩
    rw [compileEntry] at h
    cases h

theorem compileItems_ok_iff : ∀ items : List Value,
    (∃ filters, compileItems items = .ok filters) ↔ ∀ v ∈ items, WellFormed v
  | [] => iff_of_true ⟨[], by rw [compileItems]⟩ (by simp)
  | item :: rest => by
    rw [List.forall_mem_cons, ← compile_ok_iff item, ← compileItems_ok_iff rest]
    simp only [compileItems, bind_eq_ok_iff]
    constructor
    · rintro ⟨_, filter, hf, filters, hs, _⟩
      exact ⟨⟨filter, hf⟩, filters, hs⟩
    · rintro ⟨⟨filter, hf⟩, filters, hs⟩
      exact ⟨_, filter, hf, filters, hs, rfl⟩

end

end Filter

end PropertyGraph
