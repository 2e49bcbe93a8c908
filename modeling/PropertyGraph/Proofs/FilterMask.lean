import PropertyGraph.Filter.Basic
import PropertyGraph.Proofs.OrderedMap

namespace PropertyGraph

section Results

variable {ε α β : Type} {x : Except ε α} {b : β}

theorem bind_eq_ok_iff {f : α → Except ε β} : x >>= f = .ok b ↔ ∃ a, x = .ok a ∧ f a = .ok b := by
  cases x with
  | error e =>
    constructor
    · rintro ⟨⟩
    · rintro ⟨_, ⟨⟩, _⟩
  | ok a =>
    constructor
    · intro h
      exact ⟨a, rfl, h⟩
    · rintro ⟨_, ⟨⟩, h⟩
      exact h

theorem bind_eq_error_iff {f : α → Except ε β} {e : ε} :
    x >>= f = .error e ↔ x = .error e ∨ ∃ a, x = .ok a ∧ f a = .error e := by
  cases x with
  | error e' =>
    constructor
    · rintro ⟨⟩
      exact .inl rfl
    · rintro (h | ⟨_, h, _⟩)
      · cases h
        rfl
      · cases h
  | ok a =>
    constructor
    · intro h
      exact .inr ⟨a, rfl, h⟩
    · rintro (h | ⟨_, ha, h⟩)
      · cases h
      · cases ha
        exact h

/-- What comes after a result matters only where there is one. -/
theorem bind_congr_ok {f g : α → Except ε β} (h : ∀ a, x = .ok a → f a = g a) :
    x >>= f = x >>= g := by
  cases x with
  | error e => rfl
  | ok a => exact h a rfl

theorem map_eq_ok_iff {f : α → β} : x.map f = .ok b ↔ ∃ a, x = .ok a ∧ f a = b := by
  cases x <;> simp [Except.map]

theorem mapM_eq_ok_iff {f : α → Except ε β} {xs : List α} {ys : List β} :
    xs.mapM f = .ok ys ↔ List.Forall₂ (fun x y => f x = .ok y) xs ys := by
  induction xs generalizing ys with
  | nil => exact ⟨by rintro ⟨⟩; exact .nil, by rintro ⟨⟩; rfl⟩
  | cons x xs ih =>
    rw [List.mapM_cons, bind_eq_ok_iff, List.forall₂_cons_left_iff]
    constructor
    · rintro ⟨y, hy, h⟩
      obtain ⟨rest, hrest, h⟩ := bind_eq_ok_iff.mp h
      cases h
      exact ⟨y, rest, hy, ih.mp hrest, rfl⟩
    · rintro ⟨y, rest, hy, hrest, rfl⟩
      exact ⟨y, hy, bind_eq_ok_iff.mpr ⟨rest, ih.mpr hrest, rfl⟩⟩

theorem exists_of_mapM_ok {f : α → Except ε β} {xs : List α} {ys : List β}
    (h : xs.mapM f = .ok ys) {y : β} (hy : y ∈ ys) : ∃ x ∈ xs, f x = .ok y := by
  rw [mapM_eq_ok_iff] at h
  induction h with
  | nil => cases hy
  | cons hx _ ih =>
    rcases List.mem_cons.mp hy with rfl | hy
    · exact ⟨_, List.mem_cons_self, hx⟩
    · obtain ⟨x, hm, hx⟩ := ih hy
      exact ⟨x, List.mem_cons_of_mem _ hm, hx⟩

theorem exists_of_mapM_error {f : α → Except ε β} {xs : List α} {e : ε}
    (h : xs.mapM f = .error e) : ∃ x ∈ xs, f x = .error e := by
  induction xs with
  | nil => cases h
  | cons x xs ih =>
    rw [List.mapM_cons, bind_eq_error_iff] at h
    rcases h with hx | ⟨y, -, h⟩
    · exact ⟨x, List.mem_cons_self, hx⟩
    · rcases bind_eq_error_iff.mp h with hxs | ⟨ys, -, h⟩
      · obtain ⟨x', hm, hx'⟩ := ih hxs
        exact ⟨x', List.mem_cons_of_mem _ hm, hx'⟩
      · cases h

end Results

namespace Vertex

/-- The vertex with no other properties than those under the keys. -/
def masked (keys : List String) (v : Vertex) : Vertex :=
  ⟨v.id, v.type, keys.filterMap (fun k => (v.get? k).map (fun value => (k, value)))⟩

theorem get?_filterMap_keys {keys : List String} {k : String} (hk : k ∈ keys)
    (look : String → Option Value) :
    Entries.get? k (keys.filterMap (fun k => (look k).map (fun value => (k, value)))) =
      look k := by
  induction keys with
  | nil => cases hk
  | cons a keys ih =>
    cases ha : look a with
    | none =>
      rw [List.filterMap_cons_none (by simp [ha])]
      by_cases hm : k ∈ keys
      · exact ih hm
      · obtain rfl : k = a := (List.mem_cons.mp hk).resolve_right hm
        rw [ha, Entries.get?_eq_none_iff]
        intro hm'
        simp only [List.mem_map, List.mem_filterMap, Option.map_eq_some_iff] at hm'
        obtain ⟨_, ⟨b, hb, value, _, rfl⟩, rfl⟩ := hm'
        exact hm hb
    | some value =>
      rw [List.filterMap_cons_some (by rw [ha, Option.map_some]), Entries.get?]
      split
      · next h => rw [← h, ha]
      · next h => exact ih ((List.mem_cons.mp hk).resolve_left (Ne.symm h))

theorem get?_masked {keys : List String} {k : String} (hk : k ∈ keys) (v : Vertex) :
    (v.masked keys).get? k = v.get? k := by
  have hlook := get?_filterMap_keys hk v.get?
  by_cases hid : k = "id"
  · rw [get?, get?, if_pos hid, if_pos hid]
    rfl
  · by_cases htype : k = "type"
    · rw [get?, get?, if_neg hid, if_neg hid, if_pos htype, if_pos htype]
      rfl
    · rw [get?, if_neg hid, if_neg htype]
      exact hlook

/-- Vertices with the same identity that agree under the keys are masked alike. -/
theorem masked_congr {keys : List String} {v w : Vertex} (hid : v.id = w.id)
    (htype : v.type = w.type) (hk : ∀ k ∈ keys, v.get? k = w.get? k) :
    v.masked keys = w.masked keys := by
  have hp : keys.filterMap (fun k => (v.get? k).map (fun value => (k, value))) =
      keys.filterMap (fun k => (w.get? k).map (fun value => (k, value))) :=
    List.filterMap_congr (fun k hm => by rw [hk k hm])
  rw [masked, masked, hid, htype, hp]

end Vertex

namespace Filter

mutual

/-- The keys of the properties that a filter names. -/
def named : Value → List String
  | .map entries => namedByEntries entries
  | _ => []

def namedByEntries : List (String × Value) → List String
  | [] => []
  | (key, v) :: rest => namedByEntry (Head.ofKey key) v ++ namedByEntries rest

def namedByEntry : Head → Value → List String
  | .property name, _ => [name]
  | .connective _, .list items => namedByItems items
  | .patterns, .map entries => entries.map Prod.fst
  | .operator _, .map entries => entries.map Prod.fst
  | _, _ => []

def namedByItems : List Value → List String
  | [] => []
  | item :: rest => named item ++ namedByItems rest

end

/-- The condition reads no properties but those under the keys. -/
def Reads (keys : List String) (f : Filter) : Prop :=
  ∀ v : Vertex, accepts (v.masked keys) f = accepts v f

section Reads

variable {keys : List String} {filters : List Filter}

theorem acceptsAll_masked (h : ∀ f ∈ filters, Reads keys f) (v : Vertex) :
    acceptsAll (v.masked keys) filters = acceptsAll v filters := by
  induction filters with
  | nil => simp only [acceptsAll]
  | cons f filters ih =>
    rw [acceptsAll, acceptsAll, h f List.mem_cons_self v,
      ih (fun g hg => h g (List.mem_cons_of_mem _ hg))]

theorem acceptsAny_masked (h : ∀ f ∈ filters, Reads keys f) (v : Vertex) :
    acceptsAny (v.masked keys) filters = acceptsAny v filters := by
  induction filters with
  | nil => simp only [acceptsAny]
  | cons f filters ih =>
    rw [acceptsAny, acceptsAny, h f List.mem_cons_self v,
      ih (fun g hg => h g (List.mem_cons_of_mem _ hg))]

theorem reads_combine (c : Connective) (h : ∀ f ∈ filters, Reads keys f) :
    Reads keys (combine c filters) := by
  intro v
  cases c with
  | all => rw [accepts, accepts, acceptsAll_masked h]
  | any => rw [accepts, accepts, acceptsAny_masked h]
  | noneOf => rw [accepts, accepts, acceptsAny_masked h]

theorem reads_equals {property : String} (hp : property ∈ keys) (value : Value) :
    Reads keys (equals property value) := by
  intro v
  rw [accepts, accepts, Vertex.get?_masked hp]

theorem reads_test (op : Operator) {property : String} (hp : property ∈ keys)
    (operand : Value) : Reads keys (test op property operand) := by
  intro v
  rw [accepts, accepts, Vertex.get?_masked hp]

theorem reads_ofPattern {property : String} (hp : property ∈ keys) {pattern : Value} {f : Filter}
    (h : ofPattern property pattern = .ok f) : Reads keys f := by
  unfold ofPattern at h
  split at h
  · split at h
    · cases h
      intro v
      rw [accepts, accepts, Vertex.get?_masked hp]
    · cases h
  · cases h

theorem operands_eq_ok {name : String} {v : Value} {entries : Properties}
    (h : operands name v = .ok entries) : v = .map entries := by
  cases v <;> simp_all [operands]

mutual

/-- A filter that is read from a value reads only the properties that the value names. -/
theorem reads_of_compile : ∀ {v : Value} {f : Filter}, compile v = .ok f → named v ⊆ keys →
    Reads keys f
  | .map entries, f, h, hn => by
    rw [compile, map_eq_ok_iff] at h
    obtain ⟨filters, he, rfl⟩ := h
    rw [named] at hn
    exact reads_combine .all (reads_of_compileEntries he hn)

theorem reads_of_compileEntries : ∀ {entries : List (String × Value)} {filters : List Filter},
    compileEntries entries = .ok filters → namedByEntries entries ⊆ keys →
    ∀ f ∈ filters, Reads keys f
  | [], filters, h, _ => by
    rw [compileEntries] at h
    cases h
    simp
  | (key, v) :: rest, filters, h, hn => by
    rw [compileEntries] at h
    obtain ⟨clauses, hc, h⟩ := bind_eq_ok_iff.mp h
    obtain ⟨others, ho, h⟩ := bind_eq_ok_iff.mp h
    cases h
    rw [namedByEntries, List.append_subset] at hn
    intro f hf
    rcases List.mem_append.mp hf with hf | hf
    · exact reads_of_compileEntry hc hn.1 f hf
    · exact reads_of_compileEntries ho hn.2 f hf

theorem reads_of_compileEntry : ∀ {head : Head} {v : Value} {filters : List Filter},
    compileEntry head v = .ok filters → namedByEntry head v ⊆ keys →
    ∀ f ∈ filters, Reads keys f
  | .connective c, .list items, filters, h, hn => by
    rw [compileEntry, map_eq_ok_iff] at h
    obtain ⟨inner, hi, rfl⟩ := h
    rw [namedByEntry] at hn
    exact List.forall_mem_singleton.mpr (reads_combine c (reads_of_compileItems hi hn))
  | .property name, v, filters, h, hn => by
    rw [compileEntry] at h
    cases h
    exact List.forall_mem_singleton.mpr (reads_equals (hn (by simp [namedByEntry])) v)
  | .patterns, v, filters, h, hn => by
    rw [compileEntry] at h
    obtain ⟨entries, ho, h⟩ := bind_eq_ok_iff.mp h
    obtain rfl := operands_eq_ok ho
    rw [namedByEntry] at hn
    intro f hf
    obtain ⟨e, he, hfe⟩ := exists_of_mapM_ok h hf
    exact reads_ofPattern (hn (List.mem_map_of_mem he)) hfe
  | .operator op, v, filters, h, hn => by
    rw [compileEntry] at h
    obtain ⟨entries, ho, h⟩ := bind_eq_ok_iff.mp h
    obtain rfl := operands_eq_ok ho
    cases h
    rw [namedByEntry] at hn
    intro f hf
    obtain ⟨e, he, rfl⟩ := List.mem_map.mp hf
    exact reads_test op (hn (List.mem_map_of_mem he)) e.2
  | .unknown name, v, filters, h, _ => by
    rw [compileEntry] at h
    cases h

theorem reads_of_compileItems : ∀ {items : List Value} {filters : List Filter},
    compileItems items = .ok filters → namedByItems items ⊆ keys → ∀ f ∈ filters, Reads keys f
  | [], filters, h, _ => by
    rw [compileItems] at h
    cases h
    simp
  | item :: rest, filters, h, hn => by
    rw [compileItems] at h
    obtain ⟨first, hc, h⟩ := bind_eq_ok_iff.mp h
    obtain ⟨others, ho, h⟩ := bind_eq_ok_iff.mp h
    cases h
    rw [namedByItems, List.append_subset] at hn
    exact List.forall_mem_cons.mpr ⟨reads_of_compile hc hn.1, reads_of_compileItems ho hn.2⟩

end

end Reads

end Filter

end PropertyGraph
