import PropertyGraph.Proofs.FilterForm

namespace PropertyGraph

/-- What holds of the results of a list is what each item makes its result meet. -/
theorem forall_mem_of_mapM_ok {ε α β : Type} {f : α → Except ε β} {p : β → Prop} {q : α → Prop}
    (hpq : ∀ x y, f x = .ok y → (p y ↔ q x)) {xs : List α} {ys : List β}
    (h : xs.mapM f = .ok ys) : (∀ y ∈ ys, p y) ↔ ∀ x ∈ xs, q x := by
  rw [mapM_eq_ok_iff] at h
  induction h with
  | nil => simp
  | cons hx _ ih => rw [List.forall_mem_cons, List.forall_mem_cons, hpq _ _ hx, ih]

namespace Operator

theorem ofName?_name (op : Operator) : ofName? op.name = some op := by
  cases op <;> rfl

theorem name_of_ofName? {name : String} {op : Operator} (h : ofName? name = some op) :
    op.name = name := by
  simpa using List.find?_some h

/-- Absence fails every test but the two that ask for it. -/
theorem accepts_none_iff (op : Operator) (operand : Value) :
    op.accepts none operand = true ↔
      op = undefined ∨ (op = type ∧ operand = .string "undefined") := by
  cases op <;> cases operand <;> simp [accepts, acceptsAbsence]

end Operator

namespace Filter

namespace Head

/-- What a key asks for, by its spelling. A connective, the patterns and an operator go by their
names behind a dollar sign. -/
inductive Asks : String → Head → Prop
  | property {key : String} (plain : key.toList.head? ≠ some '$') : Asks key (property key)
  | connective (c : Connective) : Asks ("$" ++ c.name) (connective c)
  | patterns : Asks "$matches" patterns
  | operator (op : Operator) : Asks ("$" ++ op.name) (operator op)
  | unknown {name : String} (noConnective : ∀ c : Connective, c.name ≠ name)
    (noPatterns : name ≠ "matches") (noOperator : ∀ op : Operator, op.name ≠ name) :
    Asks ("$" ++ name) (unknown name)

variable {key : String} {head : Head}

theorem ofKey_dollar (name : String) : ofKey ("$" ++ name) = ofOperator name := by
  simp [ofKey]

theorem asks_ofOperator (name : String) : Asks ("$" ++ name) (ofOperator name) := by
  unfold ofOperator
  split
  · next h => exact h ▸ .connective .all
  split
  · next h => exact h ▸ .connective .any
  split
  · next h => exact h ▸ .connective .noneOf
  split
  · next h => exact h ▸ .patterns
  next hall hany hnone hmatches =>
  split
  · next op h => exact Operator.name_of_ofName? h ▸ .operator op
  · next h =>
    refine .unknown (fun c hc => ?_) hmatches (fun op ho => ?_)
    · cases c with
      | all => exact hall hc.symm
      | any => exact hany hc.symm
      | noneOf => exact hnone hc.symm
    · rw [← ho, Operator.ofName?_name] at h
      cases h

theorem asks_ofKey (key : String) : Asks key (ofKey key) := by
  unfold ofKey
  split
  · next name h =>
    have hkey : key = "$" ++ String.ofList name := by
      rw [← String.toList_inj, h]
      simp
    rw [hkey]
    exact asks_ofOperator _
  · next h =>
    refine .property (fun hd => ?_)
    obtain ⟨name, hname⟩ := List.head?_eq_some_iff.mp hd
    exact h name hname

theorem Asks.ofKey_eq (h : Asks key head) : ofKey key = head := by
  cases h with
  | property plain =>
    unfold ofKey
    split
    · next name hk => exact absurd (by rw [hk]; rfl) plain
    · rfl
  | connective c =>
    rw [ofKey_dollar]
    cases c <;> rfl
  | patterns => rfl
  | operator op =>
    rw [ofKey_dollar]
    cases op <;> rfl
  | @unknown name noConnective noPatterns noOperator =>
    have hname : Operator.ofName? name = none := by
      rw [Option.eq_none_iff_forall_not_mem]
      exact fun op hop => noOperator op (Operator.name_of_ofName? hop)
    rw [ofKey_dollar, ofOperator, if_neg (noConnective .all).symm, if_neg (noConnective .any).symm,
      if_neg (noConnective .noneOf).symm, if_neg noPatterns, hname]

theorem ofKey_eq_iff : ofKey key = head ↔ Asks key head :=
  ⟨fun h => h ▸ asks_ofKey key, Asks.ofKey_eq⟩

theorem ofKey_dollar_ne_property (name property : String) :
    ofKey ("$" ++ name) ≠ .property property := by
  generalize hk : "$" ++ name = key
  intro h
  cases ofKey_eq_iff.mp h with
  | property plain => simp [← hk] at plain

end Head

/-- Whether a vertex has a text under a property in which a pattern occurs. -/
def Matches (v : Vertex) (property : String) (pattern : Value) : Prop :=
  ∃ source p text, pattern = .string source ∧ Pattern.parse? source = some p ∧
    v.get? property = some (.string text) ∧ p.occursIn text = true

mutual

/-- What a filter asks of a vertex: that all entries hold. -/
def Meets (v : Vertex) : Value → Prop
  | .map entries => MeetsEntries v entries
  | _ => False

def MeetsEntries (v : Vertex) : Properties → Prop
  | [] => True
  | (key, value) :: rest => Holds v (Head.ofKey key) value ∧ MeetsEntries v rest

/-- What an entry asks of a vertex. A property asks for an equal value, a connective for all, any
or none of its filters, and a test must be passed under each property that it names. -/
def Holds (v : Vertex) : Head → Value → Prop
  | .property name, value => ∃ w, v.get? name = some w ∧ w.looseEqual value = true
  | .connective .all, .list items => MeetsAll v items
  | .connective .any, .list items => MeetsSome v items
  | .connective .noneOf, .list items => ¬ MeetsSome v items
  | .patterns, .map entries => ∀ e ∈ entries, Matches v e.1 e.2
  | .operator op, .map entries => ∀ e ∈ entries, op.accepts (v.get? e.1) e.2 = true
  | _, _ => False

def MeetsAll (v : Vertex) : List Value → Prop
  | [] => True
  | item :: rest => Meets v item ∧ MeetsAll v rest

def MeetsSome (v : Vertex) : List Value → Prop
  | [] => False
  | item :: rest => Meets v item ∨ MeetsSome v rest

end

section Meaning

variable {v : Vertex} {entries others : Properties} {items : List Value} {filters : List Filter}

theorem meets_map : Meets v (.map entries) ↔ ∀ e ∈ entries, Holds v (Head.ofKey e.1) e.2 := by
  rw [Meets]
  induction entries with
  | nil => simp [MeetsEntries]
  | cons e rest ih => rw [MeetsEntries, ih, List.forall_mem_cons]

theorem meetsAll_iff : MeetsAll v items ↔ ∀ item ∈ items, Meets v item := by
  induction items with
  | nil => simp [MeetsAll]
  | cons item rest ih => rw [MeetsAll, ih, List.forall_mem_cons]

theorem meetsSome_iff : MeetsSome v items ↔ ∃ item ∈ items, Meets v item := by
  induction items with
  | nil => simp [MeetsSome]
  | cons item rest ih => rw [MeetsSome, ih, List.exists_mem_cons_iff]

theorem acceptsAll_iff : acceptsAll v filters = true ↔ ∀ f ∈ filters, accepts v f = true := by
  induction filters with
  | nil => simp [acceptsAll]
  | cons f rest ih => rw [acceptsAll, Bool.and_eq_true, ih, List.forall_mem_cons]

theorem wellFormed_map : WellFormed (.map entries) ↔ ∀ e ∈ entries, Fits (Head.ofKey e.1) e.2 :=
  ⟨fun ⟨fits⟩ => fits, .map⟩

theorem fits_connective {c : Connective} :
    Fits (.connective c) (.list items) ↔ ∀ item ∈ items, WellFormed item :=
  ⟨fun h => by cases h with | connective _ wellFormed => exact wellFormed, .connective c⟩

theorem fits_patterns :
    Fits .patterns (.map entries) ↔
      ∀ e ∈ entries, ∃ text p, e.2 = .string text ∧ Pattern.parse? text = some p :=
  ⟨fun h => by cases h with | patterns readable => exact readable, .patterns⟩

/-- The condition of one pattern is met where the pattern matches. -/
theorem accepts_ofPattern {property : String} {pattern : Value} {f : Filter}
    (h : ofPattern property pattern = .ok f) :
    accepts v f = true ↔ Matches v property pattern := by
  obtain ⟨source, p, rfl, hp⟩ := (ofPattern_ok_iff property).mp ⟨f, h⟩
  simp only [ofPattern, hp] at h
  cases h
  rw [accepts]
  cases hv : v.get? property with
  | none => simp [Matches, hv]
  | some w => cases w <;> simp [Matches, hv, hp, Value.string?]

mutual

/-- The condition that is read from a filter accepts the vertices that meet the filter. -/
theorem accepts_of_compile : ∀ {value : Value} {f : Filter}, compile value = .ok f →
    (accepts v f = true ↔ Meets v value)
  | .map entries, f, h => by
    rw [compile, map_eq_ok_iff] at h
    obtain ⟨filters, he, rfl⟩ := h
    rw [accepts, acceptsAll_iff, meets_map]
    exact accepts_of_compileEntries he

theorem accepts_of_compileEntries : ∀ {entries : Properties} {filters : List Filter},
    compileEntries entries = .ok filters →
    ((∀ f ∈ filters, accepts v f = true) ↔ ∀ e ∈ entries, Holds v (Head.ofKey e.1) e.2)
  | [], filters, h => by
    rw [compileEntries] at h
    cases h
    simp
  | (key, value) :: rest, filters, h => by
    rw [compileEntries] at h
    obtain ⟨clauses, hc, h⟩ := bind_eq_ok_iff.mp h
    obtain ⟨others, ho, h⟩ := bind_eq_ok_iff.mp h
    cases h
    rw [List.forall_mem_append, List.forall_mem_cons, accepts_of_compileEntry hc,
      accepts_of_compileEntries ho]

theorem accepts_of_compileEntry : ∀ {head : Head} {value : Value} {filters : List Filter},
    compileEntry head value = .ok filters →
    ((∀ f ∈ filters, accepts v f = true) ↔ Holds v head value)
  | .connective c, .list items, filters, h => by
    rw [compileEntry, map_eq_ok_iff] at h
    obtain ⟨inner, hi, rfl⟩ := h
    obtain ⟨hall, hsome⟩ := accepts_of_compileItems hi
    rw [List.forall_mem_singleton]
    cases c with
    | all => rw [accepts, Holds, hall]
    | any => rw [accepts, Holds, hsome]
    | noneOf => rw [accepts, Holds, Bool.not_eq_true', ← hsome, Bool.not_eq_true]
  | .property name, value, filters, h => by
    rw [compileEntry] at h
    cases h
    rw [List.forall_mem_singleton, accepts, Holds, Option.any_eq_true]
  | .patterns, value, filters, h => by
    rw [compileEntry] at h
    obtain ⟨entries, ho, h⟩ := bind_eq_ok_iff.mp h
    obtain rfl := operands_eq_ok ho
    rw [Holds]
    exact forall_mem_of_mapM_ok (fun e f hf => accepts_ofPattern hf) h
  | .operator op, value, filters, h => by
    rw [compileEntry] at h
    obtain ⟨entries, ho, h⟩ := bind_eq_ok_iff.mp h
    obtain rfl := operands_eq_ok ho
    cases h
    rw [Holds, List.forall_mem_map]
    rfl
  | .unknown name, value, filters, h => by
    rw [compileEntry] at h
    cases h

theorem accepts_of_compileItems : ∀ {items : List Value} {filters : List Filter},
    compileItems items = .ok filters →
    (acceptsAll v filters = true ↔ MeetsAll v items) ∧
      (acceptsAny v filters = true ↔ MeetsSome v items)
  | [], filters, h => by
    rw [compileItems] at h
    cases h
    simp [acceptsAll, acceptsAny, MeetsAll, MeetsSome]
  | item :: rest, filters, h => by
    rw [compileItems] at h
    obtain ⟨first, hc, h⟩ := bind_eq_ok_iff.mp h
    obtain ⟨others, ho, h⟩ := bind_eq_ok_iff.mp h
    cases h
    obtain ⟨hall, hsome⟩ := accepts_of_compileItems ho
    rw [acceptsAll, acceptsAny, MeetsAll, MeetsSome, Bool.and_eq_true, Bool.or_eq_true,
      accepts_of_compile hc, hall, hsome]
    exact ⟨Iff.rfl, Iff.rfl⟩

end

end Meaning

section Order

/-- The second value is the same filter with the entries of its maps in another order: those of
filters, at any depth, and those of operands. What a property is compared with stays as it is. -/
inductive Reordered : Value → Value → Prop
  | refl (value : Value) : Reordered value value
  | trans {a b c : Value} (first : Reordered a b) (second : Reordered b c) : Reordered a c
  | entries {entries others : Properties} (h : entries.Perm others) :
    Reordered (.map entries) (.map others)
  | operands {entries others : Properties} (h : entries.Perm others) (name : String)
    (before after : Properties) :
    Reordered (.map (before ++ ("$" ++ name, .map entries) :: after))
      (.map (before ++ ("$" ++ name, .map others) :: after))
  | item {a b : Value} (h : Reordered a b) (c : Connective) (earlier later : List Value)
    (before after : Properties) :
    Reordered (.map (before ++ ("$" ++ c.name, .list (earlier ++ a :: later)) :: after))
      (.map (before ++ ("$" ++ c.name, .list (earlier ++ b :: later)) :: after))

variable {v : Vertex} {value other : Value}

/-- Whether operands fit depends on no order. -/
theorem fits_map_iff_of_perm {head : Head} (hp : ∀ name, head ≠ .property name)
    {entries others : Properties} (h : entries.Perm others) :
    Fits head (.map entries) ↔ Fits head (.map others) := by
  cases head with
  | property name => exact absurd rfl (hp name)
  | connective c => exact iff_of_false (fun h => nomatch h) (fun h => nomatch h)
  | patterns => simp only [fits_patterns, h.mem_iff]
  | operator op => exact iff_of_true (.operator op _) (.operator op _)
  | unknown name => exact iff_of_false (fun h => nomatch h) (fun h => nomatch h)

/-- Whether operands are met depends on no order. -/
theorem holds_map_iff_of_perm {head : Head} (hp : ∀ name, head ≠ .property name)
    {entries others : Properties} (h : entries.Perm others) :
    Holds v head (.map entries) ↔ Holds v head (.map others) := by
  cases head with
  | property name => exact absurd rfl (hp name)
  | connective c => cases c <;> exact Iff.rfl
  | patterns => simp only [Holds, h.mem_iff]
  | operator op => simp only [Holds, h.mem_iff]
  | unknown name => exact Iff.rfl

theorem Reordered.wellFormed_iff (h : Reordered value other) :
    WellFormed value ↔ WellFormed other := by
  induction h with
  | refl => exact Iff.rfl
  | trans _ _ ih ih' => exact ih.trans ih'
  | entries h => simp only [wellFormed_map, h.mem_iff]
  | operands h name before after =>
    simp only [wellFormed_map, List.forall_mem_append, List.forall_mem_cons,
      fits_map_iff_of_perm (Head.ofKey_dollar_ne_property name) h]
  | item h c earlier later before after ih =>
    simp only [wellFormed_map, List.forall_mem_append, List.forall_mem_cons,
      Head.Asks.ofKey_eq (.connective c), fits_connective, ih]

theorem Reordered.meets_iff (h : Reordered value other) : Meets v value ↔ Meets v other := by
  induction h with
  | refl => exact Iff.rfl
  | trans _ _ ih ih' => exact ih.trans ih'
  | entries h => simp only [meets_map, h.mem_iff]
  | operands h name before after =>
    simp only [meets_map, List.forall_mem_append, List.forall_mem_cons,
      holds_map_iff_of_perm (Head.ofKey_dollar_ne_property name) h]
  | @item a b h c earlier later before after ih =>
    have hall : MeetsAll v (earlier ++ a :: later) ↔ MeetsAll v (earlier ++ b :: later) := by
      simp only [meetsAll_iff, List.forall_mem_append, List.forall_mem_cons, ih]
    have hsome : MeetsSome v (earlier ++ a :: later) ↔ MeetsSome v (earlier ++ b :: later) := by
      simp only [meetsSome_iff, List.mem_append, List.mem_cons, or_and_right, exists_or,
        exists_eq_left, ih]
    simp only [meets_map, List.forall_mem_append, List.forall_mem_cons,
      Head.Asks.ofKey_eq (.connective c)]
    cases c <;> simp only [Holds, hall, hsome]

end Order

/-- A value is read as a filter exactly if it has the form of one, and the condition that is read
accepts exactly the vertices that meet the filter. Neither depends on the order of the entries. The
form and the meaning go by what the keys ask for, as they are spelled; of the tests, absence passes
only the two that ask for it. -/
theorem filters_mean_what_they_say (value : Value) :
    (∀ key head, Head.ofKey key = head ↔ Head.Asks key head) ∧
    ((∃ f, compile value = .ok f) ↔ WellFormed value) ∧
    (∀ f, compile value = .ok f → ∀ v, accepts v f = true ↔ Meets v value) ∧
    (∀ (op : Operator) (operand : Value), op.accepts none operand = true ↔
      op = .undefined ∨ (op = .type ∧ operand = .string "undefined")) ∧
    ∀ other, Reordered value other →
      ((∃ f, compile value = .ok f) ↔ ∃ g, compile other = .ok g) ∧
      ∀ f g, compile value = .ok f → compile other = .ok g → ∀ v, accepts v f = accepts v g := by
  refine ⟨fun _ _ => Head.ofKey_eq_iff, compile_ok_iff value, fun f hf v => accepts_of_compile hf,
    Operator.accepts_none_iff, fun other h => ⟨?_, ?_⟩⟩
  · rw [compile_ok_iff, compile_ok_iff, h.wellFormed_iff]
  · intro f g hf hg v
    rw [Bool.eq_iff_iff, accepts_of_compile hf, accepts_of_compile hg, h.meets_iff]

/-- Nothing meets an empty disjunction, and what a vertex lacks is not even null. -/
theorem nested_filter_is_met :
    let impossible : Value := .map [("$or", .list [])]
    let email : Value := .map [("email", .null)]
    let value : Value := .map [("$and", .list []), ("$not", .list [impossible, email]),
      ("$type", .map [("age", .string "integer"), ("email", .string "undefined")])]
    let other : Value := .map [("$type", .map [("email", .string "undefined"),
      ("age", .string "integer")]), ("$not", .list [impossible, email]), ("$and", .list [])]
    let ann : Vertex := ⟨"a", "Person", [("age", .int 7)]⟩
    ∃ f g, compile value = .ok f ∧ compile other = .ok g ∧ Meets ann value ∧
      accepts ann g = true := by
  intro impossible email value other ann
  have hreordered : Reordered value other :=
    .trans (.entries (List.reverse_perm _).symm)
      (.operands (List.reverse_perm _).symm "type" [] _)
  obtain ⟨_, _, hmeans, _, horder⟩ := filters_mean_what_they_say value
  obtain ⟨_, hsame⟩ := horder other hreordered
  refine ⟨_, _, rfl, rfl, (hmeans _ rfl ann).mp ?_, ?_⟩
  · rfl
  · rw [← hsame _ _ rfl rfl ann]
    rfl

end Filter

end PropertyGraph
