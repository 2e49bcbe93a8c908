import PropertyGraph.Proofs.ValueText

namespace PropertyGraph

namespace Json

theorem significand_lt {n : Nat} (hn : n < 2 ^ 64) (ds : List Char) :
    (significand n ds).1 < 2 ^ 64 := by
  induction ds generalizing n with
  | nil => exact hn
  | cons c ds ih =>
    unfold significand
    split
    · next h => exact ih h
    · exact hn

theorem isFinite_of_double? {n : Numeral} {x : Double} (h : n.double? = some x) :
    x.isFinite = true := by
  unfold Numeral.double? at h
  exact Double.isFinite_ofDecimal? (significand_lt (significand_lt (by decide) _) _) h

end Json

namespace Document

/-- Doubles in the document are finite, and integers have at most 64 bits. -/
inductive Bounded : Document → Prop
  | unreadable : Bounded .unreadable
  | null : Bounded .null
  | bool (b : Bool) : Bounded (.bool b)
  | integer {i : Int} (h : i.natAbs < 2 ^ 64) : Bounded (.integer i)
  | double {x : Double} (h : x.isFinite = true) : Bounded (.double x)
  | string (s : String) : Bounded (.string s)
  | array {items : List Document} (h : ∀ d ∈ items, Bounded d) : Bounded (.array items)
  | object {members : List (String × Document)} (h : ∀ m ∈ members, Bounded m.2) :
    Bounded (.object members)

/-- A property of documents by the depth they stand at: what has no parts has it, and a container
within the limit has it if its parts do, one level further in. -/
structure Inherited (P : Nat → Document → Prop) : Prop where
  unreadable (depth : Nat) : P depth .unreadable
  null (depth : Nat) : P depth .null
  bool (depth : Nat) (b : Bool) : P depth (.bool b)
  numeral (depth : Nat) (n : Json.Numeral) : P depth (ofNumeral n)
  string (depth : Nat) (s : String) : P depth (.string s)
  array {depth : Nat} (hd : depth < depthLimit) {items : List Document}
    (h : ∀ d ∈ items, P (depth + 1) d) : P depth (.array items)
  object {depth : Nat} (hd : depth < depthLimit) {members : List (String × Document)}
    (h : ∀ m ∈ members, P (depth + 1) m.2) : P depth (.object members)

namespace Inherited

variable {P : Nat → Document → Prop} {depth : Nat}

theorem ofPieces (hP : Inherited P) (depth : Nat) (ps : List Piece) :
    P depth (ofPieces ps) := by
  unfold Document.ofPieces
  split
  · exact hP.string depth _
  · exact hP.unreadable depth

theorem nested (hP : Inherited P) {d : Document} (h : depth < depthLimit → P depth d) :
    P depth (nested depth d) := by
  unfold Document.nested
  split
  · next hd => exact h hd
  · exact hP.unreadable depth

theorem ofMembers (hP : Inherited P) (hd : depth < depthLimit) {members : List RawMember}
    (h : ∀ m ∈ members, P (depth + 1) m.2) : P depth (ofMembers members) := by
  unfold Document.ofMembers
  split
  · next ms hms =>
    refine hP.object hd (fun m hm => ?_)
    obtain ⟨r, hr, hrm⟩ := exists_of_mapM hms hm
    rw [Option.map_eq_some_iff] at hrm
    obtain ⟨_, _, rfl⟩ := hrm
    exact h r hr
  · exact hP.unreadable depth

/-- All that is read with the fuel has the property at its depth. -/
structure Read (P : Nat → Document → Prop) (fuel : Nat) : Prop where
  value {depth : Nat} {cs rest : List Char} {d : Document}
    (h : value? fuel depth cs = some (d, rest)) : P depth d
  items {depth : Nat} {cs rest : List Char} {ds : List Document}
    (h : items? fuel depth cs = some (ds, rest)) : ∀ d ∈ ds, P depth d
  members {depth : Nat} {cs rest : List Char} {ms : List RawMember}
    (h : members? fuel depth cs = some (ms, rest)) : ∀ m ∈ ms, P depth m.2

section Step

variable {fuel : Nat} {cs rest : List Char}

theorem value_step (hP : Inherited P) (ih : Read P fuel) {d : Document}
    (h : value? (fuel + 1) depth cs = some (d, rest)) : P depth d := by
  unfold value? at h
  dsimp only at h
  split at h
  · cases h
    exact hP.null depth
  · cases h
    exact hP.bool depth true
  · cases h
    exact hP.bool depth false
  · simp only [Option.map_eq_some_iff, Prod.mk.injEq] at h
    obtain ⟨⟨ps, after⟩, -, rfl, -⟩ := h
    exact hP.ofPieces depth ps
  · split at h
    · cases h
      exact hP.nested (fun hd => hP.array hd (List.forall_mem_nil _))
    · simp only [Option.map_eq_some_iff, Prod.mk.injEq] at h
      obtain ⟨⟨items, after⟩, hread, rfl, -⟩ := h
      exact hP.nested (fun hd => hP.array hd (ih.items hread))
  · split at h
    · cases h
      exact hP.nested (fun hd => hP.object hd (List.forall_mem_nil _))
    · simp only [Option.map_eq_some_iff, Prod.mk.injEq] at h
      obtain ⟨⟨members, after⟩, hread, rfl, -⟩ := h
      exact hP.nested (fun hd => hP.ofMembers hd (ih.members hread))
  · simp only [Option.map_eq_some_iff, Prod.mk.injEq] at h
    obtain ⟨⟨n, after⟩, -, rfl, -⟩ := h
    exact hP.numeral depth n

theorem items_step (ih : Read P fuel) {ds : List Document}
    (h : items? (fuel + 1) depth cs = some (ds, rest)) : ∀ d ∈ ds, P depth d := by
  simp only [items?, Option.bind_eq_bind, Option.bind_eq_some_iff] at h
  obtain ⟨⟨item, after⟩, hitem, h⟩ := h
  dsimp only at h
  split at h
  · cases h
    exact List.forall_mem_singleton.mpr (ih.value hitem)
  · simp only [Option.bind_eq_some_iff] at h
    obtain ⟨⟨more, after'⟩, hmore, h⟩ := h
    cases h
    exact List.forall_mem_cons.mpr ⟨ih.value hitem, ih.items hmore⟩
  · cases h

theorem members_step (ih : Read P fuel) {ms : List RawMember}
    (h : members? (fuel + 1) depth cs = some (ms, rest)) : ∀ m ∈ ms, P depth m.2 := by
  unfold members? at h
  split at h
  · simp only [Option.bind_eq_bind, Option.bind_eq_some_iff] at h
    obtain ⟨⟨key, after⟩, hkey, h⟩ := h
    dsimp only at h
    split at h
    · simp only [Option.bind_eq_some_iff] at h
      obtain ⟨⟨value, after'⟩, hvalue, h⟩ := h
      dsimp only at h
      split at h
      · cases h
        exact List.forall_mem_singleton.mpr (ih.value hvalue)
      · simp only [Option.bind_eq_some_iff] at h
        obtain ⟨⟨more, after'⟩, hmore, h⟩ := h
        cases h
        exact List.forall_mem_cons.mpr ⟨ih.value hvalue, ih.members hmore⟩
      · cases h
    · cases h
  · cases h

end Step

/-- Whatever is read has the property at its depth. -/
theorem read (hP : Inherited P) (fuel : Nat) : Read P fuel := by
  induction fuel with
  | zero =>
    refine ⟨?_, ?_, ?_⟩
    all_goals
      intro depth cs rest _ h
      cases h
  | succ fuel ih => exact ⟨hP.value_step ih, items_step ih, members_step ih⟩

/-- What a text is read as has the property at the outermost depth. -/
theorem of_parse? (hP : Inherited P) {text : String} {d : Document} (h : parse? text = some d) :
    P 0 d := by
  simp only [parse?, ofChars?, Option.bind_eq_bind, Option.bind_eq_some_iff] at h
  obtain ⟨⟨read, rest⟩, hread, h⟩ := h
  dsimp only at h
  split at h
  · cases h
    exact (hP.read _).value hread
  · cases h

end Inherited

/-- A numeral stands for a finite double, for an integer of at most 64 bits, or for nothing. -/
theorem ofNumeral_cases (n : Json.Numeral) :
    ofNumeral n = .unreadable ∨ (∃ x : Double, x.isFinite = true ∧ ofNumeral n = .double x)
      ∨ ∃ i : Int, -2 ^ 63 ≤ i ∧ i < 2 ^ 64 ∧ ofNumeral n = .integer i := by
  unfold ofNumeral
  split
  · next i h =>
    refine .inr (.inr ⟨i, ?_, ?_, rfl⟩)
    all_goals
      unfold Json.Numeral.value? at h
      dsimp only at h
      split at h
      · next hc =>
        simp only [Bool.and_eq_true, decide_eq_true_eq] at hc
        cases h
        omega
      · split at h
        · next hc =>
          simp only [Bool.and_eq_true, decide_eq_true_eq] at hc
          cases h
          omega
        · simp at h
  · next x h =>
    refine .inr (.inl ⟨x, ?_, rfl⟩)
    unfold Json.Numeral.value? at h
    dsimp only at h
    split at h
    · cases h
    · split at h
      · cases h
      · simp only [Option.map_eq_some_iff, Json.double.injEq] at h
        obtain ⟨y, hy, rfl⟩ := h
        exact Json.isFinite_of_double? hy
  · exact .inl rfl

/-- Being bounded is inherited, whatever the depth. -/
theorem inherited_bounded : Inherited (fun _ => Bounded) where
  unreadable _ := .unreadable
  null _ := .null
  bool _ b := .bool b
  numeral _ n := by
    obtain h | ⟨x, hx, h⟩ | ⟨i, hlow, hhigh, h⟩ := ofNumeral_cases n
    · exact h ▸ .unreadable
    · exact h ▸ .double hx
    · exact h ▸ .integer (by omega)
  string _ s := .string s
  array _ _ h := .array h
  object _ _ h := .object h

theorem bounded_of_parse? {text : String} {d : Document} (h : parse? text = some d) :
    d.Bounded := inherited_bounded.of_parse? h

section Parts

variable {d : Document} {names : List String} {fields : List (String × Document)}

/-- The documents directly inside an array or an object. -/
def parts : Document → List Document
  | .array items => items
  | .object members => members.map Prod.snd
  | _ => []

theorem Bounded.of_mem_parts (h : d.Bounded) : ∀ p ∈ d.parts, p.Bounded := by
  cases h with
  | array h => exact h
  | object h => exact List.forall_mem_map.mpr h
  | _ => exact List.forall_mem_nil _

theorem mem_of_known? {members : List (String × Document)} (h : known? names members = some fields)
    {m : String × Document} (hm : m ∈ fields) : m ∈ members := by
  unfold known? at h
  dsimp only at h
  split at h
  · cases h
    exact (List.mem_filter.mp hm).1
  · cases h

/-- The fields of a record are parts of the document. -/
theorem mem_parts_of_fields? (h : d.fields? names = some fields) : ∀ m ∈ fields, m.2 ∈ d.parts := by
  intro m hm
  cases d with
  | object members => exact List.mem_map_of_mem (mem_of_known? h hm)
  | array items =>
    simp only [fields?] at h
    split at h
    · cases h
      exact (List.of_mem_zip hm).2
    · cases h
  | _ => cases h

theorem mem_parts_of_flatFields? (h : d.flatFields? names = some fields) :
    ∀ m ∈ fields, m.2 ∈ d.parts := by
  intro m hm
  cases d with
  | object members =>
    simp only [flatFields?] at h
    split at h
    · exact List.mem_map_of_mem (mem_of_known? h hm)
    · cases h
  | _ => cases h

/-- An optional field that is present was read from a document other than null. -/
theorem exists_of_orAbsent? {α : Type} {name : String} {read : Document → Option α} {a : α}
    (h : orAbsent? name read fields = some (some a)) :
    ∃ d, (name, d) ∈ fields ∧ d ≠ .null ∧ read d = some a := by
  unfold orAbsent? orDefault? at h
  split at h
  · cases h
  · next d hd =>
    have hm := Entries.mem_of_get?_eq_some hd
    cases d with
    | null => cases h
    | _ =>
      simp only [optional?, Option.map_eq_some_iff, Option.some.injEq] at h
      obtain ⟨_, h, rfl⟩ := h
      exact ⟨_, hm, nofun, h⟩

end Parts

end Document

namespace Value

theorem canonical_ofInteger {i : Int} (h : i.natAbs < 2 ^ 64) : (ofInteger i).Canonical := by
  unfold ofInteger
  split
  · exact .int _
  · exact .double (Double.isFinite_ofInt h)

theorem Canonical.ofJson {d : Document} (hd : d.Bounded) :
    ∀ {j : Json}, d.json? = some j → (ofJson j).Canonical := by
  induction hd with
  | unreadable => rintro _ ⟨⟩
  | null => rintro _ ⟨⟩; exact .null
  | bool b => rintro _ ⟨⟩; exact .bool b
  | integer h => rintro _ ⟨⟩; exact canonical_ofInteger h
  | double h => rintro _ ⟨⟩; exact .double h
  | string s => rintro _ ⟨⟩; exact .string s
  | array h ih =>
    intro j hj
    simp only [Document.json?, Option.map_eq_some_iff, Document.itemsJson?_eq_mapM] at hj
    obtain ⟨js, hjs, rfl⟩ := hj
    rw [Value.ofJson, itemsOfJson_eq_map]
    refine .list (fun v hv => ?_)
    obtain ⟨j, hj, rfl⟩ := List.mem_map.mp hv
    obtain ⟨d, hd, hdj⟩ := exists_of_mapM hjs hj
    exact ih d hd hdj
  | @object members h ih =>
    intro j hj
    simp only [Document.json?, Option.map_eq_some_iff] at hj
    obtain ⟨ms, hms, rfl⟩ := hj
    rw [Value.ofJson, entriesOfJson_eq_mapValues]
    refine .map ((SortedEntries.ascending_ofList ms).mapValues _) (fun e he => ?_)
    obtain ⟨m, hm, rfl⟩ := Entries.mem_mapValues.mp he
    obtain ⟨d, hd, hdj⟩ :=
      Document.exists_of_membersJson? hms (SortedEntries.mem_of_mem_ofList hm)
    exact ih _ hd hdj

/-- A value that is read from a bounded document is canonical. -/
theorem canonical_of_ofDocument? {d : Document} {v : Value} (hd : d.Bounded)
    (h : ofDocument? d = some v) : v.Canonical := by
  rw [ofDocument?, Option.map_eq_some_iff] at h
  obtain ⟨j, hj, rfl⟩ := h
  exact Canonical.ofJson hd hj

end Value

end PropertyGraph
