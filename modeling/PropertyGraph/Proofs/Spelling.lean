import PropertyGraph.Proofs.Token

namespace PropertyGraph

section Lists

variable {α β : Type} {f : α → Option β} {xs : List α} {ys : List β}

theorem mapM_eq_some_iff :
    xs.mapM f = some ys ↔ List.Forall₂ (fun x y => f x = some y) xs ys := by
  induction xs generalizing ys with
  | nil => simp [eq_comm]
  | cons x xs ih =>
    simp only [List.mapM_cons, Option.bind_eq_bind, Option.bind_eq_some_iff, Option.pure_def,
      Option.some.injEq, List.forall₂_cons_left_iff]
    constructor
    · rintro ⟨y, hy, rest, hrest, rfl⟩
      exact ⟨y, rest, hy, ih.mp hrest, rfl⟩
    · rintro ⟨y, rest, hy, hrest, rfl⟩
      exact ⟨y, hy, rest, ih.mpr hrest, rfl⟩

theorem exists_of_mapM (h : xs.mapM f = some ys) {y : β} (hy : y ∈ ys) :
    ∃ x ∈ xs, f x = some y := by
  rw [mapM_eq_some_iff] at h
  induction h with
  | nil => cases hy
  | cons hx _ ih =>
    rcases List.mem_cons.mp hy with rfl | hy
    · exact ⟨_, List.mem_cons_self, hx⟩
    · obtain ⟨x, hm, hx⟩ := ih hy
      exact ⟨x, List.mem_cons_of_mem _ hm, hx⟩

/-- A function that succeeds on every item gives a list of results. -/
theorem exists_mapM_eq_some {R : α → β → Prop} (h : ∀ x ∈ xs, ∃ y, f x = some y ∧ R x y) :
    ∃ ys, xs.mapM f = some ys ∧ List.Forall₂ R xs ys := by
  induction xs with
  | nil => exact ⟨[], rfl, .nil⟩
  | cons x xs ih =>
    obtain ⟨y, hy, hr⟩ := h x List.mem_cons_self
    obtain ⟨ys, hys, hrs⟩ := ih (fun x hx => h x (List.mem_cons_of_mem _ hx))
    exact ⟨y :: ys, by simp [hy, hys], .cons hr hrs⟩

end Lists

namespace Document

/-- No object in the document has a key twice. -/
inductive Distinct : Document → Prop
  | unreadable : Distinct .unreadable
  | null : Distinct .null
  | bool (b : Bool) : Distinct (.bool b)
  | integer (i : Int) : Distinct (.integer i)
  | double (x : Double) : Distinct (.double x)
  | string (s : String) : Distinct (.string s)
  | array {items : List Document} (h : ∀ d ∈ items, Distinct d) : Distinct (.array items)
  | object {members : List (String × Document)} (nodup : (members.map Prod.fst).Nodup)
    (h : ∀ m ∈ members, Distinct m.2) : Distinct (.object members)

/-- The document denotes the value, whose members may come in any order. -/
structure Spells (d : Document) (j : Json) : Prop where
  distinct : d.Distinct
  denotes : d.json? = some j.sorted

/-- The members have the keys of the given ones, each once and with a document for its value. -/
structure SpellsMembers (members : List (String × Document)) (given : List (String × Json)) :
    Prop where
  nodup : (members.map Prod.fst).Nodup
  present : ∀ {k : String} {j : Json}, Entries.get? k given = some j →
    ∃ d, Entries.get? k members = some d ∧ d.Spells j
  absent : ∀ {k : String}, Entries.get? k given = none → Entries.get? k members = none

section Denotation

variable {d : Document}

theorem eq_string_of_json? {s : String} (h : d.json? = some (.string s)) : d = .string s := by
  cases d <;> simp_all [json?]

theorem eq_integer_of_json? {i : Int} (h : d.json? = some (.integer i)) : d = .integer i := by
  cases d <;> simp_all [json?]

theorem eq_array_of_json? {js : List Json} (h : d.json? = some (.array js)) :
    ∃ items, d = .array items ∧ itemsJson? items = some js := by
  cases d <;> simp_all [json?]

theorem eq_object_of_json? {ms : List (String × Json)} (h : d.json? = some (.object ms)) :
    ∃ members found, d = .object members ∧ membersJson? members = some found
      ∧ ms = SortedEntries.ofList found := by
  cases d <;> simp_all [json?, eq_comm]

theorem itemsJson?_eq_mapM (items : List Document) : itemsJson? items = items.mapM json? := by
  induction items with
  | nil => rfl
  | cons d items ih => rw [itemsJson?, List.mapM_cons, ih]

theorem membersJson?_eq_mapM (members : List (String × Document)) :
    membersJson? members = members.mapM (fun m => (json? m.2).map (fun j => (m.1, j))) := by
  induction members with
  | nil => rfl
  | cons m members ih =>
    obtain ⟨key, d⟩ := m
    rw [membersJson?, List.mapM_cons, ih]
    cases d.json? <;> rfl

theorem keys_of_membersJson? {members : List (String × Document)} {ms : List (String × Json)}
    (h : membersJson? members = some ms) : ms.map Prod.fst = members.map Prod.fst := by
  rw [membersJson?_eq_mapM, mapM_eq_some_iff] at h
  induction h with
  | nil => rfl
  | cons hm _ ih =>
    obtain ⟨j, _, rfl⟩ := Option.map_eq_some_iff.mp hm
    rw [List.map_cons, List.map_cons, ih]

theorem get?_of_membersJson? {members : List (String × Document)} {ms : List (String × Json)}
    (h : membersJson? members = some ms) (k : String) :
    Entries.get? k ms = (Entries.get? k members).bind json? := by
  rw [membersJson?_eq_mapM, mapM_eq_some_iff] at h
  induction h with
  | nil => rfl
  | cons hm _ ih =>
    obtain ⟨j, hj, rfl⟩ := Option.map_eq_some_iff.mp hm
    simp only [Entries.get?]
    split
    · rw [Option.bind_some, hj]
    · exact ih

theorem exists_of_membersJson? {members : List (String × Document)} {ms : List (String × Json)}
    (h : membersJson? members = some ms) {m : String × Json} (hm : m ∈ ms) :
    ∃ d, (m.1, d) ∈ members ∧ d.json? = some m.2 := by
  rw [membersJson?_eq_mapM] at h
  obtain ⟨⟨key, d⟩, hd, he⟩ := exists_of_mapM h hm
  obtain ⟨j, hj, rfl⟩ := Option.map_eq_some_iff.mp he
  exact ⟨d, hd, hj⟩

end Denotation

section Spells

variable {d : Document}

theorem Spells.eq_string {s : String} (h : d.Spells (.string s)) : d = .string s :=
  eq_string_of_json? (by simpa [Json.sorted] using h.denotes)

theorem Spells.eq_integer {i : Int} (h : d.Spells (.integer i)) : d = .integer i :=
  eq_integer_of_json? (by simpa [Json.sorted] using h.denotes)

theorem Spells.eq_array {js : List Json} (h : d.Spells (.array js)) :
    ∃ items, d = .array items ∧ List.Forall₂ Spells items js := by
  obtain ⟨hdistinct, hdenotes⟩ := h
  rw [Json.sorted, Json.sortedItems_eq_map] at hdenotes
  obtain ⟨items, rfl, hitems⟩ := eq_array_of_json? hdenotes
  cases hdistinct with
  | array hd =>
    refine ⟨items, rfl, ?_⟩
    have hf := mapM_eq_some_iff.mp (itemsJson?_eq_mapM items ▸ hitems)
    clear hitems hdenotes
    induction items generalizing js with
    | nil =>
      cases js with
      | nil => exact .nil
      | cons j js => cases hf
    | cons d items ih =>
      cases js with
      | nil => cases hf
      | cons j js =>
        obtain ⟨hj, hrest⟩ := List.forall₂_cons.mp hf
        exact .cons ⟨hd d List.mem_cons_self, hj⟩
          (ih (fun d' hm => hd d' (List.mem_cons_of_mem _ hm)) hrest)

theorem Spells.eq_object {given : List (String × Json)} (hn : (given.map Prod.fst).Nodup)
    (h : d.Spells (.object given)) :
    ∃ members, d = .object members ∧ SpellsMembers members given := by
  obtain ⟨hdistinct, hdenotes⟩ := h
  rw [Json.sorted, Json.sortedMembers_eq_mapValues] at hdenotes
  obtain ⟨members, found, rfl, hfound, heq⟩ := eq_object_of_json? hdenotes
  cases hdistinct with
  | object hnodup hd =>
    have hlook : ∀ k, (Entries.get? k given).map Json.sorted =
        (Entries.get? k members).bind json? := by
      intro k
      have hk := congrArg (Entries.get? k) heq
      rwa [SortedEntries.get?_ofList (by rwa [Entries.keys_mapValues]),
        SortedEntries.get?_ofList (by rwa [keys_of_membersJson? hfound]),
        Entries.get?_mapValues, get?_of_membersJson? hfound] at hk
    refine ⟨members, rfl, hnodup, ?_, ?_⟩
    · intro k j hj
      have hk := hlook k
      rw [hj, Option.map_some, eq_comm, Option.bind_eq_some_iff] at hk
      obtain ⟨d, hd', hdenotes⟩ := hk
      exact ⟨d, hd', hd _ (Entries.mem_of_get?_eq_some hd'), hdenotes⟩
    · intro k hj
      -- Every member has a value, so a member under the key would show among the given ones.
      have hkeys : k ∉ found.map Prod.fst := by
        rw [← Entries.get?_eq_none_iff, get?_of_membersJson? hfound, ← hlook, hj]
        rfl
      rwa [keys_of_membersJson? hfound, ← Entries.get?_eq_none_iff] at hkeys

end Spells

section OfJson

theorem ofItems_eq_map (js : List Json) : ofItems js = js.map ofJson := by
  induction js with
  | nil => rfl
  | cons j js ih => rw [ofItems, ih, List.map_cons]

theorem ofEntries_eq_mapValues (ms : List (String × Json)) :
    ofEntries ms = Entries.mapValues ofJson ms := by
  induction ms with
  | nil => rfl
  | cons m ms ih =>
    obtain ⟨key, j⟩ := m
    rw [ofEntries, ih]
    rfl

theorem itemsJson?_map_ofJson {js : List Json} (h : ∀ j ∈ js, (ofJson j).json? = some j) :
    itemsJson? (js.map ofJson) = some js := by
  rw [itemsJson?_eq_mapM, mapM_eq_some_iff, List.forall₂_map_left_iff, List.forall₂_same]
  exact h

theorem membersJson?_mapValues_ofJson {ms : List (String × Json)}
    (h : ∀ m ∈ ms, (ofJson m.2).json? = some m.2) :
    membersJson? (Entries.mapValues ofJson ms) = some ms := by
  rw [membersJson?_eq_mapM, mapM_eq_some_iff, Entries.mapValues, List.forall₂_map_left_iff,
    List.forall₂_same]
  intro m hm
  rw [h m hm]
  rfl

/-- The document that spells the sorted value spells the value. -/
theorem spells_ofJson {j : Json} (h : j.Finite) : (ofJson j.sorted).Spells j := by
  induction h with
  | null => exact ⟨.null, rfl⟩
  | bool b => exact ⟨.bool b, rfl⟩
  | integer i => exact ⟨.integer i, rfl⟩
  | double hx => exact ⟨.double _, rfl⟩
  | string s => exact ⟨.string s, rfl⟩
  | @array items h ih =>
    rw [Json.sorted, Json.sortedItems_eq_map, ofJson, ofItems_eq_map]
    constructor
    · refine .array (fun d hd => ?_)
      obtain ⟨j, hj, rfl⟩ := List.mem_map.mp hd
      obtain ⟨i, hi, rfl⟩ := List.mem_map.mp hj
      exact (ih i hi).distinct
    · rw [json?, itemsJson?_map_ofJson, Json.sorted, Json.sortedItems_eq_map, Option.map_some]
      intro j hj
      obtain ⟨i, hi, rfl⟩ := List.mem_map.mp hj
      exact (ih i hi).denotes
  | @object members h ih =>
    rw [Json.sorted, Json.sortedMembers_eq_mapValues, ofJson, ofEntries_eq_mapValues]
    have hascending := SortedEntries.ascending_ofList (Entries.mapValues Json.sorted members)
    constructor
    · refine .object (by rw [Entries.keys_mapValues]; exact hascending.nodup) (fun m hm => ?_)
      obtain ⟨n, hn, rfl⟩ := Entries.mem_mapValues.mp hm
      obtain ⟨n', hn', rfl⟩ := Entries.mem_mapValues.mp (SortedEntries.mem_of_mem_ofList hn)
      exact (ih n' hn').distinct
    · rw [json?, membersJson?_mapValues_ofJson, Json.sorted, Json.sortedMembers_eq_mapValues,
        Option.map_some, hascending.ofList_eq]
      intro n hn
      obtain ⟨n', hn', rfl⟩ := Entries.mem_mapValues.mp (SortedEntries.mem_of_mem_ofList hn)
      exact (ih n' hn').denotes

end OfJson

end Document

end PropertyGraph
