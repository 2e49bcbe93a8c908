import PropertyGraph.Proofs.JsonLayout

namespace PropertyGraph

namespace Json

/-- The values are the same, but for the order of members in the objects at any depth. -/
inductive Reordered : Json → Json → Prop
  | refl (j : Json) : Reordered j j
  | trans {j k l : Json} (first : Reordered j k) (second : Reordered k l) : Reordered j l
  | members {members others : List (String × Json)} (h : members.Perm others) :
    Reordered (.object members) (.object others)
  | item {j k : Json} (h : Reordered j k) (before after : List Json) :
    Reordered (.array (before ++ j :: after)) (.array (before ++ k :: after))
  | member {j k : Json} (h : Reordered j k) (key : String) (before after : List (String × Json)) :
    Reordered (.object (before ++ (key, j) :: after)) (.object (before ++ (key, k) :: after))

variable {j k : Json}

theorem Reordered.fits (h : j.Reordered k) {n : Nat} (hj : j.Fits n) : k.Fits n := by
  induction h generalizing n with
  | refl => exact hj
  | trans _ _ ih ih' => exact ih' (ih hj)
  | members hp =>
    cases hj with
    | object h => exact .object (fun m hm => h m (hp.mem_iff.mpr hm))
  | item _ before after ih =>
    cases hj with
    | array h =>
      simp only [List.forall_mem_append, List.forall_mem_cons] at h
      exact .array (List.forall_mem_append.mpr ⟨h.1, List.forall_mem_cons.mpr ⟨ih h.2.1, h.2.2⟩⟩)
  | member _ key before after ih =>
    cases hj with
    | object h =>
      simp only [List.forall_mem_append, List.forall_mem_cons] at h
      exact .object (List.forall_mem_append.mpr ⟨h.1, List.forall_mem_cons.mpr ⟨ih h.2.1, h.2.2⟩⟩)

theorem Reordered.mem_doubles (h : j.Reordered k) {x : Double} (hx : x ∈ k.doubles) :
    x ∈ j.doubles := by
  induction h with
  | refl => exact hx
  | trans _ _ ih ih' => exact ih (ih' hx)
  | members hp =>
    obtain ⟨m, hm, hx⟩ := mem_doubles_object.mp hx
    exact mem_doubles_object.mpr ⟨m, hp.mem_iff.mpr hm, hx⟩
  | item _ before after ih =>
    simp only [doubles, itemDoubles_eq_flatMap, List.flatMap_append, List.flatMap_cons,
      List.mem_append] at hx ⊢
    exact hx.imp_right (Or.imp_left ih)
  | member _ key before after ih =>
    simp only [doubles, memberDoubles_eq_flatMap, List.flatMap_append, List.flatMap_cons,
      List.mem_append] at hx ⊢
    exact hx.imp_right (Or.imp_left ih)

end Json

namespace Document

variable {j k : Json}

mutual

/-- The document that spells a value denotes its sorted form. -/
theorem json?_ofJson : ∀ j : Json, (ofJson j).json? = some j.sorted
  | .null | .bool _ | .integer _ | .double _ | .string _ => rfl
  | .array items => by rw [ofJson, json?, itemsJson?_ofItems items, Json.sorted]; rfl
  | .object members => by rw [ofJson, json?, membersJson?_ofEntries members, Json.sorted]; rfl

theorem itemsJson?_ofItems : ∀ items : List Json,
    itemsJson? (ofItems items) = some (Json.sortedItems items)
  | [] => rfl
  | item :: rest => by
    rw [ofItems, itemsJson?, json?_ofJson item, itemsJson?_ofItems rest]
    rfl

theorem membersJson?_ofEntries : ∀ members : List (String × Json),
    membersJson? (ofEntries members) = some (Json.sortedMembers members)
  | [] => rfl
  | (key, value) :: rest => by
    rw [ofEntries, membersJson?, json?_ofJson value, membersJson?_ofEntries rest]
    rfl

end

theorem distinct_ofJson_array {items : List Json} :
    (ofJson (.array items)).Distinct ↔ ∀ j ∈ items, (ofJson j).Distinct := by
  rw [ofJson, ofItems_eq_map]
  constructor
  · intro h
    cases h with
    | array h => exact List.forall_mem_map.mp h
  · exact fun h => .array (List.forall_mem_map.mpr h)

theorem distinct_ofJson_object {members : List (String × Json)} :
    (ofJson (.object members)).Distinct ↔
      (members.map Prod.fst).Nodup ∧ ∀ m ∈ members, (ofJson m.2).Distinct := by
  rw [ofJson, ofEntries_eq_mapValues, ← Entries.keys_mapValues ofJson]
  constructor
  · intro h
    cases h with
    | object nodup h =>
      exact ⟨nodup, fun m hm => h _ (Entries.mem_mapValues.mpr ⟨m, hm, rfl⟩)⟩
  · rintro ⟨nodup, h⟩
    refine .object nodup (fun e he => ?_)
    obtain ⟨m, hm, rfl⟩ := Entries.mem_mapValues.mp he
    exact h m hm

/-- Being written without repeated keys is inherited. -/
theorem inherited_distinct : Json.Inherited (fun j => (ofJson j).Distinct) where
  null := .null
  bool b := .bool b
  integer i := .integer i
  double {x} _ := .double x
  string s := .string s
  array h := distinct_ofJson_array.mpr h
  object nodup h := distinct_ofJson_object.mpr ⟨nodup, h⟩

/-- Reordering a value without repeated keys gives another one with the same sorted form. -/
theorem distinct_of_reordered (h : j.Reordered k) (hj : (ofJson j).Distinct) :
    (ofJson k).Distinct ∧ k.sorted = j.sorted := by
  induction h with
  | refl => exact ⟨hj, rfl⟩
  | trans _ _ ih ih' =>
    obtain ⟨hk, hkj⟩ := ih hj
    obtain ⟨hl, hlk⟩ := ih' hk
    exact ⟨hl, hlk.trans hkj⟩
  | @members members others hp =>
    rw [distinct_ofJson_object] at hj ⊢
    refine ⟨⟨(hp.map Prod.fst).nodup_iff.mp hj.1, fun m hm => hj.2 m (hp.mem_iff.mpr hm)⟩, ?_⟩
    have hsorted : SortedEntries.ofList (Entries.mapValues Json.sorted members) =
        SortedEntries.ofList (Entries.mapValues Json.sorted others) :=
      SortedEntries.ofList_eq_of_perm (hp.map _) (by rw [Entries.keys_mapValues]; exact hj.1)
    rw [Json.sorted, Json.sorted, Json.sortedMembers_eq_mapValues, Json.sortedMembers_eq_mapValues,
      hsorted]
  | item _ before after ih =>
    rw [distinct_ofJson_array] at hj ⊢
    simp only [List.forall_mem_append, List.forall_mem_cons] at hj ⊢
    obtain ⟨hk, hkj⟩ := ih hj.2.1
    refine ⟨⟨hj.1, hk, hj.2.2⟩, ?_⟩
    simp only [Json.sorted, Json.sortedItems_eq_map, List.map_append, List.map_cons, hkj]
  | member _ key before after ih =>
    rw [distinct_ofJson_object] at hj ⊢
    simp only [List.forall_mem_append, List.forall_mem_cons, List.map_append, List.map_cons] at hj ⊢
    obtain ⟨hk, hkj⟩ := ih hj.2.2.1
    refine ⟨⟨hj.1, hj.2.1, hk, hj.2.2.2⟩, ?_⟩
    simp only [Json.sorted, Json.sortedMembers_eq_mapValues, Entries.mapValues, List.map_append,
      List.map_cons, hkj]

/-- What spells a reordered value spells the value. -/
theorem spells_of_reordered (h : j.Reordered k) (hj : (ofJson j).Distinct) :
    (ofJson k).Spells j := by
  obtain ⟨hk, hkj⟩ := distinct_of_reordered h hj
  exact ⟨hk, by rw [json?_ofJson, hkj]⟩

/-- A text that lays out a value, with its members in any order and with any blanks, is read as a
document that spells the value. -/
theorem exists_spells_of_laidOut (hfits : j.Fits depthLimit)
    (hdoubles : ∀ x ∈ j.doubles, x.ReadsBack) (hj : (ofJson j).Distinct) (h : j.Reordered k)
    {text : String} (ht : k.LaidOut text) : ∃ d, parse? text = some d ∧ d.Spells j :=
  ⟨ofJson k, parse?_laidOut (h.fits hfits) (fun x hx => hdoubles x (h.mem_doubles hx)) ht,
    spells_of_reordered h hj⟩

end Document

end PropertyGraph
