import PropertyGraph.Proofs.Spelling
import PropertyGraph.Value.Json

namespace PropertyGraph

/-- A property of JSON values: those without parts have it if they can be written, and an array, or
an object without repeated keys, has it if its parts do. -/
structure Json.Inherited (P : Json → Prop) : Prop where
  null : P .null
  bool (b : Bool) : P (.bool b)
  integer (i : Int) : P (.integer i)
  double {x : Double} (h : x.isFinite = true) : P (.double x)
  string (s : String) : P (.string s)
  array {items : List Json} (h : ∀ j ∈ items, P j) : P (.array items)
  object {members : List (String × Json)} (nodup : (members.map Prod.fst).Nodup)
    (h : ∀ m ∈ members, P m.2) : P (.object members)

/-- The numbers in the value are finite, and its maps list their entries by ascending key. -/
inductive Value.Canonical : Value → Prop
  | null : Canonical .null
  | bool (b : Bool) : Canonical (.bool b)
  | int (i : Int64) : Canonical (.int i)
  | double {x : Double} (h : x.isFinite = true) : Canonical (.double x)
  | string (s : String) : Canonical (.string s)
  | list {items : List Value} (h : ∀ v ∈ items, Canonical v) : Canonical (.list items)
  | map {entries : List (String × Value)} (ascending : SortedEntries.Ascending entries)
    (h : ∀ e ∈ entries, Canonical e.2) : Canonical (.map entries)

namespace Value

section ToJson

theorem itemsToJson_eq_map (items : List Value) : itemsToJson items = items.map toJson := by
  induction items with
  | nil => rfl
  | cons v items ih => rw [itemsToJson, ih, List.map_cons]

theorem entriesToJson_eq_mapValues (entries : List (String × Value)) :
    entriesToJson entries = Entries.mapValues toJson entries := by
  induction entries with
  | nil => rfl
  | cons e entries ih =>
    obtain ⟨key, v⟩ := e
    rw [entriesToJson, ih]
    rfl

theorem itemsOfJson_eq_map (items : List Json) : itemsOfJson items = items.map ofJson := by
  induction items with
  | nil => rfl
  | cons j items ih => rw [itemsOfJson, ih, List.map_cons]

theorem entriesOfJson_eq_mapValues (members : List (String × Json)) :
    entriesOfJson members = Entries.mapValues ofJson members := by
  induction members with
  | nil => rfl
  | cons m members ih =>
    obtain ⟨key, j⟩ := m
    rw [entriesOfJson, ih]
    rfl

/-- A canonical value is written as a value with every property that parts pass on. -/
theorem Canonical.inherits {P : Json → Prop} (hP : Json.Inherited P) {v : Value}
    (h : v.Canonical) : P v.toJson := by
  induction h with
  | null => exact hP.null
  | bool b => exact hP.bool b
  | int i => exact hP.integer _
  | double hx =>
    rw [toJson, Json.ofDouble, if_pos hx]
    exact hP.double hx
  | string s => exact hP.string s
  | list h ih =>
    rw [toJson, itemsToJson_eq_map]
    exact hP.array (List.forall_mem_map.mpr ih)
  | map ascending h ih =>
    rw [toJson, entriesToJson_eq_mapValues]
    refine hP.object (by rw [Entries.keys_mapValues]; exact ascending.nodup) (fun m hm => ?_)
    obtain ⟨e, he, rfl⟩ := Entries.mem_mapValues.mp hm
    exact ih e he

end ToJson

section OfJson

theorem ofInteger_toInt (i : Int64) : ofInteger i.toInt = int i := by
  have hlow := i.le_toInt
  have hhigh := i.toInt_lt
  rw [ofInteger, if_pos (by omega), Int64.ofInt_toInt]

/-- A canonical value is what its sorted JSON is read as. -/
theorem Canonical.ofJson_toJson {v : Value} (h : v.Canonical) : ofJson v.toJson.sorted = v := by
  induction h with
  | null => rfl
  | bool b => rfl
  | int i => exact ofInteger_toInt i
  | double hx =>
    rw [toJson, Json.ofDouble, if_pos hx]
    rfl
  | string s => rfl
  | list h ih =>
    rw [toJson, itemsToJson_eq_map, Json.sorted, Json.sortedItems_eq_map, ofJson,
      itemsOfJson_eq_map, List.map_map, List.map_map]
    exact congrArg Value.list ((List.map_congr_left ih).trans (List.map_id _))
  | map ascending h ih =>
    rw [toJson, entriesToJson_eq_mapValues, Json.sorted, Json.sortedMembers_eq_mapValues,
      ((ascending.mapValues toJson).mapValues Json.sorted).ofList_eq, ofJson,
      entriesOfJson_eq_mapValues, Entries.mapValues_mapValues, Entries.mapValues_mapValues]
    exact congrArg Value.map (Entries.mapValues_eq_self ih)

/-- Whatever spells a canonical value is read as the value. -/
theorem Canonical.ofDocument?_eq {v : Value} {d : Document} (hv : v.Canonical)
    (h : d.Spells v.toJson) : ofDocument? d = some v := by
  rw [ofDocument?, h.denotes, Option.map_some, hv.ofJson_toJson]

end OfJson

end Value

end PropertyGraph
