import PropertyGraph.Proofs.JsonDepth
import PropertyGraph.Workspace.Instance

namespace PropertyGraph

open Document

namespace Value

/-- A value without parts. -/
def Primitive : Value → Prop
  | list _ => False
  | map _ => False
  | _ => True

/-- What the text of a primitive value tells. Infinities and NaN are not spelled. -/
def spelled : Value → Value
  | double x => if x.isFinite then double x else null
  | v => v

variable {v : Value} {x : Double}

theorem spelled_double_eq_self_iff : (double x).spelled = double x ↔ x.isFinite = true := by
  rw [spelled]
  split
  · next h => exact iff_of_true rfl h
  · next h => exact iff_of_false nofun h

theorem spelled_eq_self (h : ∀ x, v = .double x → x.isFinite = true) : v.spelled = v := by
  cases v with
  | double x => exact spelled_double_eq_self_iff.mpr (h x rfl)
  | _ => rfl

/-- A value and what its text tells have the same text. -/
theorem toJson_spelled (v : Value) : v.spelled.toJson = v.toJson := by
  cases v with
  | double x =>
    rw [spelled, toJson, Json.ofDouble]
    split
    · next h => rw [toJson, Json.ofDouble, if_pos h]
    · rfl
  | _ => rfl

theorem Primitive.canonical_spelled (h : v.Primitive) : v.spelled.Canonical := by
  cases v with
  | null => exact .null
  | bool b => exact .bool b
  | int i => exact .int i
  | double x =>
    rw [spelled]
    split
    · next hx => exact .double hx
    · exact .null
  | string s => exact .string s
  | list _ | map _ => exact h.elim

theorem Primitive.depth_toJson (h : v.Primitive) : v.toJson.depth = 0 := by
  cases v with
  | double x =>
    rw [toJson, Json.ofDouble]
    split <;> rfl
  | list _ | map _ => exact h.elim
  | _ => rfl

theorem Primitive.sorted_toJson (h : v.Primitive) : v.toJson.sorted = v.toJson := by
  cases v with
  | double x =>
    rw [toJson, Json.ofDouble]
    split <;> rfl
  | list _ | map _ => exact h.elim
  | _ => rfl

/-- Only a finite double is written as one. -/
theorem Primitive.mem_doubles_toJson (h : v.Primitive) (hx : x ∈ v.toJson.doubles) :
    v = .double x ∧ x.isFinite = true := by
  cases v with
  | double y =>
    rw [toJson, Json.ofDouble] at hx
    split at hx
    · next hy =>
      obtain rfl := List.mem_singleton.mp hx
      exact ⟨rfl, hy⟩
    · cases hx
  | list _ | map _ => exact h.elim
  | _ => cases hx

end Value

namespace Properties

variable {ps : Properties} {k : Json} {text : String}

/-- Properties without parts, by ascending key. Of a double that is finite it is taken for granted
that the digits printed for it are converted to it again. -/
structure Flat (ps : Properties) : Prop where
  ascending : SortedEntries.Ascending ps
  primitive : ∀ e ∈ ps, e.2.Primitive
  survive : ∀ e ∈ ps, ∀ x, e.2 = .double x → x.isFinite = true → x.Survives

theorem toJson_eq (ps : Properties) : ps.toJson = .object (Entries.mapValues Value.toJson ps) := by
  rw [toJson, Value.toJson, Value.entriesToJson_eq_mapValues]

theorem toJson_spelled (ps : Properties) :
    Properties.toJson (Entries.mapValues Value.spelled ps) = ps.toJson := by
  rw [toJson_eq, toJson_eq, Entries.mapValues_mapValues]
  exact congrArg Json.object (List.map_congr_left (fun e _ => by
    rw [Function.comp_apply, Value.toJson_spelled]))

theorem Flat.canonical_spelled (h : ps.Flat) :
    (Value.map (Entries.mapValues Value.spelled ps)).Canonical := by
  refine .map (h.ascending.mapValues _) (fun e he => ?_)
  obtain ⟨e', he', rfl⟩ := Entries.mem_mapValues.mp he
  exact (h.primitive e' he').canonical_spelled

theorem Flat.depth_toJson (h : ps.Flat) : ps.toJson.depth ≤ depthLimit := by
  have hmembers : Json.memberDepth (Entries.mapValues Value.toJson ps) ≤ 0 := by
    refine Json.memberDepth_le.mpr (fun m hm => ?_)
    obtain ⟨e, he, rfl⟩ := Entries.mem_mapValues.mp hm
    exact (h.primitive e he).depth_toJson.le
  rw [toJson_eq, Json.depth, depthLimit]
  omega

theorem Flat.readsBack (h : ps.Flat) {x : Double} (hx : x ∈ ps.toJson.doubles) : x.ReadsBack := by
  rw [toJson_eq, Json.mem_doubles_object] at hx
  obtain ⟨m, hm, hx⟩ := hx
  obtain ⟨e, he, rfl⟩ := Entries.mem_mapValues.mp hm
  obtain ⟨hv, hfinite⟩ := (h.primitive e he).mem_doubles_toJson hx
  exact (h.survive e he x hv hfinite).readsBack

theorem Flat.sorted_toJson (h : ps.Flat) : ps.toJson.sorted = ps.toJson := by
  rw [toJson_eq, Json.sorted, Json.sortedMembers_eq_mapValues,
    ((h.ascending.mapValues _).mapValues _).ofList_eq, Entries.mapValues_mapValues]
  exact congrArg Json.object (List.map_congr_left (fun e he => by
    rw [Function.comp_apply, (h.primitive e he).sorted_toJson]))

/-- From every text of the properties, with its members in any order and with any blanks, what they
spell is read. -/
theorem Flat.parse?_laidOut (h : ps.Flat) (hk : ps.toJson.Reordered k) (ht : k.LaidOut text) :
    parse? text = some (Entries.mapValues Value.spelled ps) := by
  have hplain : ps.toJson.Plain := by
    rw [← toJson_spelled]
    exact h.canonical_spelled.plain
  obtain ⟨d, hd, hs⟩ := exists_spells_of_laidOut (hplain.fits h.depth_toJson)
    (fun _ => h.readsBack) hplain.distinct hk ht
  rw [← toJson_spelled] at hs
  rw [parse?, hd, Option.bind_some, ofDocument?, h.canonical_spelled.ofDocument?_eq hs]
  rfl

end Properties

namespace Instance

variable {w : Workspace} {i : Instance} {key : String} {v : Value} {text : String}

/-- A declared property, other than the identity, of which the instance now reads the value. -/
def Holds (i : Instance) (w : Workspace) (p : String) (v : Value) : Prop :=
  p ∈ i.model.properties ∧ p ∉ reservedKeys ∧ i.get w p = .ok (some v)

/-- The entries are the declared properties, each with what the instance reads of it, and the
identity. What is absent is null. -/
structure Exports (i : Instance) (w : Workspace) (entries : Properties) : Prop where
  nodup : (entries.map Prod.fst).Nodup
  mem_keys : ∀ key, key ∈ entries.map Prod.fst ↔
    key ∈ i.model.properties ∨ key ∈ reservedKeys
  property : ∀ p ∈ i.model.properties, p ∉ reservedKeys →
    ∃ found, i.get w p = .ok found ∧ Entries.get? p entries = some (found.getD .null)
  id : Entries.get? "id" entries = some (.string i.id)
  type : Entries.get? "type" entries = some (.string i.model.type)

/-- A text of the record, with its members in any order and with any blanks. -/
def Writes (i : Instance) (w : Workspace) (text : String) : Prop :=
  ∃ k, (Properties.toJson (i.record w)).Reordered k ∧ k.LaidOut text

theorem get_eq (h : key ∈ i.model.properties) :
    i.get w key = .ok ((i.vertex? w).bind (fun v => v.get? key)) := by
  have hdeclared : i.model.hasProperty key = true := by simp [Model.hasProperty, h]
  rw [get, if_pos hdeclared]
  rfl

theorem ascending_record (i : Instance) (w : Workspace) : SortedEntries.Ascending (i.record w) :=
  SortedEntries.ascending_ofList _

/-- The identity is put in last, in place of declared properties of these names. -/
theorem get?_record (i : Instance) (w : Workspace) (key : String) :
    Entries.get? key (i.record w) =
      if key = "type" then some (.string i.model.type)
      else if key = "id" then some (.string i.id)
      else if key ∈ i.model.properties then
        some (((i.vertex? w).bind (fun v => v.get? key)).getD .null)
      else none := by
  rw [record, List.append_cons, SortedEntries.ofList_concat, SortedEntries.ofList_concat]
  split
  · next h => rw [h, SortedEntries.get?_insert_self]
  · next htype =>
    rw [SortedEntries.get?_insert_of_ne htype]
    split
    · next h => rw [h, SortedEntries.get?_insert_self]
    · next hid =>
      rw [SortedEntries.get?_insert_of_ne hid, SortedEntries.get?_ofList_map i.model.properties
        (fun p => ((i.vertex? w).bind (fun v => v.get? p)).getD .null)]

theorem not_mem_reservedKeys : key ∉ reservedKeys ↔ key ≠ "type" ∧ key ≠ "id" := by
  simp [reservedKeys, and_comm]

theorem get?_record_property (h : key ∈ i.model.properties) (hkey : key ∉ reservedKeys) :
    Entries.get? key (i.record w) =
      some (((i.vertex? w).bind (fun v => v.get? key)).getD .null) := by
  obtain ⟨htype, hid⟩ := not_mem_reservedKeys.mp hkey
  rw [get?_record, if_neg htype, if_neg hid, if_pos h]

theorem Holds.get?_record (h : i.Holds w key v) :
    Entries.get? key (i.record w) = some v := by
  obtain ⟨hdeclared, hkey, hget⟩ := h
  rw [get_eq hdeclared] at hget
  rw [get?_record_property hdeclared hkey, Except.ok.inj hget]
  rfl

theorem Holds.mem_record (h : i.Holds w key v) : (key, v) ∈ i.record w :=
  Entries.mem_of_get?_eq_some h.get?_record

theorem exports_record (i : Instance) (w : Workspace) : i.Exports w (i.record w) where
  nodup := (ascending_record i w).nodup
  mem_keys key := by
    rw [← not_iff_not, ← Entries.get?_eq_none_iff, get?_record, not_or, not_mem_reservedKeys]
    split
    · next h => simp [h]
    · next htype =>
      split
      · next h => simp [h]
      · next hid =>
        split
        · next h => simp [h]
        · next h => simp [h, htype, hid]
  property p hp hkey := ⟨_, get_eq hp, get?_record_property hp hkey⟩
  id := by rw [get?_record]; rfl
  type := by rw [get?_record]; rfl

/-- What holds of null, of strings and of all that the instance reads holds of the whole record. -/
theorem forall_mem_record {P : Value → Prop} (hnull : P .null) (hstring : ∀ s, P (.string s))
    (hholds : ∀ p v, i.Holds w p v → P v) : ∀ e ∈ i.record w, P e.2 := by
  rintro ⟨key, v⟩ he
  have hget := Entries.get?_eq_some_of_mem (ascending_record i w).nodup he
  by_cases hkey : key ∈ reservedKeys
  · rw [get?_record] at hget
    rcases List.mem_pair.mp hkey with rfl | rfl
    all_goals
      cases hget
      exact hstring _
  · have hdeclared : key ∈ i.model.properties :=
      (((exports_record i w).mem_keys key).mp (List.mem_map_of_mem he)).resolve_right hkey
    rw [get?_record_property hdeclared hkey, Option.some.injEq] at hget
    have hread := get_eq (w := w) hdeclared
    cases hfound : (i.vertex? w).bind (fun v => v.get? key) with
    | none =>
      rw [hfound] at hget
      exact hget ▸ hnull
    | some found =>
      rw [hfound] at hget hread
      exact hholds key v ⟨hdeclared, hkey, hget ▸ hread⟩

section Primitive

variable (hprimitive : ∀ p v, i.Holds w p v → v.Primitive)
  (hsurvive : ∀ p x, i.Holds w p (.double x) → x.isFinite = true → x.Survives)
include hprimitive hsurvive

theorem flat_record : Properties.Flat (i.record w) where
  ascending := ascending_record i w
  primitive := forall_mem_record trivial (fun _ => trivial) hprimitive
  survive := forall_mem_record (P := fun v => ∀ x, v = .double x → x.isFinite = true → x.Survives)
    nofun (fun _ => nofun) (by rintro p _ h x rfl; exact hsurvive p x h)

theorem writes_recordText : i.Writes w (i.recordText w) := by
  refine ⟨_, .refl _, ?_⟩
  rw [recordText, Json.canonical, (flat_record hprimitive hsurvive).sorted_toJson]
  exact Json.laidOut_text _

theorem Writes.parse?_eq (h : i.Writes w text) :
    Properties.parse? text = some (Entries.mapValues Value.spelled (i.record w)) := by
  obtain ⟨k, hk, ht⟩ := h
  exact (flat_record hprimitive hsurvive).parse?_laidOut hk ht

end Primitive

/-- The record is what it spells if no double that the instance reads is infinite or no number. -/
theorem spelled_record_eq_self_iff :
    Entries.mapValues Value.spelled (i.record w) = i.record w ↔
      ∀ p x, i.Holds w p (.double x) → x.isFinite = true := by
  constructor
  · intro h p x hx
    have hget := Entries.get?_mapValues Value.spelled (i.record w) p
    rw [h, hx.get?_record, Option.map_some, Option.some.injEq] at hget
    exact Value.spelled_double_eq_self_iff.mp hget.symm
  · intro h
    refine Entries.mapValues_eq_self (forall_mem_record (P := fun v => v.spelled = v) rfl
      (fun _ => rfl) (fun p v hv => Value.spelled_eq_self ?_))
    rintro x rfl
    exact h p x hv

/-- The record of an instance is what the instance reads of its declared properties, and its
identity. If these are primitive values, and the digits that are printed for the finite doubles
among them are converted to them again, then every text of the record is read as the record with
null in place of the doubles that are not finite. So the text is lossless exactly if all are
finite. -/
theorem export_is_lossless_iff_finite (w : Workspace) (i : Instance)
    (hprimitive : ∀ p v, i.Holds w p v → v.Primitive)
    (hsurvive : ∀ p x, i.Holds w p (.double x) → x.isFinite = true → x.Survives) :
    i.Exports w (i.record w) ∧ i.Writes w (i.recordText w)
      ∧ ∀ text, i.Writes w text →
        Properties.parse? text = some (Entries.mapValues Value.spelled (i.record w))
          ∧ (Properties.parse? text = some (i.record w) ↔
            ∀ p x, i.Holds w p (.double x) → x.isFinite = true) := by
  refine ⟨exports_record i w, writes_recordText hprimitive hsurvive, fun text ht => ?_⟩
  have hread := ht.parse?_eq hprimitive hsurvive
  rw [hread]
  exact ⟨rfl, Option.some_inj.trans spelled_record_eq_self_iff⟩

section Example

/-- What a probe tells of itself. -/
def probeModel : Model := ((((Model.ofType "Probe").property "place").property "reading").property
  "count").property "note"

/-- A workspace in which one probe has been made, with these properties. -/
def lab (properties : Properties) : Workspace :=
  let (w, g) := Workspace.empty.addGraph .empty
  let (w, r) := w.addRegistry g (.sequential "p")
  ((w.register r probeModel).create r probeModel properties).1

def probe : Instance := ⟨0, "p1", probeModel⟩

def minusZero : Double := .ofMagnitude true 0

/-- The integer two, minus zero, a note with a quote and a new line, and no place. -/
def drySample : Properties :=
  [("count", .int 2), ("note", .string "\"dry\"\n"), ("reading", .double minusZero)]

theorem record_drySample : probe.record (lab drySample) =
    [("count", .int 2), ("id", .string "p1"), ("note", .string "\"dry\"\n"), ("place", .null),
      ("reading", .double minusZero), ("type", .string "Probe")] := rfl

/-- Minus zero, the quote and the null of the place come back, also from a text that ends with a
new line. -/
theorem drySample_survives_text :
    probe.exists? (lab drySample) = true
      ∧ (∀ p v, probe.Holds (lab drySample) p v → v.Primitive)
      ∧ (∀ p x, probe.Holds (lab drySample) p (.double x) → x.isFinite = true → x.Survives)
      ∧ probe.Writes (lab drySample) (probe.recordText (lab drySample) ++ "\n")
      ∧ Properties.parse? (probe.recordText (lab drySample)) = some (probe.record (lab drySample))
      ∧ Properties.parse? (probe.recordText (lab drySample) ++ "\n") =
        some (probe.record (lab drySample)) := by
  have hprimitive : ∀ p v, probe.Holds (lab drySample) p v → v.Primitive := by
    intro p v h
    have hall : ∀ e ∈ probe.record (lab drySample), e.2.Primitive := by
      simp [record_drySample, Value.Primitive]
    exact hall _ h.mem_record
  have hdouble : ∀ p x, probe.Holds (lab drySample) p (.double x) → x = minusZero := by
    intro p x h
    have hmem := h.mem_record
    rw [record_drySample] at hmem
    simp_all
  have hsurvive : ∀ p x, probe.Holds (lab drySample) p (.double x) → x.isFinite = true →
      x.Survives := by
    rintro p x h -
    rw [hdouble p x h]
    decide +kernel
  have hfinite : ∀ p x, probe.Holds (lab drySample) p (.double x) → x.isFinite = true := by
    intro p x h
    rw [hdouble p x h]
    decide
  obtain ⟨-, ⟨k, hk, ht⟩, hread⟩ := export_is_lossless_iff_finite _ probe hprimitive hsurvive
  have hline : probe.Writes (lab drySample) (probe.recordText (lab drySample) ++ "\n") := by
    refine ⟨k, hk, ?_⟩
    rw [Json.LaidOut, String.toList_append]
    exact ht.append_blanks (by simp [isBlank])
  exact ⟨rfl, hprimitive, hsurvive, hline, (hread _ ⟨k, hk, ht⟩).2.mpr hfinite,
    (hread _ hline).2.mpr hfinite⟩

/-- A reading beyond all numbers. -/
def overflow : Properties := [("reading", .double (.ofMagnitude false Double.infinite))]

theorem record_overflow : probe.record (lab overflow) =
    [("count", .null), ("id", .string "p1"), ("note", .null), ("place", .null),
      ("reading", .double (.ofMagnitude false Double.infinite)), ("type", .string "Probe")] := rfl

/-- An infinite reading is exported, but in the text it is null, just as the place, which is absent.
So null is what is read. -/
theorem infinite_reading_comes_back_as_null :
    probe.exists? (lab overflow) = true
      ∧ (∀ p v, probe.Holds (lab overflow) p v → v.Primitive)
      ∧ probe.get (lab overflow) "reading" =
        .ok (some (.double (.ofMagnitude false Double.infinite)))
      ∧ probe.recordText (lab overflow) =
        "\x7b\"count\":null,\"id\":\"p1\",\"note\":null,\"place\":null," ++
          "\"reading\":null,\"type\":\"Probe\"\x7d"
      ∧ (Properties.parse? (probe.recordText (lab overflow))).bind (Entries.get? "reading") =
        some .null
      ∧ Properties.parse? (probe.recordText (lab overflow)) ≠
        some (probe.record (lab overflow)) := by
  have hprimitive : ∀ p v, probe.Holds (lab overflow) p v → v.Primitive := by
    intro p v h
    have hall : ∀ e ∈ probe.record (lab overflow), e.2.Primitive := by
      simp [record_overflow, Value.Primitive]
    exact hall _ h.mem_record
  have hsurvive : ∀ p x, probe.Holds (lab overflow) p (.double x) → x.isFinite = true →
      x.Survives := by
    intro p x h hfinite
    have hmem := h.mem_record
    rw [record_overflow] at hmem
    obtain rfl : x = .ofMagnitude false Double.infinite := by simp_all
    contradiction
  have hread := (writes_recordText hprimitive hsurvive).parse?_eq hprimitive hsurvive
  have hnull : (Properties.parse? (probe.recordText (lab overflow))).bind
      (Entries.get? "reading") = some .null := by
    rw [hread, record_overflow]
    rfl
  refine ⟨rfl, hprimitive, rfl, by decide +kernel, hnull, fun h => ?_⟩
  rw [h, record_overflow] at hnull
  cases hnull

end Example

end Instance

end PropertyGraph
