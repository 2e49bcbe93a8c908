import PropertyGraph.Proofs.Reordering

namespace PropertyGraph

open Document

namespace Json

mutual

/-- How many arrays and objects stand inside one another in the value. -/
def depth : Json → Nat
  | .array items => itemDepth items + 1
  | .object members => memberDepth members + 1
  | _ => 0

def itemDepth : List Json → Nat
  | [] => 0
  | item :: rest => max item.depth (itemDepth rest)

def memberDepth : List (String × Json) → Nat
  | [] => 0
  | (_, value) :: rest => max value.depth (memberDepth rest)

end

variable {n : Nat}

theorem itemDepth_le {items : List Json} : itemDepth items ≤ n ↔ ∀ j ∈ items, j.depth ≤ n := by
  induction items with
  | nil => simp [itemDepth]
  | cons item rest ih => simp [itemDepth, ih]

theorem memberDepth_le {members : List (String × Json)} :
    memberDepth members ≤ n ↔ ∀ m ∈ members, m.2.depth ≤ n := by
  induction members with
  | nil => simp [memberDepth]
  | cons m rest ih =>
    obtain ⟨key, value⟩ := m
    simp [memberDepth, ih]

/-- The value repeats no key, and only its nesting decides which limits it fits in. -/
structure Plain (j : Json) : Prop where
  distinct : (ofJson j).Distinct
  fits : ∀ {n : Nat}, j.depth ≤ n → j.Fits n

theorem plain_string (s : String) : (string s).Plain := ⟨.string s, fun _ => .string _ s⟩

theorem plain_array {items : List Json} (h : ∀ j ∈ items, j.Plain) : (array items).Plain where
  distinct := distinct_ofJson_array.mpr (fun j hj => (h j hj).distinct)
  fits {n} hn := by
    rw [depth] at hn
    obtain ⟨n, rfl⟩ := Nat.exists_eq_succ_of_ne_zero (by omega : n ≠ 0)
    exact .array (fun j hj => (h j hj).fits (itemDepth_le.mp (Nat.le_of_succ_le_succ hn) j hj))

theorem plain_object {members : List (String × Json)} (nodup : (members.map Prod.fst).Nodup)
    (h : ∀ m ∈ members, m.2.Plain) : (object members).Plain where
  distinct := distinct_ofJson_object.mpr ⟨nodup, fun m hm => (h m hm).distinct⟩
  fits {n} hn := by
    rw [depth] at hn
    obtain ⟨n, rfl⟩ := Nat.exists_eq_succ_of_ne_zero (by omega : n ≠ 0)
    exact .object (fun m hm => (h m hm).fits (memberDepth_le.mp (Nat.le_of_succ_le_succ hn) m hm))

end Json

/-- A canonical value is written plainly. Its integers have 64 bits, so all of them can be read. -/
theorem Value.Canonical.plain {v : Value} (h : v.Canonical) :
    v.toJson.Plain := by
  induction h with
  | null => exact ⟨.null, fun _ => .null _⟩
  | bool b => exact ⟨.bool b, fun _ => .bool _ b⟩
  | int i =>
    have hlow := i.le_toInt
    have hhigh := i.toInt_lt
    exact ⟨.integer _, fun _ => .integer _ (by omega) (by omega)⟩
  | double hx =>
    rw [Value.toJson, Json.ofDouble, if_pos hx]
    exact ⟨.double _, fun _ => .double _ _⟩
  | string s => exact Json.plain_string s
  | list h ih =>
    rw [Value.toJson, Value.itemsToJson_eq_map]
    exact Json.plain_array (List.forall_mem_map.mpr ih)
  | map ascending h ih =>
    rw [Value.toJson, Value.entriesToJson_eq_mapValues]
    apply Json.plain_object
    · rw [Entries.keys_mapValues]
      exact ascending.nodup
    · intro m hm
      obtain ⟨e, he, rfl⟩ := Entries.mem_mapValues.mp hm
      exact ih e he

namespace Double

/-- The double that the digits of a number are converted to, whatever kind of number they spell. -/
def ofText? (text : String) : Option Double :=
  (numeral? text.toList).bind (fun read => read.1.double?)

/-- The digits that are printed for the double are converted to it again. -/
def Survives (x : Double) : Prop := ofText? x.text = some x

instance (x : Double) : Decidable x.Survives := inferInstanceAs (Decidable (_ = _))

/-- A numeral with a point or an exponent is read as the double that its digits give. -/
theorem ofNumeral_eq_double {n : Json.Numeral} (hn : n.isPlain = false) {x : Double}
    (hx : n.double? = some x) : ofNumeral n = .double x := by
  have hvalue : n.value? = some (.double x) := by
    unfold Json.Numeral.value?
    rw [Json.Numeral.isPlain] at hn
    simp [hn, hx]
  rw [ofNumeral, hvalue]

/-- The text of a double that survives is read as that double: it has a point or an exponent, so it
is never read as an integer. -/
theorem Survives.readsBack {x : Double} (h : x.Survives) : x.ReadsBack := by
  simp only [Survives, ofText?, Option.bind_eq_some_iff] at h
  obtain ⟨⟨n, rest⟩, hread, hx⟩ := h
  obtain ⟨m, htext, -, hproper, hplain, -⟩ := text_spells (Json.isFinite_of_double? hx)
  have hm := hproper.numeral?_spelling Json.ends_nil
  rw [List.append_nil, ← htext, hread] at hm
  obtain ⟨rfl, rfl⟩ := Prod.mk.inj (Option.some.inj hm)
  exact readsBack_of_spelling hproper htext (ofNumeral_eq_double hplain hx)

end Double

end PropertyGraph
