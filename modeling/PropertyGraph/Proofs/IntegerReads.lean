import PropertyGraph.Proofs.ExactValue
import PropertyGraph.Proofs.FilterMask
import PropertyGraph.Value.Conversion
import PropertyGraph.Value.Json

namespace PropertyGraph

/-- What integers may be read as part of. -/
inductive IntegerShape where
  | integer
  | list (items : IntegerShape)
  | option (inner : IntegerShape)

namespace IntegerShape

/-- What is read. -/
def Result : IntegerShape → Type
  | integer => Int64
  | list items => List items.Result
  | option inner => Option inner.Result

instance ofValue : (s : IntegerShape) → OfValue s.Result
  | integer => inferInstanceAs (OfValue Int64)
  | list items => have := ofValue items; inferInstanceAs (OfValue (List items.Result))
  | option inner => have := ofValue inner; inferInstanceAs (OfValue (Option inner.Result))

/-- The value has the shape, where null is absence, and each of its parts is what `P` says that the
integer in its place is read from. -/
def Reads (P : Value → Int64 → Prop) : (s : IntegerShape) → Value → s.Result → Prop
  | integer, v, i => P v i
  | list items, v, results => ∃ vs, v = .list vs ∧ List.Forall₂ (Reads P items) vs results
  | option _, v, none => v = .null
  | option inner, v, some result => v ≠ .null ∧ Reads P inner v result

end IntegerShape

namespace Value

variable {v : Value} {i : Int64}

/-- The number is the integer, exactly. -/
def IsExactly (v : Value) (i : Int64) : Prop := v.worth? = some (i.toInt : ℚ)

/-- The number is the integer, or a whole number beyond the end of the range that the integer is. -/
def IsNearly (v : Value) (i : Int64) : Prop :=
  v.IsExactly i ∨ ∃ m : Int, v.worth? = some (m : ℚ) ∧
    (2 ^ 63 ≤ m ∧ i = Int64.maxValue ∨ m < -2 ^ 63 ∧ i = Int64.minValue)

theorem clampInt64_eq_iff {m : Int} : clampInt64 m = i ↔
    i.toInt = m ∨ 2 ^ 63 ≤ m ∧ i = Int64.maxValue ∨ m < -2 ^ 63 ∧ i = Int64.minValue := by
  have hlow := i.le_toInt
  have hhigh := i.toInt_lt
  unfold clampInt64
  split
  · constructor
    · intro h
      exact .inr (.inr ⟨by omega, h.symm⟩)
    · rintro (h | ⟨h, -⟩ | ⟨-, h⟩)
      · omega
      · omega
      · exact h.symm
  · split
    · constructor
      · intro h
        exact .inr (.inl ⟨by omega, h.symm⟩)
      · rintro (h | ⟨-, h⟩ | ⟨h, -⟩)
        · omega
        · exact h.symm
        · omega
    · have hm : (Int64.ofInt m).toInt = m := Int64.toInt_ofInt_of_le (by omega) (by omega)
      rw [← Int64.toInt_inj, hm]
      omega

theorem worth?_double_eq_some_iff {x : Double} {m : Int} :
    (double x).worth? = some (m : ℚ) ↔ x.whole? = some m := by
  rw [Double.whole?_eq_some_iff, worth?]
  split
  · next h => simp [h]
  · next h => simp [h]

/-- The integer in a number: the number itself, if it is whole, or else the end of the range. -/
theorem int?_eq_some_iff : v.int? = some i ↔ v.IsNearly i := by
  cases v with
  | int j =>
    have hlow := j.le_toInt
    have hhigh := j.toInt_lt
    simp only [int?, IsNearly, IsExactly, worth?, Option.some.injEq, Int.cast_inj, Int64.toInt_inj]
    constructor
    · exact .inl
    · rintro (h | ⟨m, rfl, h | h⟩)
      · exact h
      · omega
      · omega
  | double x =>
    simp only [int?, Option.map_eq_some_iff, clampInt64_eq_iff, IsNearly, IsExactly,
      worth?_double_eq_some_iff]
    constructor
    · rintro ⟨m, hm, rfl | h⟩
      · exact .inl hm
      · exact .inr ⟨m, hm, h⟩
    · rintro (h | ⟨m, hm, h⟩)
      · exact ⟨i.toInt, h, .inl rfl⟩
      · exact ⟨m, hm, .inr h⟩
  | _ => simp [int?, IsNearly, IsExactly, worth?]

end Value

namespace OfValue

variable {α : Type} [OfValue α] {v : Value} {e : Error}

theorem orMismatch_eq_ok_iff {β : Type} {expected : String} {found : Option β} {b : β} :
    orMismatch expected v found = .ok b ↔ found = some b := by
  cases found <;> simp [orMismatch]

theorem eq_wrongType_of_orMismatch {β : Type} {expected : String} {found : Option β}
    (h : orMismatch expected v found = .error e) : e = .wrongType expected v.typeName := by
  cases found with
  | none => exact (Except.error.inj h).symm
  | some b => cases h

theorem list_eq (v : Value) : (ofValue v : Except Error (List α)) =
    orMismatch "array" v v.list? >>= fun vs => vs.mapM ofValue := rfl

theorem list_eq_ok_iff {results : List α} : ofValue v = .ok results ↔
    ∃ vs, v = .list vs ∧ List.Forall₂ (fun w a => ofValue w = .ok a) vs results := by
  have hlist : ∀ vs, v.list? = some vs ↔ v = .list vs := by
    cases v <;> simp [Value.list?]
  simp only [list_eq, bind_eq_ok_iff, orMismatch_eq_ok_iff, hlist, mapM_eq_ok_iff]

theorem list_eq_error (h : (ofValue v : Except Error (List α)) = .error e) :
    e = .wrongType "array" v.typeName ∨ ∃ w, (ofValue w : Except Error α) = .error e := by
  rw [list_eq, bind_eq_error_iff] at h
  rcases h with h | ⟨vs, -, h⟩
  · exact .inl (eq_wrongType_of_orMismatch h)
  · obtain ⟨w, -, hw⟩ := exists_of_mapM_error h
    exact .inr ⟨w, hw⟩

theorem option_of_ne_null (hv : v ≠ .null) :
    (ofValue v : Except Error (Option α)) = (ofValue v).map some := by
  cases v with
  | null => exact absurd rfl hv
  | _ => rfl

theorem option_null : (ofValue Value.null : Except Error (Option α)) = .ok none := rfl

theorem option_eq_none_iff : (ofValue v : Except Error (Option α)) = .ok none ↔ v = .null := by
  by_cases hv : v = .null
  · simp [hv, option_null]
  · simp [option_of_ne_null hv, map_eq_ok_iff, hv]

theorem option_eq_some_iff {a : α} :
    ofValue v = .ok (some a) ↔ v ≠ .null ∧ ofValue v = .ok a := by
  by_cases hv : v = .null
  · simp [hv, option_null]
  · simp [option_of_ne_null hv, map_eq_ok_iff, hv]

theorem option_eq_error (h : (ofValue v : Except Error (Option α)) = .error e) :
    (ofValue v : Except Error α) = .error e := by
  by_cases hv : v = .null
  · rw [hv, option_null] at h
    cases h
  · rw [option_of_ne_null hv] at h
    cases hread : (ofValue v : Except Error α) with
    | error e' =>
      rw [hread] at h
      cases h
      rfl
    | ok a =>
      rw [hread] at h
      cases h

end OfValue

namespace IntegerShape

/-- A value is read as just the results that its numbers nearly are. -/
theorem ofValue_eq_ok_iff : ∀ (s : IntegerShape) {v : Value} {a : s.Result},
    PropertyGraph.ofValue v = .ok a ↔ s.Reads Value.IsNearly v a
  | integer, v, a => OfValue.orMismatch_eq_ok_iff.trans Value.int?_eq_some_iff
  | list items, v, results => by
    have hitems : (fun w a => PropertyGraph.ofValue w = .ok a) = items.Reads Value.IsNearly :=
      funext (fun w => funext (fun a => propext (ofValue_eq_ok_iff items)))
    exact OfValue.list_eq_ok_iff.trans (by rw [hitems]; exact Iff.rfl)
  | option inner, v, none => OfValue.option_eq_none_iff
  | option inner, v, some result =>
    OfValue.option_eq_some_iff.trans (and_congr_right' (ofValue_eq_ok_iff inner))

/-- What cannot be read is of the wrong type. -/
theorem wrongType_of_error : ∀ (s : IntegerShape) {v : Value} {e : Error},
    (PropertyGraph.ofValue v : Except Error s.Result) = .error e →
      ∃ expected found, e = .wrongType expected found
  | integer, _, _, h => ⟨_, _, OfValue.eq_wrongType_of_orMismatch h⟩
  | list items, _, _, h => (OfValue.list_eq_error h).elim (fun h => ⟨_, _, h⟩)
      (fun ⟨_, hw⟩ => wrongType_of_error items hw)
  | option inner, _, _, h => wrongType_of_error inner (OfValue.option_eq_error h)

end IntegerShape

namespace Row

variable {r : Row} {key : String} {v : Value}

theorem get_eq (h : Entries.get? key r.values = some v) {α : Type} [OfValue α] :
    (r.get key : Except Error α) = ofValue v := by
  rw [get, h]

/-- A value of a row is read as an integer, or as a list or an option of what can be read, just if
it has that shape, with numbers of whole value. Each such number gives the integer of its value, or
the last one before its value if no integer of 64 bits has it. Everything else under the key is of
the wrong type. -/
theorem integers_are_read_or_clamped (r : Row) (key : String) (s : IntegerShape) :
    (Entries.get? key r.values = none →
        (r.get key : Except Error s.Result) = .error (.unknownField "result row" key))
      ∧ ∀ v, Entries.get? key r.values = some v →
        (∀ a : s.Result, r.get key = .ok a ↔ s.Reads Value.IsNearly v a)
          ∧ ∀ e, (r.get key : Except Error s.Result) = .error e →
            ∃ expected found, e = .wrongType expected found := by
  refine ⟨fun h => by rw [get, h], fun v h => ⟨fun a => ?_, fun e he => ?_⟩⟩
  · rw [get_eq h]
    exact s.ofValue_eq_ok_iff
  · rw [get_eq h] at he
    exact s.wrongType_of_error he

/-- Two as a double, an integer and null are read as integers that may be absent. -/
theorem double_two_is_read_as_two :
    let counts : Value := .list [.double (.ofMagnitude false 0x4000000000000000), .int 7, .null]
    let r : Row := ⟨[("counts", counts)]⟩
    let s : IntegerShape := .list (.option .integer)
    let found : List (Option Int64) := [some 2, some 7, none]
    Entries.get? "sizes" r.values = none ∧ Entries.get? "counts" r.values = some counts
      ∧ s.Reads Value.IsNearly counts found
      ∧ (r.get "counts" : Except Error (List (Option Int64))) = .ok found
      ∧ (r.get "sizes" : Except Error (List (Option Int64))) =
        .error (.unknownField "result row" "sizes") := by
  intro counts r s found
  have habsent : Entries.get? "sizes" r.values = none := rfl
  have hpresent : Entries.get? "counts" r.values = some counts := rfl
  have htwo : (Value.double (.ofMagnitude false 0x4000000000000000)).IsExactly 2 :=
    Value.worth?_double_eq_some_iff.mpr (by decide +kernel)
  have hreads : s.Reads Value.IsNearly counts found :=
    ⟨_, rfl, .cons ⟨nofun, .inl htwo⟩ (.cons ⟨nofun, .inl rfl⟩ (.cons rfl .nil))⟩
  obtain ⟨hunknown, -⟩ := integers_are_read_or_clamped r "sizes" s
  obtain ⟨-, hread⟩ := integers_are_read_or_clamped r "counts" s
  exact ⟨habsent, hpresent, hreads, ((hread counts hpresent).1 found).mpr hreads, hunknown habsent⟩

/-- The integer 2^63 does not fit. It is stored as a double with its value, and read as the integer
before it. -/
theorem two_to_the_63_is_read_as_less :
    let n : Value := .ofJson (.integer 9223372036854775808)
    let r : Row := ⟨[("n", n)]⟩
    n.worth? = some ((9223372036854775808 : Int) : ℚ)
      ∧ (r.get "n" : Except Error Int64) = .ok Int64.maxValue
      ∧ ¬ n.IsExactly Int64.maxValue := by
  intro n r
  have hexact : n.worth? = some ((9223372036854775808 : Int) : ℚ) :=
    Value.worth?_double_eq_some_iff.mpr (by decide +kernel)
  have hnearly : n.IsNearly Int64.maxValue := .inr ⟨_, hexact, .inl ⟨by decide, rfl⟩⟩
  have hpresent : Entries.get? "n" r.values = some n := rfl
  refine ⟨hexact, ?_, fun h => ?_⟩
  · rw [get_eq hpresent]
    exact IntegerShape.integer.ofValue_eq_ok_iff.mpr hnearly
  · have hcast := Option.some.inj (hexact.symm.trans h)
    exact absurd (Int.cast_injective hcast) (by decide)

end Row

end PropertyGraph
