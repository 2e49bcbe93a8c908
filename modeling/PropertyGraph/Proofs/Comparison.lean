import Mathlib.Data.String.Basic
import PropertyGraph.Proofs.MixedNumbers

namespace PropertyGraph

namespace Double

variable {x y z : Double}

theorem compare?_swap (x y : Double) : y.compare? x = (x.compare? y).map Ordering.swap := by
  rw [compare?, compare?, Bool.or_comm]
  split
  · rfl
  · rw [Option.map_some, Value.compare_swap]

theorem compare?_eq_lt_iff : x.compare? y = some .lt ↔
    x.isNaN = false ∧ y.isNaN = false ∧ x.key < y.key := by
  rw [compare?]
  split
  · next h =>
    refine iff_of_false (by simp) ?_
    rintro ⟨hx, hy, -⟩
    rw [hx, hy] at h
    contradiction
  · next h =>
    rw [Bool.or_eq_true, not_or, Bool.not_eq_true, Bool.not_eq_true] at h
    rw [Option.some.injEq, compare_lt_iff_lt]
    exact ⟨fun hlt => ⟨h.1, h.2, hlt⟩, fun hlt => hlt.2.2⟩

theorem compare?_trans (hxy : x.compare? y = some .lt) (hyz : y.compare? z = some .lt) :
    x.compare? z = some .lt := by
  obtain ⟨hx, -, hlt⟩ := compare?_eq_lt_iff.mp hxy
  obtain ⟨-, hz, hlt'⟩ := compare?_eq_lt_iff.mp hyz
  exact compare?_eq_lt_iff.mpr ⟨hx, hz, hlt.trans hlt'⟩

/-- Doubles are equal if they are compared and no difference is found. -/
theorem equal_iff_compare? : x.equal y = true ↔ x.compare? y = some .eq := by
  rw [compare?, equal]
  cases x.isNaN <;> cases y.isNaN <;> simp

end Double

namespace Value

variable {u v w : Value} {i j : Int64} {x : Double}

section Rounding

/-- Rounding keeps the order of integers, up to equality. If it took the less of two integers beyond
the greater and the greater beyond the less, each would go to the farther of two doubles. -/
theorem rounded_le_rounded (h : i.toInt < j.toInt) : rounded i ≤ rounded j := by
  have hij : (i.toInt : ℚ) < j.toInt := Int.cast_lt.mpr h
  rcases lt_or_ge (i.toInt : ℚ) (rounded j) with hi | hi
  · exact rounded_le_of_lt hi
  rcases lt_or_ge (rounded i) (j.toInt : ℚ) with hj | hj
  · exact le_rounded_of_lt hj
  have hnear : |rounded i - i.toInt| ≤ |rounded j - i.toInt| := abs_rounded_sub_le i _
  have hnear' : |rounded j - j.toInt| ≤ |rounded i - j.toInt| := abs_rounded_sub_le j _
  rw [abs_of_nonneg (by linarith), abs_of_nonpos (by linarith)] at hnear
  rw [abs_of_nonpos (by linarith), abs_of_nonneg (by linarith)] at hnear'
  linarith

theorem key_ofInt_le (h : i.toInt < j.toInt) :
    (Double.ofInt i.toInt).key ≤ (Double.ofInt j.toInt).key := by
  rw [← compare_le_iff_le, Double.compare_key, compare_le_iff_le]
  exact rounded_le_rounded h

theorem isNaN_ofInt (i : Int64) : (Double.ofInt i.toInt).isNaN = false :=
  Double.isNaN_of_isFinite (isFinite_rounded i)

/-- An integer is less than a double if a greater integer is. -/
theorem compare?_ofInt_of_lt (h : i.toInt < j.toInt)
    (hj : (Double.ofInt j.toInt).compare? x = some .lt) :
    (Double.ofInt i.toInt).compare? x = some .lt := by
  obtain ⟨-, hx, hlt⟩ := Double.compare?_eq_lt_iff.mp hj
  exact Double.compare?_eq_lt_iff.mpr ⟨isNaN_ofInt i, hx, (key_ofInt_le h).trans_lt hlt⟩

/-- A double is less than an integer if it is less than a smaller integer. -/
theorem compare?_ofInt_of_gt (hi : x.compare? (Double.ofInt i.toInt) = some .lt)
    (h : i.toInt < j.toInt) : x.compare? (Double.ofInt j.toInt) = some .lt := by
  obtain ⟨hx, -, hlt⟩ := Double.compare?_eq_lt_iff.mp hi
  exact Double.compare?_eq_lt_iff.mpr ⟨hx, isNaN_ofInt j, hlt.trans_le (key_ofInt_le h)⟩

/-- Integers that are still apart when they are rounded are in the same order. -/
theorem lt_of_compare?_ofInt
    (h : (Double.ofInt i.toInt).compare? (Double.ofInt j.toInt) = some .lt) :
    i.toInt < j.toInt := by
  obtain ⟨-, -, hlt⟩ := Double.compare?_eq_lt_iff.mp h
  rcases lt_trichotomy i.toInt j.toInt with hij | hij | hij
  · exact hij
  · rw [hij] at hlt
    exact absurd hlt (lt_irrefl _)
  · exact absurd hlt (not_lt.mpr (key_ofInt_le hij))

end Rounding

section StrictOrder

/-- One value is less than the other. Of two integers this may show before they are rounded, and of
any two numbers after it. -/
inductive Less : Value → Value → Prop
  | bool {a b : Bool} (h : a < b) : Less (.bool a) (.bool b)
  | int {i j : Int64} (h : i.toInt < j.toInt) : Less (.int i) (.int j)
  | rounded {u v : Value} {x y : Double} (hu : u.double? = some x) (hv : v.double? = some y)
    (h : x.compare? y = some .lt) : Less u v
  | string {s t : String} (h : s < t) : Less (.string s) (.string t)

theorem less_of_compare? (h : u.compare? v = some .lt) : u.Less v := by
  cases u <;> cases v
  case bool.bool a b => exact .bool (compare_lt_iff_lt.mp (Option.some.inj h))
  case int.int i j => exact .int (compare_lt_iff_lt.mp (Option.some.inj h))
  case int.double i y => exact .rounded rfl rfl h
  case double.int x j => exact .rounded rfl rfl h
  case double.double x y => exact .rounded rfl rfl h
  case string.string s t => exact .string (compare_lt_iff_lt.mp (Option.some.inj h))
  all_goals cases h

theorem double?_eq_some_iff : u.double? = some x ↔
    u = .double x ∨ ∃ i, u = .int i ∧ Double.ofInt i.toInt = x := by
  cases u <;> simp [double?]

theorem Less.compare?_eq (h : u.Less v) : u.compare? v = some .lt := by
  cases h with
  | bool h => exact congrArg some (compare_lt_iff_lt.mpr h)
  | int h => exact congrArg some (compare_lt_iff_lt.mpr h)
  | string h => exact congrArg some (compare_lt_iff_lt.mpr h)
  | rounded hu hv h =>
    obtain rfl | ⟨i, rfl, rfl⟩ := double?_eq_some_iff.mp hu
    all_goals obtain rfl | ⟨j, rfl, rfl⟩ := double?_eq_some_iff.mp hv
    · exact h
    · exact h
    · exact h
    · exact congrArg some (compare_lt_iff_lt.mpr (lt_of_compare?_ofInt h))

/-- Along a chain one step between rounded numbers makes up for the steps between integers, which
rounding may close but never turns around. -/
theorem Less.trans (huv : u.Less v) (hvw : v.Less w) : u.Less w := by
  cases huv with
  | bool hab =>
    cases hvw with
    | bool hbc => exact .bool (lt_trans hab hbc)
    | rounded hv _ _ => cases hv
  | string hst =>
    cases hvw with
    | string htr => exact .string (lt_trans hst htr)
    | rounded hv _ _ => cases hv
  | int hij =>
    cases hvw with
    | int hjk => exact .int (lt_trans hij hjk)
    | rounded hv hw h =>
      cases hv
      exact .rounded rfl hw (compare?_ofInt_of_lt hij h)
  | rounded hu hv h =>
    cases hvw with
    | bool _ => cases hv
    | string _ => cases hv
    | int hjk =>
      cases hv
      exact .rounded hu rfl (compare?_ofInt_of_gt h hjk)
    | rounded hv' hw h' =>
      obtain rfl := Option.some.inj (hv.symm.trans hv')
      exact .rounded hu hw (Double.compare?_trans h h')

theorem compare?_trans (huv : u.compare? v = some .lt) (hvw : v.compare? w = some .lt) :
    u.compare? w = some .lt :=
  ((less_of_compare? huv).trans (less_of_compare? hvw)).compare?_eq

/-- The other way round the order is reversed, and there is none if there was none. -/
theorem compare?_swap (u v : Value) : v.compare? u = (u.compare? v).map Ordering.swap := by
  cases u <;> cases v
  case bool.bool a b => exact congrArg some (compare_swap a b)
  case int.int i j => exact congrArg some (compare_swap i.toInt j.toInt)
  case int.double i y => exact Double.compare?_swap _ _
  case double.int x j => exact Double.compare?_swap _ _
  case double.double x y => exact Double.compare?_swap _ _
  case string.string s t => exact congrArg some (compare_swap s t)
  all_goals rfl

end StrictOrder

/-- Two numbers, two strings or two booleans. -/
inductive OfOneKind : Value → Value → Prop
  | numbers {u v : Value} (hu : Operator.isNumber u = true) (hv : Operator.isNumber v = true) :
    OfOneKind u v
  | strings (s t : String) : OfOneKind (.string s) (.string t)
  | bools (a b : Bool) : OfOneKind (.bool a) (.bool b)

/-- Values of one kind are equal if they are compared and no difference is found. -/
theorem OfOneKind.looseEqual_iff (h : u.OfOneKind v) :
    u.looseEqual v = true ↔ u.compare? v = some .eq := by
  cases h with
  | strings s t => simp [looseEqual, equal, compare?]
  | bools a b => simp [looseEqual, equal, compare?]
  | numbers hu hv =>
    cases u <;> cases v
    case int.int i j => simp [looseEqual, equal, compare?, Int64.toInt_inj]
    case int.double i y => exact Double.equal_iff_compare?
    case double.int x j =>
      have hside : (double x).looseEqual (int j) = x.equal (Double.ofInt j.toInt) :=
        Double.equal_comm _ _
      rw [hside]
      exact Double.equal_iff_compare?
    case double.double x y =>
      simp only [looseEqual, equal]
      exact Double.equal_iff_compare?
    all_goals contradiction

section Operators

/-- What is compared with a number is a number. -/
theorem isNumber_eq_of_compare? {o : Ordering} (h : u.compare? v = some o) :
    Operator.isNumber u = Operator.isNumber v := by
  cases u <;> cases v
  case bool.bool | int.int | int.double | double.int | double.double | string.string => rfl
  all_goals cases h

theorem less_accepts_iff : Operator.less.accepts (some u) v = true ↔
    Operator.isNumber u = true ∧ u.compare? v = some .lt := by
  rw [Operator.accepts, Operator.acceptsValue.eq_def, Bool.and_eq_true, beq_iff_eq]

theorem more_accepts_iff : Operator.more.accepts (some u) v = true ↔
    Operator.isNumber u = true ∧ u.compare? v = some .gt := by
  rw [Operator.accepts, Operator.acceptsValue.eq_def, Bool.and_eq_true, beq_iff_eq]

/-- One number is less than another exactly if the other is more. -/
theorem less_iff_more (u v : Value) : Operator.less.accepts (some u) v = true ↔
    Operator.more.accepts (some v) u = true := by
  have hswap : v.compare? u = some .gt ↔ u.compare? v = some .lt := by
    rw [compare?_swap u v]
    cases u.compare? v with
    | none => simp
    | some o => cases o <;> simp
  rw [less_accepts_iff, more_accepts_iff, hswap, and_congr_left_iff]
  intro h
  rw [isNumber_eq_of_compare? h]

theorem not_less_and_more (u v : Value) : ¬ (Operator.less.accepts (some u) v = true
    ∧ Operator.more.accepts (some u) v = true) := by
  rw [less_accepts_iff, more_accepts_iff]
  rintro ⟨⟨-, hless⟩, -, hmore⟩
  cases hless.symm.trans hmore

end Operators

/-- Comparison the other way round gives the reverse, and it carries over along chains of values,
also of integers and doubles in any mixture. Equality is the same from both sides, and of two
numbers, strings or booleans it says that comparison finds no difference. So one value passes for
less than another exactly if the other passes for more, and none for both. -/
theorem comparison_is_strict_order :
    (∀ u v : Value, v.compare? u = (u.compare? v).map Ordering.swap)
      ∧ (∀ u v w : Value, u.compare? v = some .lt → v.compare? w = some .lt →
        u.compare? w = some .lt)
      ∧ (∀ u v : Value, v.looseEqual u = u.looseEqual v)
      ∧ (∀ u v : Value, u.OfOneKind v → (u.looseEqual v = true ↔ u.compare? v = some .eq))
      ∧ ∀ u v : Value, (Operator.less.accepts (some u) v = true ↔
          Operator.more.accepts (some v) u = true)
        ∧ ¬ (Operator.less.accepts (some u) v = true
          ∧ Operator.more.accepts (some u) v = true) :=
  ⟨compare?_swap, fun _ _ _ => compare?_trans, looseEqual_comm, fun _ _ => OfOneKind.looseEqual_iff,
    fun u v => ⟨less_iff_more u v, not_less_and_more u v⟩⟩

/-- The integer before 2^53 is less than the double 2^53, and that is less than the second integer
after it. The integer 2^53 passes for equal to the double. -/
theorem order_carries_over_2_pow_53 :
    let u : Value := .int 9007199254740991
    let v : Value := .double (.ofMagnitude false 0x4340000000000000)
    let w : Value := .int 9007199254740994
    let e : Value := .int 9007199254740992
    (u.compare? v = some .lt ∧ v.compare? w = some .lt) ∧ e.OfOneKind v
      ∧ u.compare? w = some .lt ∧ w.compare? v = some .gt ∧ e.looseEqual v = true
      ∧ Operator.more.accepts (some v) u = true := by
  intro u v w e
  have huv : u.compare? v = some .lt := by decide +kernel
  have hvw : v.compare? w = some .lt := by decide +kernel
  have hev : e.OfOneKind v := .numbers rfl rfl
  have heq : e.compare? v = some .eq := by decide +kernel
  have hless : Operator.less.accepts (some u) v = true := by decide +kernel
  obtain ⟨hswap, htrans, -, hequal, htests⟩ := comparison_is_strict_order
  exact ⟨⟨huv, hvw⟩, hev, htrans u v w huv hvw, by rw [hswap v w, hvw]; rfl,
    (hequal e v hev).mpr heq, (htests u v).1.mp hless⟩

end Value

end PropertyGraph
