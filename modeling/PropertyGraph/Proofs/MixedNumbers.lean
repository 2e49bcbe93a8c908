import PropertyGraph.Filter.Operator
import PropertyGraph.Proofs.ExactValue

namespace PropertyGraph

theorem Double.equal_comm (x y : Double) : y.equal x = x.equal y := by
  rw [equal, equal, Bool.and_comm (!y.isNaN), Bool.beq_comm]

namespace Value

variable {u v w : Value} {i j : Int64} {x y : Double}

/-- What an integer counts as beside a double. -/
def rounded (i : Int64) : ℚ := (Double.ofInt i.toInt).value

/-- An integer, or a finite double. -/
inductive IsNumber : Value → Prop
  | int (i : Int64) : IsNumber (.int i)
  | double {x : Double} (h : x.isFinite = true) : IsNumber (.double x)

section Rounding

theorem natAbs_toInt_lt (i : Int64) : i.toInt.natAbs < 2 ^ 64 := by
  have hlow := i.le_toInt
  have hhigh := i.toInt_lt
  omega

theorem isFinite_rounded (i : Int64) : (Double.ofInt i.toInt).isFinite = true :=
  Double.isFinite_ofInt (natAbs_toInt_lt i)

theorem abs_rounded_sub_le (i : Int64) (x : Double) :
    |rounded i - i.toInt| ≤ |x.value - i.toInt| :=
  Double.abs_ofInt_sub_le (natAbs_toInt_lt i) x

theorem rounded_eq (h : i.toInt.natAbs ≤ 2 ^ 53) : rounded i = i.toInt := Double.value_ofInt h

/-- Rounding takes no integer beyond a double. -/
theorem rounded_le_of_lt (h : (i.toInt : ℚ) < x.value) : rounded i ≤ x.value := by
  by_contra hlt
  have hnear := abs_rounded_sub_le i x
  rw [abs_of_pos (by linarith), abs_of_pos (by linarith)] at hnear
  linarith

theorem le_rounded_of_lt (h : x.value < (i.toInt : ℚ)) : x.value ≤ rounded i := by
  by_contra hlt
  have hnear := abs_rounded_sub_le i x
  rw [abs_of_neg (by linarith), abs_of_neg (by linarith)] at hnear
  linarith

/-- An integer that is not rounded to the double stays on the same side of it. -/
theorem compare_rounded (i : Int64) (x : Double) : compare (rounded i) x.value =
    if x.value = rounded i then .eq else compare (i.toInt : ℚ) x.value := by
  split
  · next h => exact compare_eq_iff_eq.mpr h.symm
  · next hne =>
    rcases lt_trichotomy (i.toInt : ℚ) x.value with h | h | h
    · have hlt := lt_of_le_of_ne (rounded_le_of_lt h) (Ne.symm hne)
      rw [compare_lt_iff_lt.mpr h, compare_lt_iff_lt.mpr hlt]
    · have hnear := abs_rounded_sub_le i x
      rw [← h, sub_self, abs_zero, abs_nonpos_iff, sub_eq_zero] at hnear
      exact absurd (hnear.trans h).symm hne
    · have hlt := lt_of_le_of_ne (le_rounded_of_lt h) hne
      rw [compare_gt_iff_gt.mpr h, compare_gt_iff_gt.mpr hlt]

end Rounding

section Symmetry

mutual

/-- Equality does not depend on the side, whatever the values hold. -/
theorem equal_comm : ∀ u v : Value, v.equal u = u.equal v
  | null, v => by cases v <;> rfl
  | bool a, v => by
    cases v with
    | bool b => exact Bool.beq_comm
    | _ => rfl
  | int i, v => by
    cases v with
    | int j => exact Bool.beq_comm
    | _ => rfl
  | double x, v => by
    cases v with
    | double y => exact Double.equal_comm x y
    | _ => rfl
  | string s, v => by
    cases v with
    | string t => exact Bool.beq_comm
    | _ => rfl
  | list as, v => by
    cases v with
    | list bs => exact equalItems_comm as bs
    | _ => rfl
  | map as, v => by
    cases v with
    | map bs => exact equalEntries_comm as bs
    | _ => rfl

theorem equalItems_comm : ∀ as bs : List Value, equalItems bs as = equalItems as bs
  | [], [] => rfl
  | [], _ :: _ => rfl
  | _ :: _, [] => rfl
  | a :: as, b :: bs => by rw [equalItems, equalItems, equal_comm a b, equalItems_comm as bs]

theorem equalEntries_comm : ∀ as bs : Properties, equalEntries bs as = equalEntries as bs
  | [], [] => rfl
  | [], _ :: _ => rfl
  | _ :: _, [] => rfl
  | (k, a) :: as, (l, b) :: bs => by
    rw [equalEntries, equalEntries, Bool.beq_comm, equal_comm a b, equalEntries_comm as bs]

end

theorem looseEqual_comm (u v : Value) : v.looseEqual u = u.looseEqual v := by
  cases u <;> cases v
  case int.double | double.int => rfl
  all_goals exact equal_comm _ _

end Symmetry

section Pairs

theorem compare_map {α β : Type} [LinearOrder α] [LinearOrder β] {f : α → β} (hf : StrictMono f)
    (a b : α) : compare (f a) (f b) = compare a b := by
  rw [← cmp_eq_compare, ← cmp_eq_compare, hf.cmp_map_eq]

theorem compare_swap {α : Type} [LinearOrder α] (a b : α) : compare b a = (compare a b).swap := by
  rw [← cmp_eq_compare, ← cmp_eq_compare, cmp_swap]

theorem compare?_int_int : (int i).compare? (int j) = some (compare (i.toInt : ℚ) j.toInt) :=
  congrArg some (compare_map Int.cast_strictMono i.toInt j.toInt).symm

theorem compare?_int_double (hx : x.isFinite = true) :
    (int i).compare? (double x) = some (compare (rounded i) x.value) :=
  Double.compare?_eq (isFinite_rounded i) hx

theorem compare?_double_int (hx : x.isFinite = true) :
    (double x).compare? (int i) = some (compare x.value (rounded i)) :=
  Double.compare?_eq hx (isFinite_rounded i)

theorem looseEqual_int_int : (int i).looseEqual (int j) = true ↔ i = j := by
  simp [looseEqual, equal]

theorem looseEqual_int_double (hx : x.isFinite = true) :
    (int i).looseEqual (double x) = true ↔ rounded i = x.value :=
  Double.equal_iff (isFinite_rounded i) hx

theorem looseEqual_double_int (hx : x.isFinite = true) :
    (double x).looseEqual (int i) = true ↔ rounded i = x.value :=
  Double.equal_iff (isFinite_rounded i) hx

theorem looseEqual_double_double (hx : x.isFinite = true) (hy : y.isFinite = true) :
    (double x).looseEqual (double y) = true ↔ x.value = y.value := by
  simp only [looseEqual, equal]
  exact Double.equal_iff hx hy

theorem compare?_double_double (hx : x.isFinite = true) (hy : y.isFinite = true) :
    (double x).compare? (double y) = some (compare x.value y.value) := Double.compare?_eq hx hy

/-- Two numbers are ordered as some two exact values, in whatever order they come, and pass for
equal if these are. -/
theorem exists_compared (hu : u.IsNumber) (hv : v.IsNumber) : ∃ p q : ℚ,
    u.compare? v = some (compare p q) ∧ v.compare? u = some (compare q p)
      ∧ (u.looseEqual v = true ↔ p = q) ∧ (v.looseEqual u = true ↔ p = q) := by
  cases hu with
  | int i =>
    cases hv with
    | int j =>
      have hcast : (i.toInt : ℚ) = j.toInt ↔ i = j := by rw [Int.cast_inj, Int64.toInt_inj]
      exact ⟨i.toInt, j.toInt, compare?_int_int, compare?_int_int,
        looseEqual_int_int.trans hcast.symm, looseEqual_int_int.trans (eq_comm.trans hcast.symm)⟩
    | @double x hx =>
      exact ⟨rounded i, x.value, compare?_int_double hx, compare?_double_int hx,
        looseEqual_int_double hx, looseEqual_double_int hx⟩
  | @double x hx =>
    cases hv with
    | int j =>
      exact ⟨x.value, rounded j, compare?_double_int hx, compare?_int_double hx,
        (looseEqual_double_int hx).trans eq_comm, (looseEqual_int_double hx).trans eq_comm⟩
    | @double y hy =>
      exact ⟨x.value, y.value, compare?_double_double hx hy, compare?_double_double hy hx,
        looseEqual_double_double hx hy, (looseEqual_double_double hy hx).trans eq_comm⟩

end Pairs

/-- What the tests of two numbers say if the first is less than, equal to or more than the other. -/
structure Tested (u v : Value) (o : Ordering) : Prop where
  compared : u.compare? v = some o
  less : Operator.less.acceptsValue u v = true ↔ o = .lt
  more : Operator.more.acceptsValue u v = true ↔ o = .gt
  test : Operator.test.acceptsValue u v = true ↔ o = .eq

theorem tested_of_compare? (hu : u.IsNumber) {o : Ordering} (h : u.compare? v = some o)
    (he : u.looseEqual v = true ↔ o = .eq) : u.Tested v o := by
  have hu : Operator.isNumber u = true := by cases hu <;> rfl
  refine ⟨h, ?_, ?_, he⟩
  all_goals
    unfold Operator.acceptsValue
    simp only [hu, h, Bool.true_and, beq_iff_eq, Option.some.injEq]

/-- No two tests of the same numbers contradict each other. -/
theorem exists_tested (hu : u.IsNumber) (hv : v.IsNumber) :
    ∃ o, u.Tested v o ∧ v.Tested u o.swap := by
  obtain ⟨p, q, hcompare, hexchanged, hequal, hequal'⟩ := exists_compared hu hv
  refine ⟨compare p q, tested_of_compare? hu hcompare ?_, ?_⟩
  · rw [hequal, compare_eq_iff_eq]
  · rw [← compare_swap]
    refine tested_of_compare? hv hexchanged ?_
    rw [hequal', compare_eq_iff_eq, eq_comm]

/-- A list contains a value that is in it. -/
theorem contains_eq_isIn (u : Value) (items : List Value) :
    Operator.contains.acceptsValue (.list items) u =
      Operator.isIn.acceptsValue u (.list items) := by
  have hcomm : (fun i : Value => i.looseEqual u) = u.looseEqual := funext (looseEqual_comm u)
  rw [Operator.acceptsValue, Operator.acceptsValue, hcomm]

/-- Equality carries over, except from one integer to another that is rounded to the same number. -/
theorem looseEqual_trans (hu : u.IsNumber) (hv : v.IsNumber) (hw : w.IsNumber)
    (huv : u.looseEqual v = true) (hvw : v.looseEqual w = true) :
    u.looseEqual w = true ∨ ∃ i j x, u = .int i ∧ v = .double x ∧ w = .int j ∧ i ≠ j
      ∧ rounded i = x.value ∧ rounded j = x.value := by
  cases hv with
  | int j =>
    cases hu with
    | int i =>
      obtain rfl := looseEqual_int_int.mp huv
      exact .inl hvw
    | double hx =>
      cases hw with
      | int k =>
        obtain rfl := looseEqual_int_int.mp hvw
        exact .inl huv
      | double hy =>
        have hjx := (looseEqual_double_int hx).mp huv
        have hjy := (looseEqual_int_double hy).mp hvw
        exact .inl ((looseEqual_double_double hx hy).mpr (hjx.symm.trans hjy))
  | @double y hy =>
    cases hu with
    | int i =>
      have hiy := (looseEqual_int_double hy).mp huv
      cases hw with
      | int k =>
        have hky := (looseEqual_double_int hy).mp hvw
        by_cases hik : i = k
        · exact .inl (looseEqual_int_int.mpr hik)
        · exact .inr ⟨i, k, y, rfl, rfl, rfl, hik, hiy, hky⟩
      | double hz =>
        have hyz := (looseEqual_double_double hy hz).mp hvw
        exact .inl ((looseEqual_int_double hz).mpr (hiy.trans hyz))
    | double hx =>
      have hxy := (looseEqual_double_double hx hy).mp huv
      cases hw with
      | int k =>
        have hky := (looseEqual_double_int hy).mp hvw
        exact .inl ((looseEqual_double_int hx).mpr (hky.trans hxy.symm))
      | double hz =>
        have hyz := (looseEqual_double_double hy hz).mp hvw
        exact .inl ((looseEqual_double_double hx hz).mpr (hxy.trans hyz))

/-- How an integer compares with a double: as what it is rounded to. No double is nearer to the
integer than that, and up to 2^53 it is the integer itself. -/
structure ComparedRounded (i : Int64) (x : Double) : Prop where
  nearest : |rounded i - i.toInt| ≤ |x.value - i.toInt|
  unrounded : i.toInt.natAbs ≤ 2 ^ 53 → rounded i = i.toInt
  order : (int i).compare? (double x) =
    some (if x.value = rounded i then .eq else compare (i.toInt : ℚ) x.value)
  exchanged : (double x).compare? (int i) =
    some (if x.value = rounded i then .eq else compare x.value i.toInt)
  equal : (int i).looseEqual (double x) = true ↔ x.value = rounded i
  equal_exchanged : (double x).looseEqual (int i) = true ↔ x.value = rounded i

theorem comparedRounded (i : Int64) (hx : x.isFinite = true) : ComparedRounded i x where
  nearest := abs_rounded_sub_le i x
  unrounded := rounded_eq
  order := by rw [compare?_int_double hx, compare_rounded]
  exchanged := by
    rw [compare?_double_int hx, compare_swap (rounded i), compare_rounded,
      compare_swap (i.toInt : ℚ)]
    split <;> rfl
  equal := (looseEqual_int_double hx).trans eq_comm
  equal_exchanged := (looseEqual_double_int hx).trans eq_comm

/-- An integer and a double are ordered as their exact values are, unless the double is what the
integer is rounded to: then they pass for equal. So equality carries over from number to number, but
for two integers that are rounded to one double. Of two numbers one is less, both are equal or one
is more, and every test says so. -/
theorem mixed_tests_round_integers :
    (∀ (i : Int64) (x : Double), x.isFinite = true → ComparedRounded i x)
      ∧ (∀ u v w : Value, u.IsNumber → v.IsNumber → w.IsNumber →
        u.looseEqual v = true → v.looseEqual w = true →
          u.looseEqual w = true ∨ ∃ i j x, u = .int i ∧ v = .double x ∧ w = .int j ∧ i ≠ j
            ∧ rounded i = x.value ∧ rounded j = x.value)
      ∧ (∀ u v : Value, u.IsNumber → v.IsNumber → ∃ o, u.Tested v o ∧ v.Tested u o.swap)
      ∧ ∀ u : Value, u.IsNumber → ∀ items : List Value,
        (Operator.isIn.acceptsValue u (.list items) = true ↔
            ∃ v ∈ items, Operator.test.acceptsValue u v = true)
          ∧ Operator.contains.acceptsValue (.list items) u =
            Operator.isIn.acceptsValue u (.list items) :=
  ⟨fun i _ hx => comparedRounded i hx, fun _ _ _ hu hv hw => looseEqual_trans hu hv hw,
    fun _ _ hu hv => exists_tested hu hv,
    fun u _ items => ⟨List.any_eq_true, contains_eq_isIn u items⟩⟩

section Example

/-- The double 2^53. The integer after it is rounded to it. -/
def twoTo53 : Double := .ofMagnitude false 0x4340000000000000

theorem value_twoTo53 : twoTo53.value = (9007199254740992 : Int) :=
  (Double.whole?_eq_some_iff.mp (by decide +kernel)).2

/-- Both integers are rounded to the double, so both pass for equal to it. -/
theorem twoTo53_joins_two_integers :
    let u : Value := .int 9007199254740993
    let v : Value := .double twoTo53
    let w : Value := .int 9007199254740992
    (u.IsNumber ∧ v.IsNumber ∧ w.IsNumber) ∧ ComparedRounded 9007199254740993 twoTo53
      ∧ (u.looseEqual v = true ∧ v.looseEqual w = true)
      ∧ (∃ i j x, u = .int i ∧ v = .double x ∧ w = .int j ∧ i ≠ j
        ∧ rounded i = x.value ∧ rounded j = x.value)
      ∧ (∃ o, u.Tested v o ∧ v.Tested u o.swap)
      ∧ Operator.contains.acceptsValue (.list [w, v]) u = true := by
  intro u v w
  have hfinite : twoTo53.isFinite = true := by decide
  have hu : u.IsNumber := .int _
  have hv : v.IsNumber := .double hfinite
  have hw : w.IsNumber := .int _
  have huv : u.looseEqual v = true := by decide +kernel
  have hvw : v.looseEqual w = true := by decide +kernel
  have huw : u.looseEqual w ≠ true := by decide +kernel
  obtain ⟨hcompared, htransitive, htested, hlists⟩ := mixed_tests_round_integers
  obtain ⟨hisIn, hcontains⟩ := hlists u hu [w, v]
  exact ⟨⟨hu, hv, hw⟩, hcompared _ _ hfinite, ⟨huv, hvw⟩,
    (htransitive u v w hu hv hw huv hvw).resolve_left huw, htested u v hu hv,
    hcontains.trans (hisIn.mpr ⟨v, by simp, huv⟩)⟩

/-- The integer after 2^53 passes for equal to 2^53 as a double, which passes for equal to 2^53, but
the integers differ. -/
theorem next_integer_passes_for_equal :
    let a : Int64 := 9007199254740993
    twoTo53.isFinite = true ∧ compare (a.toInt : ℚ) twoTo53.value = .gt
      ∧ (int a).compare? (double twoTo53) = some .eq
      ∧ (double twoTo53).compare? (int a) = some .eq
      ∧ (int a).looseEqual (double twoTo53) = true
      ∧ (double twoTo53).looseEqual (int 9007199254740992) = true
      ∧ (int a).looseEqual (int 9007199254740992) = false := by
  intro a
  have hmore : compare (a.toInt : ℚ) twoTo53.value = .gt := by
    rw [value_twoTo53, compare_gt_iff_gt]
    exact_mod_cast (by decide : (9007199254740992 : Int) < a.toInt)
  exact ⟨by decide, hmore, by decide +kernel, by decide +kernel, by decide +kernel,
    by decide +kernel, by decide +kernel⟩

end Example

end Value

end PropertyGraph
