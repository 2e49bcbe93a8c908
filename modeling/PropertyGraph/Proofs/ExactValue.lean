import Mathlib.Algebra.Order.Field.Basic
import Mathlib.Order.Monotone.Basic
import Mathlib.Tactic.Linarith
import PropertyGraph.Proofs.Decimal
import PropertyGraph.Value.Basic

namespace PropertyGraph

namespace Double

variable {m n num den : Nat} {x y : Double}

section Steps

/-- A shift in front of up to 53 bits says how far the bits are shifted. The bits may also carry
over into the next shift. -/
theorem steps_shifted {shift bits : Nat} (hbits : bits ≤ 2 * binade)
    (hshift : shift = 0 ∨ binade ≤ bits) : steps (shift * binade + bits) = bits * 2 ^ shift := by
  have hb := binade_pos
  rcases Nat.lt_or_ge bits binade with hlow | hhigh
  · obtain rfl : shift = 0 := by omega
    rw [Nat.zero_mul, Nat.zero_add, steps_of_lt hlow, Nat.pow_zero, Nat.mul_one]
  · obtain ⟨f, rfl⟩ := Nat.exists_eq_add_of_le hhigh
    have hsum : shift * binade + (binade + f) = f + binade * (shift + 1) := by ring
    rw [steps_of_le (hhigh.trans (Nat.le_add_left _ _)), hsum, Nat.add_mul_mod_self_left,
      Nat.add_mul_div_left _ _ hb]
    rcases Nat.lt_or_ge f binade with hf | hf
    · rw [Nat.mod_eq_of_lt hf, Nat.div_eq_of_lt hf, Nat.zero_add, Nat.add_sub_cancel]
    · obtain rfl : f = binade := by omega
      rw [Nat.mod_self, Nat.div_self hb, Nat.add_comm 1, Nat.add_sub_cancel, Nat.pow_succ]
      ring

theorem exists_shifted (m : Nat) : ∃ shift bits, m = shift * binade + bits ∧ bits < 2 * binade
    ∧ (shift = 0 ∨ binade ≤ bits) := by
  have hb := binade_pos
  rcases Nat.lt_or_ge m binade with hlow | hhigh
  · exact ⟨0, m, by omega, by omega, .inl rfl⟩
  · have hpos := Nat.div_pos hhigh hb
    have hmod := Nat.mod_lt m hb
    have hsum := Nat.div_add_mod' m binade
    obtain ⟨shift, hshift⟩ := Nat.exists_eq_succ_of_ne_zero hpos.ne'
    refine ⟨shift, binade + m % binade, ?_, by omega, .inr (Nat.le_add_right _ _)⟩
    rw [hshift, Nat.succ_mul] at hsum
    omega

theorem strictMono_steps : StrictMono steps := by
  refine strictMono_nat_of_lt_succ (fun m => ?_)
  obtain ⟨shift, bits, rfl, hbits, hshift⟩ := exists_shifted m
  rw [Nat.add_assoc, steps_shifted hbits.le hshift, steps_shifted hbits (by omega)]
  exact Nat.mul_lt_mul_of_pos_right (Nat.lt_succ_self bits) (Nat.two_pow_pos shift)

end Steps

section Value

/-- The exact value of a finite number. -/
def value (x : Double) : ℚ :=
  if x.negative then -(steps x.magnitude / unit : ℚ) else steps x.magnitude / unit

/-- The steps to the number with a key, counted down from zero if it is negative. -/
def signedSteps (key : Int) : Int :=
  if key < 0 then -(steps key.natAbs : Int) else steps key.natAbs

theorem steps_zero : steps 0 = 0 := steps_of_lt binade_pos

theorem signedSteps_lt {a b : Int} (hab : a < b) : signedSteps a < signedSteps b := by
  have hpos : ∀ k : Int, k ≠ 0 → 0 < steps k.natAbs := fun k hk => by
    have := strictMono_steps (show 0 < k.natAbs by omega)
    rwa [steps_zero] at this
  unfold signedSteps
  split
  · next ha =>
    have hsteps := hpos a (by omega)
    split
    · next hb =>
      have := strictMono_steps (show b.natAbs < a.natAbs by omega)
      omega
    · omega
  · next ha =>
    rw [if_neg (by omega)]
    exact_mod_cast strictMono_steps (show a.natAbs < b.natAbs by omega)

theorem unit_pos_rat : (0 : ℚ) < unit := by exact_mod_cast unit_pos

theorem signedSteps_key (x : Double) : signedSteps x.key =
    if x.negative then -(steps x.magnitude : Int) else steps x.magnitude := by
  unfold key signedSteps
  cases x.negative with
  | false =>
    have hle : ¬ (x.magnitude : Int) < 0 := by omega
    simp [hle]
  | true =>
    rcases Nat.eq_zero_or_pos x.magnitude with hz | hp
    · simp [hz, steps_zero]
    · simp [hp]

theorem value_eq_signedSteps (x : Double) : x.value = signedSteps x.key / unit := by
  rw [signedSteps_key, value]
  split
  · rw [Int.cast_neg, Int.cast_natCast, neg_div]
  · rw [Int.cast_natCast]

theorem value_lt_value (h : x.key < y.key) : x.value < y.value := by
  rw [value_eq_signedSteps, value_eq_signedSteps]
  exact div_lt_div_of_pos_right (by exact_mod_cast signedSteps_lt h) unit_pos_rat

theorem compare_key (x y : Double) : compare x.key y.key = compare x.value y.value := by
  rcases lt_trichotomy x.key y.key with h | h | h
  · rw [compare_lt_iff_lt.mpr h, compare_lt_iff_lt.mpr (value_lt_value h)]
  · rw [value_eq_signedSteps, value_eq_signedSteps, h, compare_eq_iff_eq.mpr rfl,
      compare_eq_iff_eq.mpr rfl]
  · rw [compare_gt_iff_gt.mpr h, compare_gt_iff_gt.mpr (value_lt_value h)]

theorem value_eq_iff : x.value = y.value ↔ x.key = y.key := by
  rw [← compare_eq_iff_eq, ← compare_key, compare_eq_iff_eq]

theorem isNaN_of_isFinite (hx : x.isFinite = true) : x.isNaN = false := by
  rw [isFinite, decide_eq_true_eq] at hx
  exact decide_eq_false hx.not_gt

/-- Finite numbers are ordered by their exact values. -/
theorem compare?_eq (hx : x.isFinite = true) (hy : y.isFinite = true) :
    x.compare? y = some (compare x.value y.value) := by
  rw [compare?, isNaN_of_isFinite hx, isNaN_of_isFinite hy, compare_key]
  rfl

theorem equal_iff (hx : x.isFinite = true) (hy : y.isFinite = true) :
    x.equal y = true ↔ x.value = y.value := by
  rw [equal, isNaN_of_isFinite hx, isNaN_of_isFinite hy, value_eq_iff]
  simp

theorem abs_value (x : Double) : |x.value| = steps x.magnitude / unit := by
  have hpos : (0 : ℚ) ≤ steps x.magnitude / unit := by positivity
  unfold value
  split
  · rw [abs_neg, abs_of_nonneg hpos]
  · exact abs_of_nonneg hpos

theorem steps_of_value {i : Int} (h : x.value = i) : steps x.magnitude = i.natAbs * unit := by
  have habs := abs_value x
  rw [h, eq_div_iff unit_pos_rat.ne', ← Int.cast_abs, ← Int.natCast_natAbs] at habs
  exact_mod_cast habs.symm

theorem exists_whole?_eq (hx : x.isFinite = true) (h : steps x.magnitude = n * unit) :
    ∃ i, x.whole? = some i ∧ x.value = i := by
  have hdiv : steps x.magnitude / unit = n := by rw [h, Nat.mul_div_cancel n unit_pos]
  have hmod : steps x.magnitude % unit = 0 := by rw [h, Nat.mul_mod_left]
  have hn : (steps x.magnitude : ℚ) / unit = n := by
    rw [h, Nat.cast_mul, mul_div_cancel_right₀ _ unit_pos_rat.ne']
  refine ⟨if x.negative then -n else n, ?_, ?_⟩
  · simp [whole?, hx, hmod, hdiv]
  · rw [value, hn]
    split <;> simp

/-- The whole number that a number is read as is its exact value. -/
theorem whole?_eq_some_iff {i : Int} : x.whole? = some i ↔ x.isFinite = true ∧ x.value = i := by
  constructor
  · intro h
    have hwhole := h
    unfold whole? at h
    split at h
    · next hc =>
      simp only [Bool.and_eq_true, beq_iff_eq] at hc
      obtain ⟨k, hk, hvalue⟩ :=
        exists_whole?_eq hc.1 (Nat.div_mul_cancel (Nat.dvd_of_mod_eq_zero hc.2)).symm
      obtain rfl : k = i := Option.some.inj (hk.symm.trans hwhole)
      exact ⟨hc.1, hvalue⟩
    · cases h
  · rintro ⟨hx, hi⟩
    obtain ⟨k, hk, hvalue⟩ := exists_whole?_eq hx (steps_of_value hi)
    obtain rfl : k = i := Int.cast_injective (hvalue.symm.trans hi)
    exact hk

end Value

section Rounding

/-- No multiple of the divisor is nearer than the one that a quotient is rounded to. -/
theorem roundEven_nearest (num : Nat) (hd : 0 < den) (k : Nat) :
    ((roundEven num den * den : Nat) - num : Int).natAbs ≤
      ((k * den : Nat) - num : Int).natAbs := by
  have hsum := Nat.div_add_mod' num den
  have hmod := Nat.mod_lt num hd
  have hside : k * den ≤ num / den * den ∨ num / den * den + den ≤ k * den := by
    rcases Nat.lt_or_ge (num / den) k with h | h
    · exact .inr (Nat.succ_mul _ den ▸ Nat.mul_le_mul_right den h)
    · exact .inl (Nat.mul_le_mul_right den h)
  rcases roundEven_cases num den with ⟨hround, hhalf⟩ | ⟨hround, hhalf⟩
  · rw [hround]
    omega
  · rw [hround, Nat.succ_mul]
    omega

/-- The steps to what a quotient is rounded to, even if the rounding carries over. -/
theorem steps_nearest (h : nearest num den < infinite) : steps (nearest num den) =
    roundEven (num * unit) (den * 2 ^ droppedBits num den) * 2 ^ droppedBits num den := by
  obtain ⟨hbits, hshift⟩ := roundEven_keptBits num den
  rw [nearest_eq] at h ⊢
  rw [Nat.min_eq_left (by omega)]
  exact steps_shifted hbits hshift

theorem steps_nearest_one (hn : n < 2 ^ 64) :
    steps (nearest n 1) = roundEven (n * unit) (2 ^ droppedBits n 1) * 2 ^ droppedBits n 1 := by
  have hfinite : nearest n 1 < infinite :=
    (nearest_le (j := 64) (by omega)).trans_lt (Nat.mul_lt_mul_of_pos_right (by decide) binade_pos)
  rw [steps_nearest hfinite, Nat.one_mul]

theorem keptBits_one (n : Nat) :
    droppedBits n 1 = 0 ∨ binade * 2 ^ droppedBits n 1 ≤ n * unit := by
  have hkept := (keptBits n 1).2
  rwa [Nat.div_one] at hkept

/-- No magnitude is nearer to a whole number than the one that it is rounded to. -/
theorem nearest_is_nearest (hn : n < 2 ^ 64) (m : Nat) :
    ((steps (nearest n 1) : Int) - (n * unit : Nat)).natAbs ≤
      ((steps m : Int) - (n * unit : Nat)).natAbs := by
  have hkept := keptBits_one n
  obtain ⟨shift, bits, rfl, hbits, hshift⟩ := exists_shifted m
  rw [steps_nearest_one hn, steps_shifted hbits.le hshift]
  generalize n * unit = whole at hkept ⊢
  generalize droppedBits n 1 = dropped at hkept ⊢
  have hnear := roundEven_nearest whole (Nat.two_pow_pos dropped)
  rcases Nat.lt_or_ge shift dropped with hlt | hle
  · -- The magnitude is below all that keep their 53 bits, and the whole number is above.
    have hwhole := hkept.resolve_left (by omega)
    have hbelow : bits * 2 ^ shift ≤ binade * 2 ^ dropped := by
      obtain ⟨d, rfl⟩ := Nat.exists_eq_add_of_lt hlt
      calc bits * 2 ^ shift
          ≤ 2 * binade * 2 ^ d * 2 ^ shift := Nat.mul_le_mul_right _
            (hbits.le.trans (Nat.le_mul_of_pos_right _ (Nat.two_pow_pos d)))
        _ = binade * 2 ^ (shift + d + 1) := by ring
    have hfirst := hnear binade
    generalize roundEven whole (2 ^ dropped) * 2 ^ dropped = rounded at hfirst ⊢
    generalize binade * 2 ^ dropped = least at hfirst hwhole hbelow
    generalize bits * 2 ^ shift = other at hbelow ⊢
    omega
  · obtain ⟨d, rfl⟩ := Nat.exists_eq_add_of_le hle
    rw [Nat.add_comm dropped, Nat.pow_add, ← Nat.mul_assoc]
    exact hnear (bits * 2 ^ d)

theorem exists_unit_eq : ∃ k, unit = 2 ^ k := by
  generalize hk : 1074 = k
  exact ⟨k, unit_eq hk.symm⟩

/-- Whole numbers of up to 53 bits, and the next one, end in zeros where bits are dropped. -/
theorem two_pow_droppedBits_dvd (hn : n ≤ 2 ^ 53) : 2 ^ droppedBits n 1 ∣ n * unit := by
  rcases keptBits_one n with hz | hkept
  · exact hz ▸ Nat.one_dvd _
  · obtain ⟨k, hk⟩ := exists_unit_eq
    rw [hk, binade_eq, ← Nat.pow_add] at hkept
    rw [hk]
    rcases Nat.lt_or_eq_of_le hn with hlt | rfl
    · -- Only bits that count for less than one are dropped.
      have hpow : 2 ^ (52 + droppedBits n 1) < 2 ^ (53 + k) :=
        hkept.trans_lt (Nat.pow_add 2 53 k ▸ Nat.mul_lt_mul_of_pos_right hlt (Nat.two_pow_pos k))
      have hle := (Nat.pow_lt_pow_iff_right (by decide)).mp hpow
      exact (Nat.pow_dvd_pow 2 (by omega)).mul_left n
    · rw [← Nat.pow_add] at hkept ⊢
      have hle := (Nat.pow_le_pow_iff_right (by decide)).mp hkept
      exact Nat.pow_dvd_pow 2 (by omega)

theorem steps_nearest_of_le (hn : n ≤ 2 ^ 53) : steps (nearest n 1) = n * unit := by
  obtain ⟨k, hk⟩ := two_pow_droppedBits_dvd hn
  have hround : roundEven (n * unit) (2 ^ droppedBits n 1) = k := by
    have := roundEven_mul k 1 (Nat.two_pow_pos (droppedBits n 1))
    rwa [Nat.one_mul, roundEven_one, Nat.mul_comm k, ← hk] at this
  rw [steps_nearest_one (by omega), hround, hk, Nat.mul_comm]

end Rounding

section OfInt

variable {i : Int}

theorem magnitude_ofInt (hi : i.natAbs < 2 ^ 64) : (ofInt i).magnitude = nearest i.natAbs 1 := by
  have hfinite := isFinite_ofInt hi
  rw [isFinite, decide_eq_true_eq] at hfinite
  have hmin : (ofInt i).magnitude = min (nearest i.natAbs 1) infinite := rfl
  omega

/-- The rounding moves an integer by as much as it moves its absolute value. -/
theorem abs_ofInt_sub (hi : i.natAbs < 2 ^ 64) : |(ofInt i).value - i| =
    |(steps (nearest i.natAbs 1) / unit - |(i : ℚ)|)| := by
  have hnegative : (ofInt i).negative = decide (i < 0) := rfl
  rw [value, magnitude_ofInt hi, hnegative]
  rcases lt_or_ge i 0 with h | h
  · have habs : |(i : ℚ)| = -i := abs_of_neg (by exact_mod_cast h)
    rw [if_pos (by simpa using h), habs, ← abs_neg]
    congr 1
    ring
  · have habs : |(i : ℚ)| = i := abs_of_nonneg (by exact_mod_cast h)
    rw [if_neg (by simpa using h), habs]

/-- An integer is rounded to a number than which no other is nearer. -/
theorem abs_ofInt_sub_le (hi : i.natAbs < 2 ^ 64) (x : Double) :
    |(ofInt i).value - i| ≤ |x.value - i| := by
  have hscaled : ∀ m, |(steps m / unit - |(i : ℚ)|)| =
      ((steps m : Int) - (i.natAbs * unit : Nat)).natAbs / unit := by
    intro m
    rw [Nat.cast_natAbs, Int.cast_abs, Int.cast_sub, Int.cast_natCast, Int.cast_natCast,
      Nat.cast_mul i.natAbs unit, Nat.cast_natAbs, Int.cast_abs, ← abs_of_pos unit_pos_rat,
      ← abs_div, abs_of_pos unit_pos_rat, sub_div, mul_div_cancel_right₀ _ unit_pos_rat.ne']
  calc |(ofInt i).value - i|
      = |(steps (nearest i.natAbs 1) / unit - |(i : ℚ)|)| := abs_ofInt_sub hi
    _ ≤ |(steps x.magnitude / unit - |(i : ℚ)|)| := by
      rw [hscaled, hscaled]
      exact div_le_div_of_nonneg_right (Nat.cast_le.mpr (nearest_is_nearest hi x.magnitude))
        unit_pos_rat.le
    _ = |(|x.value| - |(i : ℚ)|)| := by rw [abs_value]
    _ ≤ |x.value - i| := abs_abs_sub_abs_le _ _

/-- Integers up to 2^53 are not rounded. -/
theorem value_ofInt (hi : i.natAbs ≤ 2 ^ 53) : (ofInt i).value = i := by
  have hzero := abs_ofInt_sub (i := i) (by omega)
  rw [steps_nearest_of_le hi, Nat.cast_mul i.natAbs unit,
    mul_div_cancel_right₀ _ unit_pos_rat.ne', Nat.cast_natAbs, Int.cast_abs, sub_self, abs_zero,
    abs_eq_zero] at hzero
  exact sub_eq_zero.mp hzero

end OfInt

end Double

/-- The exact value of a number. Infinities and what is not a number have none. -/
def Value.worth? : Value → Option ℚ
  | int i => some i.toInt
  | double x => if x.isFinite then some x.value else none
  | _ => none

end PropertyGraph
