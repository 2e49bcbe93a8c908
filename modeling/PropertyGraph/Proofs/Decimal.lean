import Mathlib.Algebra.Order.Field.Rat
import Mathlib.Tactic.FieldSimp
import Mathlib.Tactic.Ring
import PropertyGraph.Double.Decimal

namespace PropertyGraph.Double

variable {m n num den : Nat}

theorem roundEven_mul (num den : Nat) {c : Nat} (hc : 0 < c) :
    roundEven (num * c) (den * c) = roundEven num den := by
  have hm : 2 * (num * c % (den * c)) = 2 * (num % den) * c := by
    rw [Nat.mul_mod_mul_right, Nat.mul_assoc]
  unfold roundEven
  simp only [hm, Nat.mul_div_mul_right num den hc, Nat.mul_lt_mul_right hc]

theorem roundEven_one (n : Nat) : roundEven n 1 = n := by
  simp [roundEven, Nat.mod_one]

/-- A quotient is rounded down or up, by at most half the divisor. -/
theorem roundEven_cases (num den : Nat) :
    (roundEven num den = num / den ∧ 2 * (num % den) ≤ den)
      ∨ (roundEven num den = num / den + 1 ∧ den ≤ 2 * (num % den)) := by
  unfold roundEven
  dsimp only
  split
  · omega
  · split
    · omega
    · split <;> omega

theorem nearest_mul (num den : Nat) {c : Nat} (hc : 0 < c) :
    nearest (num * c) (den * c) = nearest num den := by
  have hs : num * c * unit = num * unit * c := by ring
  have hd : ∀ k, den * c * Nat.pow 2 k = den * Nat.pow 2 k * c := by
    intro k
    ring
  unfold nearest
  simp only [hs, hd, Nat.mul_div_mul_right _ _ hc, roundEven_mul _ _ hc]

/-- Equal quotients are rounded alike. -/
theorem nearest_congr {a b c d : Nat} (hb : 0 < b) (hd : 0 < d) (h : a * d = c * b) :
    nearest a b = nearest c d := by
  rw [← nearest_mul a b hd, h, Nat.mul_comm b d, nearest_mul c d hb]

theorem binade_eq : binade = 2 ^ 52 := by norm_num [binade]

theorem binade_pos : 0 < binade := by norm_num [binade]

theorem unit_eq {k : Nat} (hk : k = 1074) : unit = Nat.pow 2 k := by
  unfold unit
  rw [← hk]

theorem unit_pos : 0 < unit := by
  rw [unit_eq rfl]
  generalize 1074 = k
  exact Nat.two_pow_pos k

theorem steps_of_lt (h : m < binade) : steps m = m := by
  unfold steps
  simp only [Nat.div_eq_of_lt h, Nat.mod_eq_of_lt h, ↓reduceIte]

theorem steps_of_le (h : binade ≤ m) :
    steps m = (binade + m % binade) * 2 ^ (m / binade - 1) := by
  have he : m / binade ≠ 0 := by
    have := Nat.div_pos h binade_pos
    omega
  unfold steps
  simp only [he, ↓reduceIte]
  rfl

theorem log2_eq {k : Nat} (hl : 2 ^ k ≤ n) (hu : n < 2 ^ (k + 1)) : n.log2 = k := by
  have hn : n ≠ 0 := by
    have := Nat.two_pow_pos k
    omega
  exact (Nat.log2_eq_iff hn).mpr ⟨hl, hu⟩

/-- A finite magnitude is the one nearest to its own exact value. -/
theorem nearest_steps (h : m < infinite) : nearest (steps m) unit = m := by
  have hq : steps m * unit / unit = steps m := Nat.mul_div_cancel _ unit_pos
  have hr : ∀ k, roundEven (steps m * unit) (unit * Nat.pow 2 k) = roundEven (steps m) (2 ^ k) := by
    intro k
    rw [Nat.mul_comm unit, roundEven_mul _ _ unit_pos]
    rfl
  unfold nearest
  simp only [hq, hr]
  rcases Nat.lt_or_ge m binade with hs | hs
  · have hlog : m.log2 - 52 = 0 := by
      rcases Nat.eq_zero_or_pos m with rfl | hp
      · simp
      · have : m.log2 < 52 := (Nat.log2_lt (by omega)).mpr (binade_eq ▸ hs)
        omega
    rw [steps_of_lt hs, hlog, Nat.pow_zero, roundEven_one, Nat.zero_mul, Nat.zero_add]
    exact Nat.min_eq_left h.le
  · -- The exponent says by how many bits the steps exceed the 53 that are kept.
    have hf : m % binade < binade := Nat.mod_lt _ binade_pos
    have he : 0 < m / binade := Nat.div_pos hs binade_pos
    have hlog : (steps m).log2 = 52 + (m / binade - 1) := by
      rw [steps_of_le hs]
      apply log2_eq
      · rw [Nat.pow_add, ← binade_eq]
        exact Nat.mul_le_mul_right _ (Nat.le_add_right _ _)
      · rw [Nat.add_right_comm, Nat.pow_add, Nat.pow_succ, ← binade_eq]
        exact Nat.mul_lt_mul_of_pos_right (by omega) (Nat.two_pow_pos _)
    have hround : roundEven (steps m) (2 ^ (m / binade - 1)) = binade + m % binade := by
      have := roundEven_mul (binade + m % binade) 1 (Nat.two_pow_pos (m / binade - 1))
      rw [Nat.one_mul, roundEven_one] at this
      rw [steps_of_le hs, this]
    have hsum := Nat.div_add_mod' m binade
    have hmul : (m / binade - 1) * binade + binade = m / binade * binade := by
      rw [← Nat.succ_mul]
      congr 1
      omega
    rw [hlog, Nat.add_sub_cancel_left, hround, ← Nat.add_assoc, hmul, hsum]
    exact Nat.min_eq_left h.le

namespace Decimal

/-- The number that a decimal denotes. -/
def value (d : Decimal) : ℚ := d.digits * 10 ^ d.exponent

theorem value_eq_div (d : Decimal) :
    d.value = (d.digits * 10 ^ d.exponent.toNat : Nat) / (10 ^ (-d.exponent).toNat : Nat) := by
  obtain ⟨digits, exponent⟩ := d
  unfold value
  dsimp only
  rcases Int.le_total 0 exponent with h | h
  · obtain ⟨k, rfl⟩ := Int.eq_ofNat_of_zero_le h
    simp
  · obtain ⟨k, hk⟩ := Int.eq_ofNat_of_zero_le (Int.neg_nonneg_of_nonpos h)
    obtain rfl : exponent = -(k : Int) := by omega
    simp [div_eq_mul_inv]

/-- Decimals that denote one number read back as one magnitude. -/
theorem magnitude_congr {d e : Decimal} (h : d.value = e.value) : d.magnitude = e.magnitude := by
  have hpos : ∀ k : Nat, 0 < Nat.pow 10 k := fun k => Nat.pow_pos (by decide)
  have hne : ∀ k : Nat, ((10 ^ k : Nat) : ℚ) ≠ 0 := fun k => by exact_mod_cast (hpos k).ne'
  rw [value_eq_div, value_eq_div, div_eq_div_iff (hne _) (hne _)] at h
  exact nearest_congr (hpos _) (hpos _) (by exact_mod_cast h)

theorem value_stripZeros (fuel : Nat) (d : Decimal) : (stripZeros fuel d).value = d.value := by
  induction fuel generalizing d with
  | zero => rfl
  | succ fuel ih =>
    unfold stripZeros
    split
    · next h =>
      rw [ih]
      have hd : ((d.digits / 10 : Nat) : ℚ) * 10 = d.digits := by
        exact_mod_cast Nat.div_mul_cancel (Nat.dvd_of_mod_eq_zero h)
      simp only [value]
      rw [← hd, zpow_add₀ (by norm_num)]
      ring
    · rfl

end Decimal

theorem magnitude_onGrid? {e : Int} {d : Decimal} (h : onGrid? m e = some d) :
    d.magnitude = m := by
  unfold onGrid? at h
  dsimp only at h
  generalize steps m * Nat.pow 10 (-e).toNat = num at h
  generalize unit * Nat.pow 10 e.toNat = den at h
  split at h
  · next hb =>
    split at h
    · next ha =>
      cases h
      split
      · exact hb
      · exact ha
    · cases h
      exact hb
  · split at h
    · next ha =>
      cases h
      exact ha
    · cases h

/-- A quotient by a power of two is a decimal with as many places. -/
theorem magnitude_overTwos (n k : Nat) :
    Decimal.magnitude ⟨n * Nat.pow 5 k, -(k : Int)⟩ = nearest n (Nat.pow 2 k) := by
  have hz : (-(k : Int)).toNat = 0 := by omega
  have hk : (- -(k : Int)).toNat = k := by omega
  have hpow : Nat.pow 10 k = Nat.pow 5 k * Nat.pow 2 k := Nat.mul_pow 5 2 k
  have hone : n * Nat.pow 5 k * Nat.pow 10 0 = n * Nat.pow 5 k := Nat.mul_one _
  unfold Decimal.magnitude
  simp only [hz, hk, hone]
  refine nearest_congr (Nat.pow_pos (by decide)) (Nat.two_pow_pos k) ?_
  rw [hpow, Nat.mul_assoc]

theorem magnitude_exactDecimal (h : m < infinite) : (exactDecimal m).magnitude = m := by
  unfold exactDecimal
  generalize hk : 1074 = k
  have he : (-1074 : Int) = -(k : Int) := by omega
  rw [he, magnitude_overTwos, ← unit_eq hk.symm, nearest_steps h]

theorem magnitude_shortest (h : m < infinite) : (shortest m).magnitude = m := by
  unfold shortest
  dsimp only
  rw [Decimal.magnitude_congr (Decimal.value_stripZeros _ _)]
  cases hf : (List.range 17).findSome?
      (fun n => onGrid? m (scaleAbove (steps m) - (n + 1 : Nat))) with
  | none => exact magnitude_exactDecimal h
  | some d =>
    obtain ⟨n, _, hg⟩ := List.exists_of_findSome?_eq_some hf
    exact magnitude_onGrid? hg

/-- The digits of a decimal that reads back as a number other than zero are not all zero. -/
theorem digits_pos_of_magnitude {d : Decimal} (h : d.magnitude ≠ 0) : 0 < d.digits := by
  apply Nat.pos_of_ne_zero
  intro hz
  apply h
  unfold Decimal.magnitude nearest
  simp [hz, roundEven]

/-- The number of steps to a power of two, the least exponent of which is that of one step. -/
theorem unit_mul_twos (j : Nat) : unit * 2 ^ j = 2 ^ (j + 1021 + 53) := by
  generalize hk : 1074 = k
  have he : j + 1021 + 53 = k + j := by omega
  rw [unit_eq hk.symm, he, Nat.pow_add]
  rfl

/-- How many bits of a quotient, counted in steps, are rounded away. -/
def droppedBits (num den : Nat) : Nat := (num * unit / den).log2 - 52

theorem nearest_eq (num den : Nat) : nearest num den =
    min (droppedBits num den * binade +
      roundEven (num * unit) (den * 2 ^ droppedBits num den)) infinite := rfl

/-- At most 53 bits are kept, and all 53 if any are rounded away. -/
theorem keptBits (num den : Nat) :
    num * unit / den < 2 * binade * 2 ^ droppedBits num den
      ∧ (droppedBits num den = 0 ∨ binade * 2 ^ droppedBits num den ≤ num * unit / den) := by
  have htwo : 2 * binade = 2 ^ 53 := by rw [binade_eq, ← Nat.pow_succ']
  unfold droppedBits
  generalize num * unit / den = quotient
  rcases Nat.eq_zero_or_pos quotient with rfl | hp
  · rw [Nat.log2_zero]
    exact ⟨by omega, .inl rfl⟩
  · constructor
    · rw [htwo, ← Nat.pow_add]
      exact (Nat.log2_lt hp.ne').mp (by omega)
    · rcases Nat.eq_zero_or_pos (quotient.log2 - 52) with hzero | hpos
      · exact .inl hzero
      · right
        rw [binade_eq, ← Nat.pow_add]
        exact (Nat.le_log2 hp.ne').mp (by omega)

/-- What is kept is rounded to as many bits again, or carries over. -/
theorem roundEven_keptBits (num den : Nat) :
    roundEven (num * unit) (den * 2 ^ droppedBits num den) ≤ 2 * binade
      ∧ (droppedBits num den = 0 ∨
        binade ≤ roundEven (num * unit) (den * 2 ^ droppedBits num den)) := by
  obtain ⟨hlt, hkept⟩ := keptBits num den
  generalize droppedBits num den = dropped at hlt hkept ⊢
  have hcases := roundEven_cases (num * unit) (den * 2 ^ dropped)
  rw [← Nat.div_div_eq_div_mul] at hcases
  generalize num * unit / den = quotient at *
  have hquotient := Nat.div_lt_of_lt_mul (Nat.mul_comm _ _ ▸ hlt)
  refine ⟨by omega, hkept.imp_right (fun h => ?_)⟩
  have := (Nat.le_div_iff_mul_le (Nat.two_pow_pos dropped)).mpr h
  omega

theorem nearest_le {j : Nat} (h : num < den * 2 ^ j) : nearest num den ≤ (1023 + j) * binade := by
  have hden : 0 < den := Nat.pos_of_ne_zero (fun hz => by simp [hz] at h)
  have hq : num * unit / den < 2 ^ (j + 1021 + 53) := by
    apply Nat.div_lt_of_lt_mul
    rw [← unit_mul_twos, Nat.mul_comm unit, ← Nat.mul_assoc]
    exact Nat.mul_lt_mul_of_pos_right h unit_pos
  have hdropped : droppedBits num den ≤ j + 1021 := by
    unfold droppedBits
    generalize num * unit / den = quotient at hq
    rcases Nat.eq_zero_or_pos quotient with rfl | hp
    · rw [Nat.log2_zero]
      omega
    · have := (Nat.log2_lt hp.ne').mpr hq
      omega
  obtain ⟨hround, -⟩ := roundEven_keptBits num den
  rw [nearest_eq]
  refine (Nat.min_le_left _ _).trans ((Nat.add_le_add_left hround _).trans ?_)
  rw [← Nat.add_mul]
  exact Nat.mul_le_mul_right _ (by omega)

theorem le_nearest {j : Nat} (hj : j ≤ 1024) (hd : 0 < den) (h : den * 2 ^ j ≤ num) :
    (1022 + j) * binade ≤ nearest num den := by
  have hq : 2 ^ (j + 1021 + 53) ≤ num * unit / den := by
    apply (Nat.le_div_iff_mul_le hd).mpr
    rw [← unit_mul_twos, Nat.mul_comm, Nat.mul_comm unit, ← Nat.mul_assoc]
    exact Nat.mul_le_mul_right _ h
  have hlog : j + 1021 + 53 ≤ (num * unit / den).log2 := by
    have hp : num * unit / den ≠ 0 := by
      have := Nat.two_pow_pos (j + 1021 + 53)
      omega
    by_contra hlt
    have := (Nat.log2_lt hp).mp (Nat.lt_of_not_le hlt)
    omega
  unfold nearest
  dsimp only
  generalize (num * unit / den).log2 = l at hlog
  refine Nat.le_min.mpr ⟨?_, Nat.mul_le_mul_right _ (by omega)⟩
  exact (Nat.mul_le_mul_right _ (by omega)).trans (Nat.le_add_right _ _)

theorem steps_lt {j : Nat} (h : m ≤ (1023 + j) * binade) : steps m < unit * 2 ^ (j + 2) := by
  rw [unit_mul_twos]
  rcases Nat.lt_or_ge m binade with hs | hs
  · rw [steps_of_lt hs]
    refine hs.trans_le ?_
    rw [binade_eq]
    exact Nat.pow_le_pow_right (by decide) (by omega)
  · rw [steps_of_le hs]
    have he : m / binade ≤ 1023 + j := by
      have := Nat.div_le_div_right (c := binade) h
      rwa [Nat.mul_div_cancel _ binade_pos] at this
    have hf : binade + m % binade < 2 ^ 53 := by
      have := Nat.mod_lt m binade_pos
      rw [Nat.pow_succ, ← binade_eq]
      omega
    calc (binade + m % binade) * 2 ^ (m / binade - 1)
        < 2 ^ 53 * 2 ^ (m / binade - 1) := Nat.mul_lt_mul_of_pos_right hf (Nat.two_pow_pos _)
      _ = 2 ^ (53 + (m / binade - 1)) := (Nat.pow_add _ _ _).symm
      _ ≤ 2 ^ (j + 2 + 1021 + 53) := Nat.pow_le_pow_right (by decide) (by omega)

theorem le_steps {j : Nat} (h : (1022 + j) * binade ≤ m) : unit * 2 ^ j ≤ steps m * 2 := by
  have hs : binade ≤ m := (Nat.le_mul_of_pos_left binade (by omega)).trans h
  have he : 1022 + j ≤ m / binade := (Nat.le_div_iff_mul_le binade_pos).mpr h
  have hsplit : j + 1021 + 53 = 52 + (j + 1022) := by omega
  rw [unit_mul_twos, steps_of_le hs, Nat.mul_assoc, ← Nat.pow_succ, hsplit, Nat.pow_add,
    ← binade_eq]
  exact Nat.mul_le_mul (Nat.le_add_right _ _) (Nat.pow_le_pow_right (by decide) (by omega))

theorem overPower_le {j : Nat} (h : m ≤ (1023 + j) * binade) (k : Nat) :
    overPower m k ≤ (1023 + (j + 3)) * binade := by
  have hone : 1 * 2 ^ 0 ≤ Nat.pow 10 k := Nat.pow_pos (by decide)
  have hp : unit * 2 ^ 0 ≤ steps (powerOfTen k) * 2 :=
    le_steps (le_nearest (by decide) Nat.one_pos hone)
  apply nearest_le
  calc steps m
      < unit * 2 ^ 0 * 2 ^ (j + 2) := by
        rw [Nat.pow_zero, Nat.mul_one]
        exact steps_lt h
    _ ≤ steps (powerOfTen k) * 2 * 2 ^ (j + 2) := Nat.mul_le_mul_right _ hp
    _ = steps (powerOfTen k) * 2 ^ (j + 3) := by rw [Nat.mul_assoc, ← Nat.pow_succ']

theorem shrink_le {j : Nat} (h : m ≤ (1023 + j) * binade) (k : Nat) :
    shrink m k ≤ (1023 + (j + 6)) * binade := by
  unfold shrink
  split
  · exact (overPower_le h k).trans (Nat.mul_le_mul_right _ (by omega))
  · split
    · exact overPower_le (overPower_le h 308) (k - 308)
    · exact Nat.zero_le _

theorem isFinite_ofMagnitude (negative : Bool) {j : Nat} (hj : j < 1024)
    (h : m ≤ (1023 + j) * binade) : (ofMagnitude negative m).isFinite = true := by
  have hlt : m < infinite := h.trans_lt (Nat.mul_lt_mul_of_pos_right (by omega) binade_pos)
  have hm : (ofMagnitude negative m).magnitude = min m infinite := rfl
  rw [isFinite, hm, decide_eq_true_eq]
  omega

theorem isFinite_ofInt {i : Int} (h : i.natAbs < 2 ^ 64) : (ofInt i).isFinite = true :=
  isFinite_ofMagnitude _ (by decide) (nearest_le (j := 64) (by omega))

theorem isFinite_ofDecimal? {negative : Bool} {significand : Nat} {e : Int} {x : Double}
    (hs : significand < 2 ^ 64) (h : ofDecimal? negative significand e = some x) :
    x.isFinite = true := by
  have hlead : nearest significand 1 ≤ (1023 + 64) * binade := nearest_le (by omega)
  unfold ofDecimal? at h
  dsimp only at h
  split at h
  · cases h
    exact isFinite_ofMagnitude negative (by decide) (shrink_le hlead e.natAbs)
  · split at h
    · cases h
      exact isFinite_ofMagnitude negative (j := 0) (by decide) (Nat.zero_le _)
    · split at h
      · cases h
      · split at h
        · next hp =>
          cases h
          rw [isFinite, decide_eq_true_eq]
          exact (Nat.min_le_left _ _).trans_lt hp
        · cases h

end PropertyGraph.Double
