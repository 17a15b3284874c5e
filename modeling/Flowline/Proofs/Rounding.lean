import Mathlib
import Flowline.Number.Shortest

/-! The magnitudes that read back as a floating-point number form an interval around it, and the intervals of
    different numbers do not meet: a number of lower rank has its interval wholly below. The shortest decimal of a
    number lies in its interval, so it is the decimal of no other magnitude. -/

namespace Flowline.Binary64

variable {x y : Binary64} {r : ℚ}

/-- The lower end of the interval of `x`. -/
def lowEnd (x : Binary64) : ℚ :=
  x.lower * 2 ^ x.quarter

/-- The upper end of the interval of `x`. -/
def highEnd (x : Binary64) : ℚ :=
  x.upper * 2 ^ x.quarter

/-- The magnitudes that read back as `x`. The ends are among them exactly if the significand is even. -/
def Covers (x : Binary64) (r : ℚ) : Prop :=
  if x.significand % 2 = 0 then r ∈ Set.Icc x.lowEnd x.highEnd else r ∈ Set.Ioo x.lowEnd x.highEnd

theorem covers_of_mem_Ioo (h : r ∈ Set.Ioo x.lowEnd x.highEnd) : x.Covers r := by
  unfold Covers
  split
  · exact Set.Ioo_subset_Icc_self h
  · exact h

theorem Covers.mem_Icc (h : x.Covers r) : r ∈ Set.Icc x.lowEnd x.highEnd := by
  unfold Covers at h
  split at h
  · exact h
  · exact Set.Ioo_subset_Icc_self h

theorem Covers.mem_Ioo (h : x.Covers r) (hodd : x.significand % 2 ≠ 0) : r ∈ Set.Ioo x.lowEnd x.highEnd := by
  rwa [Covers, if_neg hodd] at h

/-! ### Common units -/

theorem zpow_mul_pow_toNat {b : ℚ} (hb : b ≠ 0) (n : ℤ) : b ^ n * b ^ (-n).toNat = b ^ n.toNat := by
  rw [← zpow_natCast, ← zpow_natCast, ← zpow_add₀ hb]
  congr 1
  omega

/-- How many of the common units of `x` and `10 ^ e` make one. -/
def unitsInOne (x : Binary64) (e : ℤ) : ℚ :=
  10 ^ (-e).toNat * 2 ^ (-x.quarter).toNat

theorem unitsInOne_pos (x : Binary64) (e : ℤ) : 0 < x.unitsInOne e := by
  unfold unitsInOne
  positivity

theorem decimalUnits_eq (x : Binary64) (c : ℕ) (e : ℤ) :
    (x.decimalUnits c e : ℚ) = c * 10 ^ e * x.unitsInOne e := by
  have hten := zpow_mul_pow_toNat (b := 10) (by norm_num) e
  simp only [decimalUnits, unitsInOne, Nat.pow_eq, Nat.cast_mul, Nat.cast_pow, Nat.cast_ofNat, ← hten]
  ring

theorem quarterUnits_eq (x : Binary64) (n : ℕ) (e : ℤ) :
    (x.quarterUnits n e : ℚ) = n * 2 ^ x.quarter * x.unitsInOne e := by
  have htwo := zpow_mul_pow_toNat (b := 2) (by norm_num) x.quarter
  simp only [quarterUnits, unitsInOne, Nat.pow_eq, Nat.cast_mul, Nat.cast_pow, Nat.cast_ofNat, ← htwo]
  ring

theorem quarterUnits_le_iff (x : Binary64) (n c : ℕ) (e : ℤ) :
    x.quarterUnits n e ≤ x.decimalUnits c e ↔ (n * 2 ^ x.quarter : ℚ) ≤ c * 10 ^ e := by
  rw [← @Nat.cast_le ℚ, decimalUnits_eq, quarterUnits_eq, mul_le_mul_iff_left₀ (x.unitsInOne_pos e)]

theorem le_quarterUnits_iff (x : Binary64) (n c : ℕ) (e : ℤ) :
    x.decimalUnits c e ≤ x.quarterUnits n e ↔ (c * 10 ^ e : ℚ) ≤ n * 2 ^ x.quarter := by
  rw [← @Nat.cast_le ℚ, decimalUnits_eq, quarterUnits_eq, mul_le_mul_iff_left₀ (x.unitsInOne_pos e)]

/-- A decimal is found to read back exactly if its magnitude lies in the interval. -/
theorem readsBack_iff (x : Binary64) (c : ℕ) (e : ℤ) : x.readsBack c e = true ↔ x.Covers (c * 10 ^ e) := by
  unfold readsBack Covers lowEnd highEnd
  split
  · simp only [Bool.and_eq_true, decide_eq_true_eq, Set.mem_Icc, quarterUnits_le_iff, le_quarterUnits_iff]
  · simp only [Bool.and_eq_true, decide_eq_true_eq, Set.mem_Ioo, ← not_le, quarterUnits_le_iff, le_quarterUnits_iff]

/-! ### The shortest decimal -/

theorem readsBack_of_nearest? {e : ℤ} {c : ℕ} (h : x.nearest? e = some c) : x.readsBack c e = true := by
  simp only [nearest?] at h
  split at h
  case h_1 hbelow habove =>
    cases h
    split
    · exact hbelow
    · exact habove
  case h_2 hbelow _ =>
    cases h
    exact hbelow
  case h_3 _ habove =>
    cases h
    exact habove
  case h_4 => cases h

theorem exact_eq (x : Binary64) : (x.exact.1 * 10 ^ x.exact.2 : ℚ) = x.significand * 2 ^ x.scale := by
  have htwo := zpow_mul_pow_toNat (b := 2) (by norm_num) x.scale
  have hfive := zpow_mul_pow_toNat (b := 5) (by norm_num) x.scale
  unfold exact
  split
  · next hscale =>
    rw [Int.toNat_of_nonpos (z := -x.scale) (by omega), pow_zero, mul_one] at htwo
    simp [htwo]
  · next hscale =>
    rw [Int.toNat_of_nonpos (z := x.scale) (by omega), pow_zero] at hfive
    have hten : (10 : ℚ) ^ x.scale = 2 ^ x.scale * 5 ^ x.scale := by
      rw [← mul_zpow]
      norm_num
    simp only [Nat.pow_eq, Nat.cast_mul, Nat.cast_pow, Nat.cast_ofNat, hten]
    linear_combination (x.significand * 2 ^ x.scale : ℚ) * hfive

theorem two_zpow_scale (x : Binary64) : (2 : ℚ) ^ x.scale = 4 * 2 ^ x.quarter := by
  have hscale : x.scale = 2 + x.quarter := by
    unfold quarter
    ring
  rw [hscale, zpow_add₀ (by norm_num)]
  norm_num

/-- A number other than zero lies strictly inside its interval. -/
theorem covers_self (h : x.significand ≠ 0) : x.Covers (x.significand * 2 ^ x.scale) := by
  have hlower : x.lower < 4 * x.significand := by
    unfold lower
    split <;> omega
  have hupper : 4 * x.significand < x.upper := by
    unfold upper
    omega
  have hself : (x.significand * 2 ^ x.scale : ℚ) = (4 * x.significand : ℕ) * 2 ^ x.quarter := by
    rw [two_zpow_scale]
    push_cast
    ring
  have hunit : (0 : ℚ) < 2 ^ x.quarter := by positivity
  rw [hself]
  exact covers_of_mem_Ioo ⟨mul_lt_mul_of_pos_right (Nat.cast_lt.mpr hlower) hunit,
    mul_lt_mul_of_pos_right (Nat.cast_lt.mpr hupper) hunit⟩

theorem covers_descend (h : x.significand ≠ 0) (tries : ℕ) (e : ℤ) :
    x.Covers ((x.descend tries e).1 * 10 ^ (x.descend tries e).2) := by
  induction tries generalizing e with
  | zero =>
    rw [descend, exact_eq]
    exact covers_self h
  | succ tries ih =>
    rw [descend]
    split
    · next c hc => exact (x.readsBack_iff c e).mp (readsBack_of_nearest? hc)
    · exact ih (e - 1)

/-- The decimal that is written for a finite number: the shortest one, and zero for zero. -/
def decimal (x : Binary64) : ℕ × ℤ :=
  if x.significand = 0 then (0, 0) else x.shortest

/-- The decimal of a number reads back as that number. -/
theorem covers_decimal (x : Binary64) : x.Covers (x.decimal.1 * 10 ^ x.decimal.2) := by
  unfold decimal
  split
  · next hzero =>
    have hlow : x.lowEnd = 0 := by simp [lowEnd, lower, hzero]
    have hhigh : 0 ≤ x.highEnd := by
      unfold highEnd
      positivity
    simpa [Covers, hzero, hlow] using hhigh
  · next hnonzero => exact covers_descend hnonzero _ _

theorem decimal_pos (h : x.significand ≠ 0) : 0 < x.decimal.1 := by
  have hlower : 0 < x.lower := by
    unfold lower
    split <;> omega
  have hlow : 0 < x.lowEnd := mul_pos (Nat.cast_pos.mpr hlower) (by positivity)
  rw [Nat.pos_iff_ne_zero]
  intro hzero
  have hcovers := x.covers_decimal.mem_Icc.1
  rw [hzero, Nat.cast_zero, zero_mul] at hcovers
  exact absurd hcovers (not_le.mpr hlow)

theorem decimal_eq_zero (h : x.decimal.1 = 0) : x.decimal.2 = 0 := by
  by_cases hzero : x.significand = 0
  · rw [decimal, if_pos hzero]
  · exact absurd h (decimal_pos hzero).ne'

/-! ### Intervals in order -/

/-- The place of a magnitude among all of them, in ascending order. -/
def rank (x : Binary64) : ℕ :=
  x.exponent.val * fractionCount + x.fraction.val

theorem eq_of_rank (hrank : x.rank = y.rank) (hsign : x.negative = y.negative) : x = y := by
  obtain ⟨negative, exponent, fraction⟩ := x
  obtain ⟨negative', exponent', fraction'⟩ := y
  have hx := fraction.isLt
  have hy := fraction'.isLt
  simp only [rank, fractionCount] at hx hy hrank hsign
  simp only [mk.injEq, Fin.ext_iff]
  refine ⟨hsign, ?_, ?_⟩ <;> omega

/-- How many times the unit of `x` must be doubled to give that of `y`. -/
def doublings (x y : Binary64) : ℕ :=
  max y.exponent.val 1 - max x.exponent.val 1

theorem quarter_add_doublings (h : x.rank < y.rank) : x.quarter + doublings x y = y.quarter := by
  have hx := x.fraction.isLt
  have hy := y.fraction.isLt
  unfold rank at h
  simp only [fractionCount] at hx hy h
  unfold quarter scale doublings
  omega

/-- Two neighbours may have an end in common, and then one of the two significands is odd. -/
theorem upper_le_lower (h : x.rank < y.rank) :
    x.upper ≤ y.lower * 2 ^ doublings x y ∧
      (x.significand % 2 = 0 → y.significand % 2 = 0 → x.upper < y.lower * 2 ^ doublings x y) := by
  have hx := x.fraction.isLt
  have hy := y.fraction.isLt
  unfold rank at h
  simp only [fractionCount] at hx hy h
  rcases Nat.eq_zero_or_pos (doublings x y) with hsame | hpos
  · rw [hsame]
    unfold doublings at hsame
    simp only [upper, lower, significand, fractionCount, Bool.and_eq_true, decide_eq_true_eq]
    split_ifs <;> omega
  · -- A larger unit is at least twice as large, and the greatest significand below it is odd.
    have htwice : y.lower * 2 ≤ y.lower * 2 ^ doublings x y :=
      Nat.mul_le_mul_left _ (le_self_pow₀ (by norm_num) hpos.ne')
    have hends : x.upper ≤ y.lower * 2 ∧ (x.significand % 2 = 0 → x.upper < y.lower * 2) := by
      unfold doublings at hpos
      simp only [upper, lower, significand, fractionCount, Bool.and_eq_true, decide_eq_true_eq]
      split_ifs <;> omega
    exact ⟨hends.1.trans htwice, fun heven _ => (hends.2 heven).trans_le htwice⟩

/-- Of two magnitudes, the one of lower rank has its interval wholly below the other's. -/
theorem Covers.lt_of_rank_lt {s : ℚ} (h : x.rank < y.rank) (hx : x.Covers r) (hy : y.Covers s) : r < s := by
  have hunit : (0 : ℚ) < 2 ^ x.quarter := by positivity
  have hlow : y.lowEnd = (y.lower * 2 ^ doublings x y : ℕ) * 2 ^ x.quarter := by
    rw [lowEnd, ← quarter_add_doublings h, zpow_add₀ (by norm_num), zpow_natCast]
    push_cast
    ring
  have hle : x.highEnd ≤ y.lowEnd := by
    rw [hlow, highEnd]
    exact mul_le_mul_of_nonneg_right (Nat.cast_le.mpr (upper_le_lower h).1) hunit.le
  by_cases hxodd : x.significand % 2 ≠ 0
  · exact ((hx.mem_Ioo hxodd).2.trans_le hle).trans_le hy.mem_Icc.1
  by_cases hyodd : y.significand % 2 ≠ 0
  · exact (hx.mem_Icc.2.trans hle).trans_lt (hy.mem_Ioo hyodd).1
  have hlt : x.highEnd < y.lowEnd := by
    rw [hlow, highEnd]
    exact mul_lt_mul_of_pos_right
      (Nat.cast_lt.mpr ((upper_le_lower h).2 (not_not.mp hxodd) (not_not.mp hyodd))) hunit
  exact (hx.mem_Icc.2.trans_lt hlt).trans_le hy.mem_Icc.1

/-- No magnitude reads back as two. -/
theorem Covers.rank_eq (hx : x.Covers r) (hy : y.Covers r) : x.rank = y.rank := by
  rcases lt_trichotomy x.rank y.rank with hlt | heq | hgt
  · exact absurd (hx.lt_of_rank_lt hlt hy) (lt_irrefl r)
  · exact heq
  · exact absurd (hy.lt_of_rank_lt hgt hx) (lt_irrefl r)

/-- The decimal that is written for a number determines it up to its sign. -/
theorem eq_of_decimal (h : (x.decimal.1 * 10 ^ x.decimal.2 : ℚ) = y.decimal.1 * 10 ^ y.decimal.2)
    (hsign : x.negative = y.negative) : x = y :=
  eq_of_rank (x.covers_decimal.rank_eq (h ▸ y.covers_decimal)) hsign

end Flowline.Binary64
