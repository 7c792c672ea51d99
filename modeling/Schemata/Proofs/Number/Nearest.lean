import Schemata.Proofs.Number.Precision

namespace Schemata

namespace Binary64

variable {negative : Bool} {r : Ratio} {x : Binary64} {size : ℚ} {q : Int}

structure IsNearest (x : Binary64) (negative : Bool) (size : ℚ) : Prop where
  sign : x.isNegative = negative
  finite_iff : x.isFinite ↔ size < overflowThreshold
  overflow : overflowThreshold ≤ size → x = infinity negative
  nearest : x.isFinite → ∀ y : Binary64, y.isFinite → |x.ratio.value - size| ≤ |y.ratio.value - size|
  even : x.isFinite → ∀ y : Binary64, y.isFinite → y.ratio.value ≠ x.ratio.value →
    |y.ratio.value - size| = |x.ratio.value - size| → x.significand % 2 = 0

theorem half_le_of_ne {m n : Nat} {w : ℚ} (error : |(m : ℚ) - w| ≤ 1 / 2) (hne : n ≠ m) : 1 / 2 ≤ |(n : ℚ) - w| := by
  obtain ⟨low, high⟩ := abs_le.1 error
  rcases Nat.lt_or_gt_of_ne hne with less | greater
  · have step : (n : ℚ) + 1 ≤ m := by exact_mod_cast less
    exact le_abs.2 (.inr (by linarith))
  · have step : (m : ℚ) + 1 ≤ n := by exact_mod_cast greater
    exact le_abs.2 (.inl (by linarith))

theorem on_grid_or_below (y : Binary64) (q : Int) :
    (∃ n : Nat, y.ratio.value = n * 2 ^ q) ∨ -1074 < q ∧ y.ratio.value < 2 ^ 52 * 2 ^ q := by
  rw [ratio_value]
  rcases le_or_gt q y.scale with coarse | fine
  · left
    obtain ⟨k, hk⟩ := Int.eq_ofNat_of_zero_le (Int.sub_nonneg.2 coarse)
    have scale : y.scale = k + q := by omega
    refine ⟨y.significand * 2 ^ k, ?_⟩
    rw [scale, zpow_add₀ two_ne_zero, zpow_natCast]
    push_cast
    ring
  · right
    have least : -1074 ≤ y.scale := by
      rw [scale]
      omega
    have bound : (y.significand : ℚ) < 2 ^ (53 : Int) := by exact_mod_cast (significand_bounds y).1
    refine ⟨by omega, ?_⟩
    calc (y.significand : ℚ) * 2 ^ y.scale < 2 ^ (53 : Int) * 2 ^ y.scale := mul_lt_mul_of_pos_right bound (zpow_pos two_pos _)
      _ = 2 ^ (y.scale + 53) := by rw [← zpow_add₀ two_ne_zero, add_comm]
      _ ≤ 2 ^ (q + 52) := zpow_le_zpow_right₀ one_le_two (by omega)
      _ = 2 ^ 52 * 2 ^ q := by rw [zpow_add₀ two_ne_zero, mul_comm]; norm_num

theorem scaled_distance (a size : ℚ) (q : Int) : |a * 2 ^ q - size| = |a - size / 2 ^ q| * 2 ^ q := by
  have step : (0 : ℚ) < 2 ^ q := zpow_pos two_pos q
  nth_rewrite 3 [← abs_of_pos step]
  rw [← abs_mul, sub_mul, div_mul_cancel₀ _ step.ne']

/-- What is rounded on the grid of its own last place is nearest of all numbers. Those that are not on the grid lie below
a number that is, and that is itself no greater than what is rounded. -/
theorem grid_nearest {m : Nat} (error : |(m : ℚ) - size / 2 ^ q| ≤ 1 / 2)
    (even : |(m : ℚ) - size / 2 ^ q| = 1 / 2 → m % 2 = 0) (place : -1074 < q → (2 : ℚ) ^ 52 * 2 ^ q ≤ size) (y : Binary64) :
    |(m : ℚ) * 2 ^ q - size| ≤ |y.ratio.value - size| ∧ (y.ratio.value ≠ m * 2 ^ q →
      |y.ratio.value - size| = |(m : ℚ) * 2 ^ q - size| → m % 2 = 0) := by
  have step : (0 : ℚ) < 2 ^ q := zpow_pos two_pos q
  have on_grid {n : Nat} (hne : n ≠ m) : |(m : ℚ) * 2 ^ q - size| ≤ |(n : ℚ) * 2 ^ q - size| := by
    rw [scaled_distance, scaled_distance]
    exact mul_le_mul_of_nonneg_right (error.trans (half_le_of_ne error hne)) step.le
  rcases on_grid_or_below y q with ⟨n, hy⟩ | ⟨coarse, below⟩
  · rw [hy]
    by_cases hne : n = m
    · subst hne
      exact ⟨le_refl _, fun other => absurd rfl other⟩
    · refine ⟨on_grid hne, fun _ tie => even ?_⟩
      rw [scaled_distance, scaled_distance] at tie
      have same := mul_right_cancel₀ step.ne' tie
      exact le_antisymm error (same ▸ half_le_of_ne error hne)
  · have low := place coarse
    have nearer : |(m : ℚ) * 2 ^ q - size| ≤ |((2 ^ 52 : Nat) : ℚ) * 2 ^ q - size| := by
      by_cases hm : 2 ^ 52 = m
      · rw [hm]
      · exact on_grid hm
    have strict : |(m : ℚ) * 2 ^ q - size| < |y.ratio.value - size| := by
      have grid : ((2 ^ 52 : Nat) : ℚ) = 2 ^ 52 := Nat.cast_pow 2 52
      rw [grid] at nearer
      rw [abs_of_nonpos (by linarith : (2 : ℚ) ^ 52 * 2 ^ q - size ≤ 0)] at nearer
      rw [abs_of_nonpos (by linarith : y.ratio.value - size ≤ 0)]
      linarith
    exact ⟨strict.le, fun _ tie => absurd tie strict.ne'⟩

theorem ofRatio_of_threshold (hd : 0 < r.den) (h : overflowThreshold ≤ r.value) : ofRatio negative r = infinity negative := by
  rcases le_or_gt ((2 : ℚ) ^ (1024 : Int)) r.value with beyond | within
  · exact ofRatio_overflow hd beyond
  · have threshold : (2 : ℚ) ^ (1023 : Int) ≤ overflowThreshold := by
      have split : (2 : ℚ) ^ (1023 : Int) = 2 ^ (52 : Int) * 2 ^ (971 : Int) := by rw [← zpow_add₀ two_ne_zero]; rfl
      rw [overflowThreshold, split]
      exact mul_le_mul_of_nonneg_right (by norm_num) (zpow_pos two_pos _).le
    have pos : 0 < r.value := (zpow_pos two_pos _).trans_le (threshold.trans h)
    have log : Int.log 2 r.value = 1023 := by
      have low : 1023 ≤ Int.log 2 r.value := (Int.zpow_le_iff_le_log Nat.one_lt_two pos).1 (threshold.trans h)
      have high : Int.log 2 r.value < 1024 := (Int.lt_zpow_iff_log_lt Nat.one_lt_two pos).1 within
      omega
    obtain ⟨k, m, hr, -, place, -, error, even⟩ := ofRatio_place negative (Ratio.num_pos_of_value_pos pos) hd
    obtain rfl : k = 2045 := by omega
    have scaled : (2 : ℚ) ^ 53 - 1 / 2 ≤ r.value / 2 ^ (((2045 : Nat) : Int) - 1074) := by
      rw [le_div_iff₀ (zpow_pos two_pos _)]
      exact h
    have last : 2 ^ 53 ≤ m := by
      obtain ⟨low, high⟩ := abs_le.1 error
      by_contra less
      have bound : (m : ℚ) ≤ 2 ^ 53 - 1 := by
        have : m + 1 ≤ 2 ^ 53 := by omega
        have : (m : ℚ) + 1 ≤ 2 ^ 53 := by exact_mod_cast this
        linarith
      -- Then the number lies half way between the last two significands, of which the lower is odd.
      have half : |(m : ℚ) - r.value / 2 ^ (((2045 : Nat) : Int) - 1074)| = 1 / 2 := by
        rw [abs_of_nonpos (by linarith)]
        linarith
      have lower : m + 1 = 2 ^ 53 := by
        have : (m : ℚ) + 1 = 2 ^ 53 := by linarith
        exact_mod_cast this
      have := even half
      omega
    have beyond : infinityBits ≤ 2045 * hiddenBit + m := by
      rw [infinityBits, hiddenBit_eq]
      omega
    rw [hr, Nat.min_eq_right beyond, infinity]

theorem significand_parity (x : Binary64) : x.significand % 2 = x.magnitudeBits % 2 := by
  rw [significand, fractionField, hiddenBit_eq]
  split <;> omega

theorem overflowThreshold_pos : 0 < overflowThreshold := mul_pos (by norm_num) (zpow_pos two_pos _)

theorem zero_isNearest (negative : Bool) : (zero negative).IsNearest negative 0 where
  sign := ofMagnitude_isNegative (by decide)
  finite_iff := by
    have finite : (zero negative).isFinite := by
      rw [isFinite, zero_bits]
      decide
    exact iff_of_true finite overflowThreshold_pos
  overflow h := absurd h (not_le.2 overflowThreshold_pos)
  nearest _ y _ := by
    rw [zero_ratio, sub_zero, abs_zero]
    exact abs_nonneg _
  even _ _ _ _ _ := by rw [significand_parity, zero_bits]

theorem ofRatio_isNearest (negative : Bool) (hd : 0 < r.den) : (ofRatio negative r).IsNearest negative r.value := by
  by_cases hn : r.num = 0
  · rw [ofRatio_of_zero hn, (Ratio.value_eq_zero hd).2 hn]
    exact zero_isNearest negative
  · have num : 0 < r.num := Nat.pos_of_ne_zero hn
    have finite_iff : (ofRatio negative r).isFinite ↔ r.value < overflowThreshold := by
      refine ⟨fun finite => ?_, fun h => (ofRatio_near hd h).1⟩
      by_contra high
      rw [ofRatio_of_threshold hd (not_lt.1 high), infinity_not_isFinite] at finite
      cases finite
    obtain ⟨k, m, hr, hm, place, hk, error, even⟩ := ofRatio_place negative num hd
    have own_place : -1074 < (k : Int) - 1074 → (2 : ℚ) ^ 52 * 2 ^ ((k : Int) - 1074) ≤ r.value := by
      intro high
      have log := Int.zpow_log_le_self (b := 2) Nat.one_lt_two (Ratio.value_pos num hd)
      rwa [show Int.log 2 r.value = 52 + ((k : Int) - 1074) by omega, Nat.cast_ofNat, zpow_add₀ two_ne_zero] at log
    have bits (finite : (ofRatio negative r).isFinite) : (ofRatio negative r).magnitudeBits = k * hiddenBit + m := by
      have within : k * hiddenBit + m < infinityBits := by
        by_contra beyond
        rw [hr, Nat.min_eq_right (not_lt.1 beyond), ← infinity, infinity_not_isFinite] at finite
        cases finite
      rw [hr, Nat.min_eq_left within.le, ofMagnitude_bits (within.trans infinityBits_lt)]
    refine ⟨ofRatio_isNegative negative r, finite_iff, ofRatio_of_threshold hd, fun finite y _ => ?_,
      fun finite y _ => ?_⟩
    · rw [ratio_value_of_bits (bits finite) hm hk]
      exact (grid_nearest error even own_place y).1
    · rw [ratio_value_of_bits (bits finite) hm hk]
      intro other tie
      have parity := (grid_nearest error even own_place y).2 other tie
      rw [significand_parity, bits finite, hiddenBit_eq]
      omega

theorem ofScientific_isNearest (negative : Bool) (significand : Nat) (exponent : Int) :
    (ofScientific negative significand exponent).IsNearest negative (significand * 10 ^ exponent) := by
  have ten : 0 < 10 := by decide
  have nearest := ofRatio_isNearest negative (Ratio.scaled_den_pos (r := .ofNat significand) ten Nat.one_pos exponent)
  rwa [Ratio.scaled_value ten, Ratio.ofNat_value, Nat.cast_ofNat, ← ofScientific_eq] at nearest

end Binary64

end Schemata
