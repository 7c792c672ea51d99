import Schemata.Proofs.Number.Rounding

namespace Schemata

namespace Ratio

variable {r s : Ratio}

theorem mul_value (r s : Ratio) : (r.mul s).value = r.value * s.value := by
  rw [value, value, value, mul, Nat.cast_mul, Nat.cast_mul, div_mul_div_comm]

theorem div_value (r s : Ratio) : (r.div s).value = r.value / s.value := by
  rw [value, value, value, div, Nat.cast_mul, Nat.cast_mul, div_div_div_eq]

theorem num_pos_of_value_pos (h : 0 < r.value) : 0 < r.num := by
  apply Nat.pos_of_ne_zero
  intro hn
  rw [value, hn, Nat.cast_zero, zero_div] at h
  exact lt_irrefl 0 h

theorem floor_bounds (r : Ratio) : (r.floor : ℚ) ≤ r.value ∧ r.value < r.floor + 1 := by
  rw [floor_eq]
  exact ⟨Nat.floor_le (div_nonneg (Nat.cast_nonneg _) (Nat.cast_nonneg _)), Nat.lt_floor_add_one _⟩

theorem round_error (hd : 0 < r.den) : |(r.round : ℚ) - r.value| ≤ 1 / 2 := by
  obtain ⟨below, above⟩ := floor_bounds r
  rw [round_eq hd, abs_le]
  split
  · next down =>
    have half : 2 * (r.value - r.floor) ≤ 1 := by
      rcases down with less | ⟨same, -⟩
      · exact less.le
      · exact same.le
    constructor <;> linarith
  · next up =>
    have half : 1 ≤ 2 * (r.value - r.floor) := not_lt.1 fun less => up (.inl less)
    push_cast
    constructor <;> linarith

theorem round_even (hd : 0 < r.den) (h : |(r.round : ℚ) - r.value| = 1 / 2) : r.round % 2 = 0 := by
  obtain ⟨below, above⟩ := floor_bounds r
  rw [round_eq hd] at h ⊢
  split at h
  · next down =>
    rw [if_pos down]
    rw [abs_of_nonpos (by linarith)] at h
    rcases down with less | ⟨-, even⟩
    · linarith
    · exact even
  · next up =>
    rw [if_neg up]
    push_cast at h
    rw [abs_of_nonneg (by linarith)] at h
    have half : 2 * (r.value - r.floor) = 1 := by linarith
    have odd : ¬r.floor % 2 = 0 := fun even => up (.inr ⟨half, even⟩)
    omega

end Ratio

namespace Binary64

variable {negative : Bool} {r : Ratio} {x : Binary64} {bits k m : Nat}

theorem ofMagnitude_toNat (h : bits < signBit) :
    (ofMagnitude negative bits).bits.toNat = bits + if negative then signBit else 0 := by
  have sign : signBit = 2 ^ 63 := rfl
  rw [ofMagnitude, Nat.toUInt64_eq, UInt64.toNat_ofNat', Nat.mod_eq_of_lt]
  split <;> omega

theorem ofMagnitude_bits (h : bits < signBit) : (ofMagnitude negative bits).magnitudeBits = bits := by
  rw [magnitudeBits, ofMagnitude_toNat h]
  split
  · rw [Nat.add_mod_right, Nat.mod_eq_of_lt h]
  · rw [Nat.add_zero, Nat.mod_eq_of_lt h]

theorem ofMagnitude_isNegative (h : bits < signBit) : (ofMagnitude negative bits).isNegative = negative := by
  rw [isNegative, ofMagnitude_toNat h]
  cases negative with
  | true => simp
  | false => simpa using h

theorem infinityBits_lt : infinityBits < signBit := by decide

theorem ofRatio_isNegative (negative : Bool) (r : Ratio) : (ofRatio negative r).isNegative = negative := by
  rw [ofRatio]
  split
  · exact ofMagnitude_isNegative (by decide)
  · exact ofMagnitude_isNegative ((Nat.min_le_right _ _).trans_lt infinityBits_lt)

theorem ratio_value_of_bits (h : x.magnitudeBits = k * hiddenBit + m) (hm : m ≤ 2 * hiddenBit)
    (hk : k = 0 ∨ hiddenBit ≤ m) : x.ratio.value = m * (2 : ℚ) ^ ((k : Int) - 1074) := by
  have field : x.exponentField = (k * hiddenBit + m) / hiddenBit := congrArg (· / hiddenBit) h
  have fraction : x.fractionField = (k * hiddenBit + m) % hiddenBit := congrArg (· % hiddenBit) h
  rw [hiddenBit_eq] at hm hk field fraction
  rw [ratio_value, significand, scale, hiddenBit_eq]
  rcases lt_or_ge m (2 ^ 52) with small | normal
  · obtain rfl : k = 0 := by omega
    rw [if_pos (by omega), show x.fractionField = m by omega, show x.exponentField = 0 by omega]
    norm_num
  · rcases lt_or_eq_of_le hm with less | carry
    · rw [if_neg (by omega), show x.fractionField + 2 ^ 52 = m by omega, show x.exponentField = k + 1 by omega]
      congr 2
      omega
    · rw [if_neg (by omega), show x.fractionField + 2 ^ 52 = 2 ^ 52 by omega, show x.exponentField = k + 2 by omega,
        show ((max (k + 2) 1 : Nat) : Int) - 1075 = (k : Int) - 1074 + 1 by omega, zpow_add₀ two_ne_zero, carry]
      push_cast
      ring

theorem ofRatio_place (negative : Bool) (hn : 0 < r.num) (hd : 0 < r.den) : ∃ k m : Nat,
    ofRatio negative r = ofMagnitude negative (min (k * hiddenBit + m) infinityBits) ∧ m ≤ 2 * hiddenBit ∧
      ((k : Int) - 1074 = max (Int.log 2 r.value - 52) (-1074)) ∧ (k = 0 ∨ hiddenBit ≤ m) ∧
      |(m : ℚ) - r.value / 2 ^ ((k : Int) - 1074)| ≤ 1 / 2 ∧
      (|(m : ℚ) - r.value / 2 ^ ((k : Int) - 1074)| = 1 / 2 → m % 2 = 0) := by
  generalize hq : max (Int.log 2 r.value - 52) (-1074) = q
  have place : (((q + 1074).toNat : Nat) : Int) - 1074 = q := by omega
  have scaled : (r.scaled 2 (-q)).value = r.value / 2 ^ q := by
    rw [Ratio.scaled_value Nat.two_pos, Nat.cast_two, zpow_neg, div_eq_mul_inv]
  have den := Ratio.scaled_den_pos Nat.two_pos hd (-q)
  have error := Ratio.round_error den
  have even := Ratio.round_even den
  rw [scaled] at error even
  refine ⟨(q + 1074).toNat, (r.scaled 2 (-q)).round, ?_, ?_, place, ?_, by rwa [place], by rwa [place]⟩
  · rw [ofRatio_eq hn hd, hq]
  · have above : r.value / 2 ^ q < 2 ^ (53 : Int) := by
      rw [div_lt_iff₀ (zpow_pos two_pos q), ← zpow_add₀ two_ne_zero]
      have log := Int.lt_zpow_succ_log_self (b := 2) Nat.one_lt_two r.value
      exact log.trans_le (zpow_le_zpow_right₀ one_le_two (by omega))
    have bound : ((r.scaled 2 (-q)).round : ℚ) < 2 ^ 53 + 1 := by
      have := (abs_le.1 error).2
      norm_num at above
      linarith
    have bound : (r.scaled 2 (-q)).round < 2 ^ 53 + 1 := by exact_mod_cast bound
    rw [hiddenBit_eq]
    omega
  · by_cases low : q = -1074
    · left
      omega
    · right
      have below : (2 : ℚ) ^ (52 : Int) ≤ r.value / 2 ^ q := by
        rw [le_div_iff₀ (zpow_pos two_pos q), ← zpow_add₀ two_ne_zero]
        have log := Int.zpow_log_le_self (b := 2) Nat.one_lt_two (Ratio.value_pos hn hd)
        exact le_trans (zpow_le_zpow_right₀ one_le_two (by omega)) log
      have bound : (2 ^ 52 : ℚ) < (r.scaled 2 (-q)).round + 1 := by
        have := (abs_le.1 error).1
        norm_num at below
        linarith
      have bound : 2 ^ 52 < (r.scaled 2 (-q)).round + 1 := by exact_mod_cast bound
      rw [hiddenBit_eq]
      omega

def overflowThreshold : ℚ := (2 ^ 53 - 1 / 2) * 2 ^ (971 : Int)

theorem overflowThreshold_lt : overflowThreshold < 2 ^ (1024 : Int) := by
  have split : (2 : ℚ) ^ (1024 : Int) = 2 ^ 53 * 2 ^ (971 : Int) := by
    rw [← zpow_natCast, ← zpow_add₀ two_ne_zero]
    rfl
  rw [split, overflowThreshold]
  exact mul_lt_mul_of_pos_right (by norm_num) (zpow_pos two_pos _)

theorem zero_bits (negative : Bool) : (zero negative).magnitudeBits = 0 := ofMagnitude_bits (by decide)

theorem zero_ratio (negative : Bool) : (zero negative).ratio.value = 0 := by
  have bits : (zero negative).magnitudeBits = 0 * hiddenBit + 0 := zero_bits negative
  rw [ratio_value_of_bits bits (Nat.zero_le _) (.inl rfl), Nat.cast_zero, zero_mul]

theorem ofRatio_of_zero (h : r.num = 0) : ofRatio negative r = zero negative := if_pos (.inl h)

theorem half_place_le (hn : 0 < r.num) (hd : 0 < r.den) {q : Int} (hq : q = max (Int.log 2 r.value - 52) (-1074)) :
    (2 : ℚ) ^ q / 2 ≤ r.value * 2 ^ (-53 : Int) + 2 ^ (-1075 : Int) := by
  have half (e : Int) : (2 : ℚ) ^ (e - 1) = 2 ^ e / 2 := zpow_sub_one₀ two_ne_zero e
  have pos := Ratio.value_pos hn hd
  rw [← half]
  rcases le_total (Int.log 2 r.value - 52) (-1074) with low | high
  · rw [hq, max_eq_right low]
    exact le_add_of_nonneg_left (by positivity)
  · rw [hq, max_eq_left high, show Int.log 2 r.value - 52 - 1 = Int.log 2 r.value + -53 by omega,
      zpow_add₀ two_ne_zero]
    have log := Int.zpow_log_le_self (b := 2) Nat.one_lt_two pos
    refine le_add_of_le_of_nonneg ?_ (by positivity)
    exact mul_le_mul_of_nonneg_right log (by positivity)

/-- Below the threshold the result is finite, and as near as the last place allows. -/
theorem ofRatio_near (hd : 0 < r.den) (h : r.value < overflowThreshold) : (ofRatio negative r).isFinite ∧
    |(ofRatio negative r).ratio.value - r.value| ≤ r.value * 2 ^ (-53 : Int) + 2 ^ (-1075 : Int) := by
  by_cases hn : r.num = 0
  · rw [ofRatio_of_zero hn, zero_ratio, (Ratio.value_eq_zero hd).2 hn, isFinite, zero_bits]
    exact ⟨by decide, by norm_num⟩
  · have pos : 0 < r.num := Nat.pos_of_ne_zero hn
    obtain ⟨k, m, hr, hm, place, hk, error, -⟩ := ofRatio_place negative pos hd
    have finite : k * hiddenBit + m < infinityBits := by
      have log : Int.log 2 r.value < 1024 := by
        rw [← Int.lt_zpow_iff_log_lt Nat.one_lt_two (Ratio.value_pos pos hd)]
        exact h.trans overflowThreshold_lt
      rw [hiddenBit_eq] at hm
      rw [infinityBits, hiddenBit_eq]
      by_cases last : k = 2045
      · have bound : (m : ℚ) < 2 ^ 53 := by
          have below : r.value / 2 ^ ((k : Int) - 1074) < 2 ^ 53 - 1 / 2 := by
            rwa [last, div_lt_iff₀ (zpow_pos two_pos _)]
          have := (abs_le.1 error).2
          linarith
        have bound : m < 2 ^ 53 := by exact_mod_cast bound
        omega
      · omega
    have bits : (ofRatio negative r).magnitudeBits = k * hiddenBit + m := by
      rw [hr, Nat.min_eq_left finite.le, ofMagnitude_bits (finite.trans infinityBits_lt)]
    refine ⟨?_, ?_⟩
    · rw [isFinite, bits, decide_eq_true_eq]
      exact finite
    · have step : (0 : ℚ) < 2 ^ ((k : Int) - 1074) := zpow_pos two_pos _
      rw [ratio_value_of_bits bits hm hk]
      calc |(m : ℚ) * 2 ^ ((k : Int) - 1074) - r.value|
          = |(m : ℚ) - r.value / 2 ^ ((k : Int) - 1074)| * 2 ^ ((k : Int) - 1074) := by
            rw [← abs_of_pos step, ← abs_mul, abs_of_pos step, sub_mul, div_mul_cancel₀ _ step.ne']
        _ ≤ 1 / 2 * 2 ^ ((k : Int) - 1074) := mul_le_mul_of_nonneg_right error step.le
        _ = 2 ^ ((k : Int) - 1074) / 2 := by ring
        _ ≤ _ := half_place_le pos hd place

theorem ofRatio_overflow (hd : 0 < r.den) (h : (2 : ℚ) ^ (1024 : Int) ≤ r.value) :
    ofRatio negative r = infinity negative := by
  have value : 0 < r.value := lt_of_lt_of_le (zpow_pos two_pos _) h
  have pos : 0 < r.num := Ratio.num_pos_of_value_pos value
  obtain ⟨k, m, hr, -, place, hk, -⟩ := ofRatio_place negative pos hd
  have log : 1024 ≤ Int.log 2 r.value := by
    rwa [← Int.zpow_le_iff_le_log Nat.one_lt_two value]
  have beyond : infinityBits ≤ k * hiddenBit + m := by
    rw [hiddenBit_eq] at hk
    rw [infinityBits, hiddenBit_eq]
    omega
  rw [hr, Nat.min_eq_right beyond, infinity]

theorem infinity_not_isFinite (negative : Bool) : (infinity negative).isFinite = false := by
  rw [isFinite, infinity, ofMagnitude_bits infinityBits_lt, decide_eq_false (lt_irrefl _)]

theorem isZero_iff : x.isZero ↔ x.ratio.value = 0 := by
  have fields : 2 ^ 52 * x.exponentField + x.fractionField = x.magnitudeBits := Nat.div_add_mod _ _
  rw [isZero, decide_eq_true_eq, ratio_value, mul_eq_zero, or_iff_left (zpow_pos two_pos _).ne', Nat.cast_eq_zero,
    significand, hiddenBit_eq]
  split <;> omega

theorem ofRatio_error (negative : Bool) (hd : 0 < r.den) (h : r.value < overflowThreshold) :
    |(ofRatio negative r).ratio.value - r.value| ≤ r.value / 200 + 1 / 200 := by
  have place : (2 : ℚ) ^ (-53 : Int) ≤ 1 / 200 := by norm_num
  have least : (2 : ℚ) ^ (-1075 : Int) ≤ 1 / 200 := le_trans (zpow_le_zpow_right₀ one_le_two (by decide)) place
  have nonneg : 0 ≤ r.value := div_nonneg (Nat.cast_nonneg _) (Nat.cast_nonneg _)
  calc |(ofRatio negative r).ratio.value - r.value| ≤ r.value * 2 ^ (-53 : Int) + 2 ^ (-1075 : Int) :=
        (ofRatio_near hd h).2
    _ ≤ r.value * (1 / 200) + 1 / 200 := add_le_add (mul_le_mul_of_nonneg_left place nonneg) least
    _ = r.value / 200 + 1 / 200 := by ring

structure IsSize (x : Binary64) : Prop where
  finite : x.isFinite
  positive : x.isNegative = false

theorem IsSize.signed (hx : x.IsSize) (negative : Bool) :
    (if negative then x.neg else x).isFinite ∧ (if negative then x.neg else x).isNegative = negative := by
  cases negative with
  | false => exact ⟨hx.finite, hx.positive⟩
  | true =>
    have bound : x.magnitudeBits < signBit := Nat.mod_lt _ (by decide)
    rw [if_pos rfl, neg, ofMagnitude_isNegative bound, isFinite, ofMagnitude_bits bound, hx.positive]
    exact ⟨hx.finite, rfl⟩

structure Close (x : Binary64) (size : ℚ) : Prop extends x.IsSize where
  low : 99 / 100 * size ≤ x.ratio.value
  high : x.ratio.value ≤ 101 / 100 * size

theorem Close.not_isZero {size : ℚ} (hx : x.Close size) (hs : 0 < size) : ¬x.isZero := by
  rw [isZero_iff]
  have low := hx.low
  intro h
  linarith

theorem ofRatio_close (hd : 0 < r.den) (one : 1 ≤ r.value) (h : r.value < overflowThreshold) :
    (ofRatio false r).Close r.value := by
  obtain ⟨below, above⟩ := abs_le.1 (ofRatio_error false hd h)
  refine ⟨⟨(ofRatio_near hd h).1, ofRatio_isNegative _ _⟩, ?_, ?_⟩ <;> linarith

end Binary64

end Schemata
