import Mathlib.Algebra.Order.Field.Power
import Mathlib.Algebra.Order.Floor.Semifield
import Mathlib.Data.Int.Log
import Mathlib.Data.Rat.Floor
import Mathlib.Tactic.FieldSimp
import Mathlib.Tactic.Linarith
import Mathlib.Tactic.Positivity
import Schemata.Number.Shortest
/-!
How quotients are rounded to double precision. The result depends on the number that a quotient stands for, not on
how it is written; a number that double precision has is kept, and so the shortest decimal reads back.
-/

namespace Schemata

namespace Ratio

variable {r s : Ratio} {base : Nat}

def value (r : Ratio) : ℚ := r.num / r.den

theorem value_eq_zero (hd : 0 < r.den) : r.value = 0 ↔ r.num = 0 := by
  have den : (r.den : ℚ) ≠ 0 := Nat.cast_ne_zero.2 hd.ne'
  rw [value, div_eq_zero_iff, or_iff_left den, Nat.cast_eq_zero]

theorem value_pos (hn : 0 < r.num) (hd : 0 < r.den) : 0 < r.value :=
  div_pos (Nat.cast_pos.2 hn) (Nat.cast_pos.2 hd)

theorem ofNat_value (n : Nat) : (ofNat n).value = n := by simp [value, ofNat]

theorem scaled_num_pos (hb : 0 < base) (hn : 0 < r.num) (e : Int) : 0 < (r.scaled base e).num :=
  Nat.mul_pos hn (Nat.pow_pos hb)

theorem scaled_den_pos (hb : 0 < base) (hd : 0 < r.den) (e : Int) : 0 < (r.scaled base e).den :=
  Nat.mul_pos hd (Nat.pow_pos hb)

theorem scaled_value (hb : 0 < base) (r : Ratio) (e : Int) : (r.scaled base e).value = r.value * (base : ℚ) ^ e := by
  have nonzero : (base : ℚ) ≠ 0 := Nat.cast_ne_zero.2 hb.ne'
  have split : (base : ℚ) ^ e = (base : ℚ) ^ e.toNat / (base : ℚ) ^ (-e).toNat := by
    rw [← zpow_natCast, ← zpow_natCast, ← zpow_sub₀ nonzero]
    congr 1
    omega
  rw [split, value, value, scaled, Nat.pow_eq, Nat.pow_eq]
  push_cast
  rw [div_mul_div_comm]

theorem floor_eq (r : Ratio) : r.floor = ⌊r.value⌋₊ := (Nat.floor_div_eq_div r.num r.den).symm

theorem log_eq_of_bounds {q : ℚ} {e : Int} (low : (2 : ℚ) ^ e ≤ q) (high : q < (2 : ℚ) ^ (e + 1)) :
    Int.log 2 q = e := by
  have pos : 0 < q := lt_of_lt_of_le (zpow_pos two_pos e) low
  have below : e ≤ Int.log 2 q := (Int.zpow_le_iff_le_log Nat.one_lt_two pos).1 low
  have above : Int.log 2 q < e + 1 := (Int.lt_zpow_iff_log_lt Nat.one_lt_two pos).1 high
  omega

theorem natLog2_bounds {n : Nat} (h : 0 < n) :
    (2 : ℚ) ^ (n.log2 : Int) ≤ n ∧ (n : ℚ) < (2 : ℚ) ^ ((n.log2 : Int) + 1) := by
  have low : 2 ^ n.log2 ≤ n := Nat.log2_self_le h.ne'
  have high : n < 2 ^ (n.log2 + 1) := Nat.lt_log2_self
  constructor
  · exact_mod_cast low
  · exact_mod_cast high

theorem log2_eq (hn : 0 < r.num) (hd : 0 < r.den) : r.log2 = Int.log 2 r.value := by
  obtain ⟨num_low, num_high⟩ := natLog2_bounds hn
  obtain ⟨den_low, den_high⟩ := natLog2_bounds hd
  have den : (0 : ℚ) < r.den := Nat.cast_pos.2 hd
  rw [log2]
  generalize he : (r.num.log2 : Int) - r.den.log2 = e
  have low : (2 : ℚ) ^ (e - 1) ≤ r.value := by
    rw [value, le_div_iff₀ den]
    calc (2 : ℚ) ^ (e - 1) * r.den ≤ 2 ^ (e - 1) * 2 ^ ((r.den.log2 : Int) + 1) := by gcongr
      _ = 2 ^ (r.num.log2 : Int) := by
        rw [← zpow_add₀ two_ne_zero]
        congr 1
        omega
      _ ≤ r.num := num_low
  have high : r.value < (2 : ℚ) ^ (e + 1) := by
    rw [value, div_lt_iff₀ den]
    calc (r.num : ℚ) < 2 ^ ((r.num.log2 : Int) + 1) := num_high
      _ = 2 ^ (e + 1) * 2 ^ (r.den.log2 : Int) := by
        rw [← zpow_add₀ two_ne_zero]
        congr 1
        omega
      _ ≤ 2 ^ (e + 1) * r.den := by gcongr
  -- Which of the two exponents it is shows in the quotient that is scaled by the greater one.
  have compared : (r.scaled 2 (-e)).num < (r.scaled 2 (-e)).den ↔ r.value < (2 : ℚ) ^ e := by
    have scaled_den : (0 : ℚ) < (r.scaled 2 (-e)).den := Nat.cast_pos.2 (scaled_den_pos Nat.two_pos hd _)
    rw [← Nat.cast_lt (α := ℚ), ← div_lt_one scaled_den, ← value, scaled_value Nat.two_pos, zpow_neg, Nat.cast_two,
      ← div_eq_mul_inv, div_lt_one (zpow_pos two_pos e)]
  simp only [compared]
  split
  · next below => exact (log_eq_of_bounds low (by rwa [Int.sub_add_cancel])).symm
  · next above => exact (log_eq_of_bounds (not_lt.1 above) high).symm

theorem round_eq (hd : 0 < r.den) : r.round =
    if 2 * (r.value - r.floor) < 1 ∨ (2 * (r.value - r.floor) = 1 ∧ r.floor % 2 = 0) then r.floor else r.floor + 1 := by
  have den : (0 : ℚ) < r.den := Nat.cast_pos.2 hd
  have rest : r.value - r.floor = ((r.num % r.den : Nat) : ℚ) / r.den := by
    have split : (r.num : ℚ) = r.den * r.floor + (r.num % r.den : Nat) := by
      exact_mod_cast (Nat.div_add_mod r.num r.den).symm
    rw [value, split, add_div, mul_div_cancel_left₀ _ den.ne', add_sub_cancel_left]
  have below : 2 * (r.value - r.floor) < 1 ↔ 2 * (r.num % r.den) < r.den := by
    rw [rest, ← mul_div_assoc, div_lt_one den]
    exact_mod_cast Iff.rfl
  have half : 2 * (r.value - r.floor) = 1 ↔ 2 * (r.num % r.den) = r.den := by
    rw [rest, ← mul_div_assoc, div_eq_one_iff_eq den.ne']
    exact_mod_cast Iff.rfl
  simp only [round, below, half]

theorem round_congr (hr : 0 < r.den) (hs : 0 < s.den) (h : r.value = s.value) : r.round = s.round := by
  rw [round_eq hr, round_eq hs, floor_eq r, floor_eq s, h]

theorem round_le_floor_succ (r : Ratio) : r.round = r.floor ∨ r.round = r.floor + 1 := by
  rw [round]
  split
  · exact .inl rfl
  · exact .inr rfl

theorem round_of_value {n : Nat} (hd : 0 < r.den) (h : r.value = n) : r.round = n := by
  have floor : r.floor = n := by rw [floor_eq, h, Nat.floor_natCast]
  rw [round_eq hd, floor, h, if_pos]
  left
  norm_num

theorem round_of_lt_half (hd : 0 < r.den) (h : r.value < 1 / 2) : r.round = 0 := by
  have floor : r.floor = 0 := by
    rw [floor_eq, Nat.floor_eq_zero]
    linarith
  rw [round_eq hd, floor, if_pos]
  left
  push_cast
  linarith

end Ratio

namespace Binary64

variable {negative : Bool} {r s : Ratio} {x : Binary64}

theorem hiddenBit_eq : hiddenBit = 2 ^ 52 := rfl

theorem ofRatio_eq (hn : 0 < r.num) (hd : 0 < r.den) : ofRatio negative r =
    ofMagnitude negative (min ((max (Int.log 2 r.value - 52) (-1074) + 1074).toNat * hiddenBit +
      (r.scaled 2 (-max (Int.log 2 r.value - 52) (-1074))).round) infinityBits) := by
  rw [ofRatio, if_neg (by omega), Ratio.log2_eq hn hd]

theorem ofRatio_congr (hr : 0 < r.den) (hs : 0 < s.den) (h : r.value = s.value) :
    ofRatio negative r = ofRatio negative s := by
  by_cases hn : r.num = 0
  · have hn' : s.num = 0 := by rw [← Ratio.value_eq_zero hs, ← h, Ratio.value_eq_zero hr, hn]
    rw [ofRatio, ofRatio, if_pos (.inl hn), if_pos (.inl hn')]
  · have hn' : s.num ≠ 0 := by rwa [ne_eq, ← Ratio.value_eq_zero hs, ← h, Ratio.value_eq_zero hr]
    rw [ofRatio_eq (Nat.pos_of_ne_zero hn) hr, ofRatio_eq (Nat.pos_of_ne_zero hn') hs, h]
    congr 3
    apply Ratio.round_congr (Ratio.scaled_den_pos Nat.two_pos hr _) (Ratio.scaled_den_pos Nat.two_pos hs _)
    rw [Ratio.scaled_value Nat.two_pos, Ratio.scaled_value Nat.two_pos, h]

theorem ofRatio_of_large (hd : 0 < r.den) (h : (2 : ℚ) ^ (1025 : Int) ≤ r.value) :
    ofRatio negative r = infinity negative := by
  have pos : 0 < r.value := lt_of_lt_of_le (zpow_pos two_pos _) h
  have hn : 0 < r.num := by
    apply Nat.pos_of_ne_zero
    intro hn
    rw [(Ratio.value_eq_zero hd).2 hn] at pos
    exact lt_irrefl 0 pos
  have log : 1025 ≤ Int.log 2 r.value := (Int.zpow_le_iff_le_log Nat.one_lt_two pos).1 h
  rw [ofRatio_eq hn hd, infinity]
  congr 1
  apply Nat.min_eq_right
  have steps : 2047 ≤ (max (Int.log 2 r.value - 52) (-1074) + 1074).toNat := by omega
  exact Nat.le_add_right_of_le (Nat.mul_le_mul_right hiddenBit steps)

theorem ofRatio_of_small (hn : 0 < r.num) (hd : 0 < r.den) (h : r.value < (2 : ℚ) ^ (-1075 : Int)) :
    ofRatio negative r = zero negative := by
  have log : Int.log 2 r.value < -1075 := (Int.lt_zpow_iff_log_lt Nat.one_lt_two (Ratio.value_pos hn hd)).1 h
  have place : max (Int.log 2 r.value - 52) (-1074) = -1074 := by omega
  have rounded : (r.scaled 2 (- -1074)).round = 0 := by
    apply Ratio.round_of_lt_half (Ratio.scaled_den_pos Nat.two_pos hd _)
    rw [Ratio.scaled_value Nat.two_pos, Nat.cast_two]
    calc r.value * (2 : ℚ) ^ (- -1074 : Int) < 2 ^ (-1075 : Int) * 2 ^ (- -1074 : Int) :=
          mul_lt_mul_of_pos_right h (zpow_pos two_pos _)
      _ = 2 ^ (-1 : Int) := (zpow_add₀ two_ne_zero _ _).symm
      _ = 1 / 2 := by norm_num
  rw [ofRatio_eq hn hd, place, rounded]
  rfl

theorem largest_lt : (2 : ℚ) ^ (1025 : Int) ≤ 10 ^ (310 : Int) := by
  have step : (2 : ℚ) ^ 205 ≤ 10 ^ 62 := by norm_num
  have power := pow_le_pow_left₀ (by norm_num) step 5
  rw [← pow_mul, ← pow_mul, ← zpow_natCast, ← zpow_natCast] at power
  exact power

theorem lt_smallest : (10 : ℚ) ^ (-400 : Int) < 2 ^ (-1075 : Int) := by
  have step : (2 : ℚ) ^ 43 < 10 ^ 16 := by norm_num
  have power := pow_lt_pow_left₀ step (by norm_num) (n := 25) (by decide)
  rw [← pow_mul, ← pow_mul, ← zpow_natCast, ← zpow_natCast] at power
  rw [zpow_neg, zpow_neg]
  exact inv_strictAnti₀ (zpow_pos two_pos _) power

theorem ofScientific_eq (significand : Nat) (exponent : Int) : ofScientific negative significand exponent =
    ofRatio negative ((Ratio.ofNat significand).scaled 10 exponent) := by
  have ten : 0 < 10 := by decide
  rw [ofScientific]
  split
  · next hz => rw [ofRatio, if_pos (.inl (by rw [hz]; exact Nat.zero_mul _))]
  · next hz =>
    have pos : 0 < significand := Nat.pos_of_ne_zero hz
    have hn := Ratio.scaled_num_pos (r := .ofNat significand) ten pos exponent
    have hd := Ratio.scaled_den_pos (r := .ofNat significand) ten Nat.one_pos exponent
    have value : ((Ratio.ofNat significand).scaled 10 exponent).value = significand * (10 : ℚ) ^ exponent := by
      rw [Ratio.scaled_value ten, Ratio.ofNat_value, Nat.cast_ofNat]
    split
    · next high =>
      refine (ofRatio_of_large hd ?_).symm
      rw [value]
      calc (2 : ℚ) ^ (1025 : Int) ≤ 10 ^ (310 : Int) := largest_lt
        _ ≤ 10 ^ exponent := zpow_le_zpow_right₀ (by norm_num) high
        _ ≤ significand * 10 ^ exponent := by
          have one_le : (1 : ℚ) ≤ significand := Nat.one_le_cast.2 pos
          exact le_mul_of_one_le_left (zpow_pos (by norm_num) _).le one_le
    · split
      · next low =>
        refine (ofRatio_of_small hn hd ?_).symm
        rw [value]
        obtain ⟨-, log⟩ := Ratio.natLog2_bounds pos
        have size : (significand : ℚ) ≤ 10 ^ ((significand.log2 : Int) + 1) :=
          log.le.trans (zpow_le_zpow_left₀ (by omega) two_pos.le (by norm_num))
        calc significand * (10 : ℚ) ^ exponent ≤ 10 ^ ((significand.log2 : Int) + 1) * 10 ^ exponent := by gcongr
          _ = 10 ^ ((significand.log2 : Int) + 1 + exponent) := (zpow_add₀ (by norm_num) _ _).symm
          _ ≤ 10 ^ (-400 : Int) := zpow_le_zpow_right₀ (by norm_num) (by omega)
          _ < 2 ^ (-1075 : Int) := lt_smallest
      · rfl

theorem ofScientific_congr {significand significand' : Nat} {exponent exponent' : Int}
    (h : (significand : ℚ) * 10 ^ exponent = significand' * 10 ^ exponent') :
    ofScientific negative significand exponent = ofScientific negative significand' exponent' := by
  have ten : 0 < 10 := by decide
  rw [ofScientific_eq, ofScientific_eq]
  apply ofRatio_congr (Ratio.scaled_den_pos ten Nat.one_pos _) (Ratio.scaled_den_pos ten Nat.one_pos _)
  simpa only [Ratio.scaled_value ten, Ratio.ofNat_value, Nat.cast_ofNat] using h

theorem ofMagnitude_magnitudeBits (x : Binary64) : ofMagnitude x.isNegative x.magnitudeBits = x := by
  have bound : x.bits.toNat < 2 ^ 64 := x.bits.toNat_lt
  have sum : x.magnitudeBits + (if x.isNegative then signBit else 0) = x.bits.toNat := by
    have sign : signBit = 2 ^ 63 := rfl
    rw [magnitudeBits, isNegative, sign]
    by_cases h : 2 ^ 63 ≤ x.bits.toNat
    · rw [decide_eq_true h, if_pos rfl]
      omega
    · rw [decide_eq_false h, if_neg Bool.false_ne_true]
      omega
  rw [ofMagnitude, sum, Nat.toUInt64_eq, UInt64.ofNat_toNat]

theorem significand_bounds (x : Binary64) :
    x.significand < 2 ^ 53 ∧ (x.exponentField = 0 ∨ 2 ^ 52 ≤ x.significand) := by
  have fraction : x.fractionField < 2 ^ 52 := Nat.mod_lt _ (by decide)
  rw [significand, hiddenBit_eq]
  split <;> omega

theorem magnitudeBits_eq (x : Binary64) : x.magnitudeBits = (x.scale + 1074).toNat * hiddenBit + x.significand := by
  have fields : 2 ^ 52 * x.exponentField + x.fractionField = x.magnitudeBits := Nat.div_add_mod _ _
  rw [significand, scale, hiddenBit_eq]
  split <;> omega

theorem ratio_den_pos (x : Binary64) : 0 < x.ratio.den := Ratio.scaled_den_pos Nat.two_pos Nat.one_pos _

theorem ratio_value (x : Binary64) : x.ratio.value = x.significand * (2 : ℚ) ^ x.scale := by
  rw [ratio, Ratio.scaled_value Nat.two_pos, Ratio.ofNat_value, Nat.cast_two]

theorem ratio_place (h : 0 < x.significand) : max (Int.log 2 x.ratio.value - 52) (-1074) = x.scale := by
  obtain ⟨high, low⟩ := significand_bounds x
  have pos : (0 : ℚ) < x.ratio.value := by
    rw [ratio_value]
    exact mul_pos (Nat.cast_pos.2 h) (zpow_pos two_pos _)
  have above : Int.log 2 x.ratio.value < x.scale + 53 := by
    rw [← Int.lt_zpow_iff_log_lt Nat.one_lt_two pos, ratio_value, Nat.cast_two, zpow_add₀ two_ne_zero, mul_comm]
    have bound : (x.significand : ℚ) < 2 ^ (53 : Int) := by exact_mod_cast high
    gcongr
  rcases low with subnormal | normal
  · have scale : x.scale = -1074 := by rw [scale, subnormal]; rfl
    have fraction : x.significand < 2 ^ 52 := by
      rw [significand, if_pos subnormal]
      exact Nat.mod_lt _ (by decide)
    have below : Int.log 2 x.ratio.value < x.scale + 52 := by
      rw [← Int.lt_zpow_iff_log_lt Nat.one_lt_two pos, ratio_value, Nat.cast_two, zpow_add₀ two_ne_zero, mul_comm]
      have bound : (x.significand : ℚ) < 2 ^ (52 : Int) := by exact_mod_cast fraction
      gcongr
    omega
  · have below : x.scale + 52 ≤ Int.log 2 x.ratio.value := by
      rw [← Int.zpow_le_iff_le_log Nat.one_lt_two pos, ratio_value, Nat.cast_two, zpow_add₀ two_ne_zero, mul_comm]
      have bound : (2 : ℚ) ^ (52 : Int) ≤ x.significand := by exact_mod_cast normal
      gcongr
    have least : -1074 ≤ x.scale := by rw [scale]; omega
    omega

theorem ofRatio_self (hf : x.isFinite) (hd : 0 < r.den) (h : r.value = x.ratio.value) :
    ofRatio x.isNegative r = x := by
  rw [ofRatio_congr hd x.ratio_den_pos h]
  by_cases hz : x.significand = 0
  · have bits : x.magnitudeBits = 0 := by
      rcases (significand_bounds x).2 with field | normal
      · rw [magnitudeBits_eq, hz, scale, field]
        rfl
      · omega
    have num : x.ratio.num = 0 := by rw [ratio, hz]; exact Nat.zero_mul _
    rw [ofRatio, if_pos (.inl num), zero, ← bits, ofMagnitude_magnitudeBits]
  · have pos : 0 < x.significand := Nat.pos_of_ne_zero hz
    have num : 0 < x.ratio.num := Ratio.scaled_num_pos Nat.two_pos pos _
    have rounded : (x.ratio.scaled 2 (-x.scale)).round = x.significand := by
      apply Ratio.round_of_value (Ratio.scaled_den_pos Nat.two_pos x.ratio_den_pos _)
      rw [Ratio.scaled_value Nat.two_pos, ratio_value, Nat.cast_two, mul_assoc, ← zpow_add₀ two_ne_zero, add_neg_cancel,
        zpow_zero, mul_one]
    have finite : x.magnitudeBits < infinityBits := of_decide_eq_true hf
    rw [ofRatio_eq num x.ratio_den_pos, ratio_place pos, rounded, ← magnitudeBits_eq, Nat.min_eq_left finite.le,
      ofMagnitude_magnitudeBits]

theorem exactDecimal_value (x : Binary64) :
    (x.exactDecimal.digits : ℚ) * 10 ^ x.exactDecimal.exponent = x.ratio.value := by
  -- On the finest grid a power of ten makes up for the power of two.
  have whole : ∃ n : Nat, x.ratio.value * (10 : ℚ) ^ (-x.bottomExponent) = n := by
    rw [ratio_value, bottomExponent]
    rcases le_total 0 x.scale with hs | hs
    · obtain ⟨k, hk⟩ := Int.eq_ofNat_of_zero_le hs
      refine ⟨x.significand * 2 ^ k, ?_⟩
      rw [min_eq_right hs, hk]
      simp
    · obtain ⟨k, hk⟩ := Int.exists_eq_neg_ofNat hs
      refine ⟨x.significand * 5 ^ k, ?_⟩
      rw [min_eq_left hs, hk, neg_neg, zpow_neg, zpow_natCast, zpow_natCast, Nat.cast_mul, Nat.cast_pow, mul_assoc]
      congr 1
      rw [inv_mul_eq_div, ← div_pow]
      norm_num
  obtain ⟨n, hn⟩ := whole
  have digits : x.exactDecimal.digits = n := by
    rw [exactDecimal, Ratio.floor_eq, Ratio.scaled_value (by decide), Nat.cast_ofNat, hn, Nat.floor_natCast]
  rw [digits, ← hn, exactDecimal, mul_assoc, ← zpow_add₀ (by norm_num), neg_add_cancel, zpow_zero, mul_one]

theorem exactDecimal_readsBack (hf : x.isFinite) : x.readsBack x.exactDecimal := by
  have ten : 0 < 10 := by decide
  rw [readsBack, decide_eq_true_eq, ofScientific_eq]
  apply ofRatio_self hf (Ratio.scaled_den_pos ten Nat.one_pos _)
  rw [Ratio.scaled_value ten, Ratio.ofNat_value, Nat.cast_ofNat, exactDecimal_value]

theorem onGrid?_readsBack {t : Int} {d : Decimal} (h : x.onGrid? t = some d) : x.readsBack d := by
  simp only [onGrid?] at h
  split at h
  · next below above =>
    obtain rfl := Option.some.inj h
    rcases Ratio.round_le_floor_succ (x.ratio.scaled 10 (-t)) with hr | hr
    · rwa [hr]
    · rwa [hr]
  · next below _ => exact Option.some.inj h ▸ below
  · next _ above => exact Option.some.inj h ▸ above
  · cases h

theorem shortest_readsBack (hf : x.isFinite) : x.readsBack x.shortest := by
  simp only [shortest]
  cases h : (List.range (x.topExponent - x.bottomExponent).toNat).findSome? fun i : Nat =>
      x.onGrid? (x.topExponent - i) with
  | none => exact exactDecimal_readsBack hf
  | some d =>
    obtain ⟨i, -, hi⟩ := List.exists_of_findSome?_eq_some h
    exact onGrid?_readsBack hi

end Binary64

end Schemata
