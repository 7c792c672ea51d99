import Schemata.Proofs.Json.Number
import Schemata.Proofs.Number.Precision
import Schemata.Proofs.Number.Writing
/-!
Which numerals are in range. The leading digits that 64 bits hold are as good as the whole numeral, and so is what
double precision makes of them: whatever is no greater than `10 ^ 308` is read, and nothing from `2 * 10 ^ 308` on.
-/

namespace Schemata

open Json (absorb significandLimit leadingDigits powerOfTen scaleUp? scaleDown scaleStep scale? magnitude?)

variable {n : Numeral} {s : Nat} {digits : List Char} {x : Binary64}

theorem digitsValue_append (digits more : List Char) :
    digitsValue (digits ++ more) = digitsValue digits * 10 ^ more.length + digitsValue more := by
  rw [digitsValue_eq, Nat.ofDigitChars_append, Nat.ofDigitChars_eq_ofDigitChars_zero, ← digitsValue_eq,
    ← digitsValue_eq, Nat.mul_comm]

theorem digitsValue_cons (d : Char) (digits : List Char) :
    digitsValue (d :: digits) = digitsValue [d] * 10 ^ digits.length + digitsValue digits :=
  digitsValue_append [d] digits

theorem digitsValue_digit {d : Char} (h : d.isDigit) : digitsValue [d] ≤ 9 := by
  have bound : d.toNat ≤ 57 := by
    simp only [Char.isDigit, Bool.and_eq_true, decide_eq_true_eq, UInt32.le_iff_toNat_le] at h
    exact h.2
  have zero : '0'.toNat = 48 := rfl
  rw [digitsValue, List.foldl_cons, List.foldl_nil, zero]
  omega

theorem digitsValue_lt (h : ∀ d ∈ digits, d.isDigit) : digitsValue digits < 10 ^ digits.length := by
  induction digits with
  | nil => exact Nat.one_pos
  | cons d digits ih =>
    obtain ⟨hd, rest⟩ := List.forall_mem_cons.1 h
    have digit := digitsValue_digit hd
    have below := ih rest
    rw [digitsValue_cons, List.length_cons, Nat.pow_succ]
    nlinarith

structure KeepsLeading (number kept dropped : Nat) : Prop where
  fits : kept < significandLimit
  low : kept * 10 ^ dropped ≤ number
  high : number < (kept + 1) * 10 ^ dropped
  full : dropped = 0 ∨ significandLimit ≤ 10 * kept + 9

theorem absorb_le (s : Nat) (digits : List Char) : (absorb s digits).2 ≤ digits.length := by
  induction digits generalizing s with
  | nil => exact Nat.le_refl 0
  | cons d digits ih =>
    rw [absorb]
    split
    · exact (ih _).trans (Nat.le_succ _)
    · exact Nat.le_refl _

theorem absorb_keepsLeading (hs : s < significandLimit) (h : ∀ d ∈ digits, d.isDigit) :
    KeepsLeading (s * 10 ^ digits.length + digitsValue digits) (absorb s digits).1 (absorb s digits).2 := by
  induction digits generalizing s with
  | nil => exact ⟨hs, by simp [absorb, digitsValue], by simp [absorb, digitsValue], .inl rfl⟩
  | cons d digits ih =>
    obtain ⟨hd, rest⟩ := List.forall_mem_cons.1 h
    have digit := digitsValue_digit hd
    have value : s * 10 ^ (d :: digits).length + digitsValue (d :: digits) =
        (10 * s + digitsValue [d]) * 10 ^ digits.length + digitsValue digits := by
      rw [digitsValue_cons, List.length_cons, Nat.pow_succ]
      ring
    rw [value, absorb]
    split
    · next fits => exact ih fits rest
    · next full =>
      have below := digitsValue_lt rest
      refine ⟨hs, ?_, ?_, .inr ?_⟩
      · rw [Nat.pow_succ]
        nlinarith
      · rw [Nat.pow_succ]
        nlinarith
      · omega

namespace KeepsLeading

variable {number kept dropped : Nat} (h : KeepsLeading number kept dropped)
include h

theorem near : 99 * (kept * 10 ^ dropped) ≤ 100 * number ∧ 99 * number ≤ 100 * (kept * 10 ^ dropped) := by
  obtain ⟨-, low, high, full⟩ := h
  rcases full with rfl | full
  · omega
  · have limit : significandLimit = 2 ^ 64 := rfl
    have size : 99 * ((kept + 1) * 10 ^ dropped) ≤ 100 * (kept * 10 ^ dropped) := by
      rw [← Nat.mul_assoc, ← Nat.mul_assoc]
      exact Nat.mul_le_mul_right _ (by omega)
    omega

theorem le_kept {whole places : Nat} (hp : dropped ≤ places) (hw : whole * 10 ^ places ≤ number) :
    whole * 10 ^ places ≤ kept * 10 ^ dropped := by
  have split : 10 ^ places = 10 ^ (places - dropped) * 10 ^ dropped := by rw [← Nat.pow_add, Nat.sub_add_cancel hp]
  have below := hw.trans_lt h.high
  rw [split, ← Nat.mul_assoc] at below ⊢
  exact Nat.mul_le_mul_right _ (Nat.lt_succ_iff.1 (Nat.lt_of_mul_lt_mul_right below))

end KeepsLeading

theorem KeepsLeading.append {whole w more fraction places kept dropped : Nat} (hw : KeepsLeading whole w more)
    (hf : KeepsLeading (w * 10 ^ places + fraction) kept dropped) (hp : dropped ≤ places) (hl : fraction < 10 ^ places) :
    99 * (kept * 10 ^ (more + dropped)) ≤ 100 * (whole * 10 ^ places + fraction) ∧
      99 * (whole * 10 ^ places + fraction) ≤ 100 * (kept * 10 ^ (more + dropped)) := by
  obtain ⟨-, low, high, full⟩ := hw
  rcases full with rfl | full
  · obtain rfl : whole = w := by omega
    rw [Nat.zero_add]
    exact hf.near
  · -- Both numbers lie between two neighbouring multiples of this unit, as the whole part alone does.
    have limit : significandLimit = 2 ^ 64 := rfl
    have kept_low := hf.le_kept hp (Nat.le_add_right _ _)
    have kept_high : kept * 10 ^ dropped ≤ (w + 1) * 10 ^ places := by
      have := hf.low
      rw [Nat.succ_mul]
      omega
    have unit : kept * 10 ^ (more + dropped) = kept * 10 ^ dropped * 10 ^ more := by ring
    have number_low : w * 10 ^ places * 10 ^ more ≤ whole * 10 ^ places + fraction := by
      calc w * 10 ^ places * 10 ^ more = w * 10 ^ more * 10 ^ places := by ring
        _ ≤ whole * 10 ^ places := Nat.mul_le_mul_right _ low
        _ ≤ _ := Nat.le_add_right _ _
    have number_high : whole * 10 ^ places + fraction ≤ (w + 1) * 10 ^ places * 10 ^ more := by
      calc whole * 10 ^ places + fraction ≤ (whole + 1) * 10 ^ places := by
            rw [Nat.succ_mul]
            omega
        _ ≤ (w + 1) * 10 ^ more * 10 ^ places := Nat.mul_le_mul_right _ high
        _ = (w + 1) * 10 ^ places * 10 ^ more := by ring
    have kept_low := Nat.mul_le_mul_right (10 ^ more) kept_low
    have kept_high := Nat.mul_le_mul_right (10 ^ more) kept_high
    have size : 99 * ((w + 1) * 10 ^ places * 10 ^ more) ≤ 100 * (w * 10 ^ places * 10 ^ more) := by
      have factor : 99 * (w + 1) ≤ 100 * w := by omega
      simpa only [Nat.mul_assoc] using Nat.mul_le_mul_right (10 ^ places * 10 ^ more) factor
    omega

theorem leadingDigits_near (hn : n.WellFormed) : ∃ places : Nat,
    (leadingDigits n).2 = (places : Int) - n.fraction.length ∧ (leadingDigits n).1 < significandLimit ∧
      99 * ((leadingDigits n).1 * 10 ^ places) ≤ 100 * n.significand ∧
      99 * n.significand ≤ 100 * ((leadingDigits n).1 * 10 ^ places) := by
  have whole := absorb_keepsLeading (s := 0) (by decide) hn.whole
  have fraction := absorb_keepsLeading whole.fits hn.fraction
  have length := absorb_le (absorb 0 n.whole).1 n.fraction
  rw [Nat.zero_mul, Nat.zero_add] at whole
  rw [leadingDigits, Numeral.significand, digitsValue_append]
  refine ⟨(absorb 0 n.whole).2 + (absorb (absorb 0 n.whole).1 n.fraction).2, ?_, fraction.fits, ?_⟩
  · dsimp only
    omega
  · exact whole.append fraction length (digitsValue_lt hn.fraction)

def greatestPower : ℚ := 10 ^ (308 : Int)

theorem greatestPower_pos : 0 < greatestPower := zpow_pos (by norm_num) _

theorem le_greatestPower {e : Int} (h : e ≤ 308) : (10 : ℚ) ^ e ≤ greatestPower := zpow_le_zpow_right₀ (by norm_num) h

theorem greatestPower_lt_threshold : 13 / 10 * greatestPower < Binary64.overflowThreshold := by
  have powers : ((13 * 10 ^ 308 : Nat) : ℚ) < ((2 ^ 53 - 1) * 2 ^ 971 * 10 : Nat) :=
    Nat.cast_lt.2 (by decide +kernel)
  have pos : (0 : ℚ) < 2 ^ 971 := pow_pos two_pos _
  rw [Binary64.overflowThreshold, greatestPower, show (10 : ℚ) ^ (308 : Int) = 10 ^ 308 from zpow_natCast 10 308,
    show (2 : ℚ) ^ (971 : Int) = 2 ^ 971 from zpow_natCast 2 971]
  simp only [Nat.cast_mul, Nat.cast_pow, Nat.cast_ofNat] at powers
  -- The powers are too long to be worked out in rational numbers.
  generalize (10 : ℚ) ^ 308 = ten at powers ⊢
  generalize (2 : ℚ) ^ 971 = two at powers pos ⊢
  norm_num at powers ⊢
  linarith

theorem overflow_le_greatestPower : (2 : ℚ) ^ (1024 : Int) ≤ 18 / 10 * greatestPower := by
  have powers : ((10 * 2 ^ 1024 : Nat) : ℚ) ≤ (18 * 10 ^ 308 : Nat) := Nat.cast_le.2 (by decide +kernel)
  rw [greatestPower, show (10 : ℚ) ^ (308 : Int) = 10 ^ 308 from zpow_natCast 10 308,
    show (2 : ℚ) ^ (1024 : Int) = 2 ^ 1024 from zpow_natCast 2 1024]
  simp only [Nat.cast_mul, Nat.cast_pow, Nat.cast_ofNat] at powers
  generalize (10 : ℚ) ^ 308 = ten at powers ⊢
  generalize (2 : ℚ) ^ 1024 = two at powers ⊢
  linarith

theorem powerOfTen_close {e : Nat} (h : e ≤ scaleStep) : (powerOfTen e).Close (10 ^ (e : Int)) := by
  have value : ((Ratio.ofNat 1).scaled 10 e).value = (10 : ℚ) ^ (e : Int) := by
    rw [Ratio.scaled_value (by decide), Ratio.ofNat_value, Nat.cast_one, one_mul, Nat.cast_ofNat]
  have bound : (10 : ℚ) ^ (e : Int) ≤ greatestPower := le_greatestPower (Int.ofNat_le.2 h)
  have pos := greatestPower_pos
  rw [powerOfTen, Binary64.ofScientific_eq, ← value]
  apply Binary64.ofRatio_close (Ratio.scaled_den_pos (by decide) Nat.one_pos _)
  · rw [value]
    exact one_le_zpow₀ (by norm_num) (Int.natCast_nonneg e)
  · rw [value]
    apply lt_of_le_of_lt _ greatestPower_lt_threshold
    linarith

theorem significand_lt_decimal (h : s < significandLimit) : (s : ℚ) < 10 ^ (20 : Int) := by
  have limit : (s : ℚ) < (2 ^ 64 : Nat) := Nat.cast_lt.2 h
  norm_num at limit ⊢
  linarith

theorem ofNat_close (hs : 0 < s) (h : s < significandLimit) : (Binary64.ofNat false s).Close s := by
  rw [Binary64.ofNat, ← Ratio.ofNat_value]
  apply Binary64.ofRatio_close Nat.one_pos
  · rw [Ratio.ofNat_value]
    exact_mod_cast hs
  · rw [Ratio.ofNat_value]
    have below := (significand_lt_decimal h).trans_le (le_greatestPower (by decide))
    have pos := greatestPower_pos
    apply lt_trans _ greatestPower_lt_threshold
    linarith

theorem ofNat_zero : Binary64.ofNat false 0 = .zero false := rfl

theorem product_bounds {y : Binary64} {a b : ℚ} (hx : x.Close a) (hy : y.Close b) (ha : 0 ≤ a) (hb : 0 ≤ b) :
    98 / 100 * (a * b) ≤ (x.ratio.mul y.ratio).value ∧ (x.ratio.mul y.ratio).value ≤ 103 / 100 * (a * b) := by
  have product : 0 ≤ a * b := mul_nonneg ha hb
  rw [Ratio.mul_value]
  constructor
  · calc 98 / 100 * (a * b) ≤ 99 / 100 * a * (99 / 100 * b) := by linarith
      _ ≤ x.ratio.value * y.ratio.value := mul_le_mul hx.low hy.low (by positivity) (le_trans (by positivity) hx.low)
  · calc x.ratio.value * y.ratio.value ≤ 101 / 100 * a * (101 / 100 * b) :=
          mul_le_mul hx.high hy.high (le_trans (by positivity) hy.low) (by positivity)
      _ ≤ 103 / 100 * (a * b) := by linarith

theorem mul_isFinite {y : Binary64} (h : (x.ratio.mul y.ratio).value < Binary64.overflowThreshold) :
    (x.mul y).isFinite :=
  (Binary64.ofRatio_near (Nat.mul_pos x.ratio_den_pos y.ratio_den_pos) h).1

theorem mul_overflow {y : Binary64} (h : (2 : ℚ) ^ (1024 : Int) ≤ (x.ratio.mul y.ratio).value) :
    (x.mul y).isFinite = false := by
  rw [Binary64.mul, Binary64.ofRatio_overflow (Nat.mul_pos x.ratio_den_pos y.ratio_den_pos) h,
    Binary64.infinity_not_isFinite]

theorem scaleUp?_isSome {e : Nat} (hs : s < significandLimit)
    (h : (s : ℚ) * 10 ^ (e : Int) ≤ 11 / 10 * greatestPower) : (scaleUp? (.ofNat false s) e).isSome := by
  have top := greatestPower_pos
  rw [scaleUp?]
  rcases Nat.eq_zero_or_pos s with rfl | pos
  · have product : ((Binary64.ofNat false 0).ratio.mul (powerOfTen e).ratio).value < Binary64.overflowThreshold := by
      rw [Ratio.mul_value, ofNat_zero, Binary64.zero_ratio, zero_mul]
      exact lt_trans (mul_pos (by norm_num) top) greatestPower_lt_threshold
    split
    · rfl
    · simp [mul_isFinite product]
  · have one : (1 : ℚ) ≤ s := by exact_mod_cast pos
    have inside : e ≤ scaleStep := by
      by_contra beyond
      have great : 10 * greatestPower ≤ 10 ^ (e : Int) := by
        rw [greatestPower, ← zpow_one_add₀ (by norm_num)]
        apply zpow_le_zpow_right₀ (by norm_num)
        simp only [scaleStep] at beyond
        omega
      have least : (10 : ℚ) ^ (e : Int) ≤ s * 10 ^ (e : Int) := le_mul_of_one_le_left (by positivity) one
      linarith
    have product := (product_bounds (ofNat_close pos hs) (powerOfTen_close inside) (by positivity) (by positivity)).2
    have finite : ((Binary64.ofNat false s).mul (powerOfTen e)).isFinite := by
      apply mul_isFinite
      apply lt_of_le_of_lt _ greatestPower_lt_threshold
      linarith
    simp [not_lt.2 inside, finite]

theorem scaleUp?_eq_none {e : Nat} (hs : s < significandLimit)
    (h : 19 / 10 * greatestPower ≤ (s : ℚ) * 10 ^ (e : Int)) : scaleUp? (.ofNat false s) e = none := by
  have top := greatestPower_pos
  have pos : 0 < s := by
    apply Nat.pos_of_ne_zero
    rintro rfl
    rw [Nat.cast_zero, zero_mul] at h
    linarith
  have close := ofNat_close pos hs
  rw [scaleUp?]
  split
  · rw [if_neg (close.not_isZero (by exact_mod_cast pos))]
  · next inside =>
    have product := (product_bounds close (powerOfTen_close (not_lt.1 inside)) (by positivity) (by positivity)).1
    have overflow : ((Binary64.ofNat false s).mul (powerOfTen e)).isFinite = false := by
      apply mul_overflow
      apply le_trans overflow_le_greatestPower
      linarith
    simp [overflow]

theorem scaleUp?_isSize {e : Nat} {y : Binary64} (hx : x.IsSize) (h : scaleUp? x e = some y) : y.IsSize := by
  rw [scaleUp?] at h
  split at h
  · rw [Option.ite_none_right_eq_some] at h
    exact Option.some.inj h.2 ▸ hx
  · next inside =>
    rw [Option.ite_none_right_eq_some] at h
    obtain ⟨finite, hy⟩ := h
    obtain rfl := Option.some.inj hy
    refine ⟨finite, ?_⟩
    rw [Binary64.mul, Binary64.ofRatio_isNegative, hx.positive, (powerOfTen_close (not_lt.1 inside)).positive]
    rfl

section

variable {e : Nat} (hx : x.IsSize) (hb : x.ratio.value ≤ 10 ^ (21 : Int))
include hx hb

theorem div_powerOfTen (he : e ≤ scaleStep) :
    (x.div (powerOfTen e)).IsSize ∧ (e = scaleStep → (x.div (powerOfTen e)).ratio.value ≤ 10 ^ (21 : Int)) := by
  have close := powerOfTen_close he
  have one : (1 : ℚ) ≤ 10 ^ (e : Int) := one_le_zpow₀ (by norm_num) (Int.natCast_nonneg e)
  have divisor : 99 / 100 ≤ (powerOfTen e).ratio.value := by
    have low := close.low
    linarith
  have den : 0 < (x.ratio.div (powerOfTen e).ratio).den :=
    Nat.mul_pos x.ratio_den_pos (Ratio.num_pos_of_value_pos (lt_of_lt_of_le (by norm_num) divisor))
  have nonneg : 0 ≤ x.ratio.value := div_nonneg (Nat.cast_nonneg _) (Nat.cast_nonneg _)
  have quotient : (x.ratio.div (powerOfTen e).ratio).value ≤ 10 ^ (22 : Int) := by
    rw [Ratio.div_value, div_le_iff₀ (lt_of_lt_of_le (by norm_num) divisor)]
    norm_num at hb ⊢
    linarith
  have threshold : (x.ratio.div (powerOfTen e).ratio).value < Binary64.overflowThreshold := by
    have below := quotient.trans (le_greatestPower (by decide))
    have pos := greatestPower_pos
    apply lt_of_le_of_lt _ greatestPower_lt_threshold
    linarith
  refine ⟨⟨(Binary64.ofRatio_near den threshold).1, ?_⟩, ?_⟩
  · rw [Binary64.div, Binary64.ofRatio_isNegative, hx.positive, close.positive]
    rfl
  · rintro rfl
    have two : 2 ≤ (powerOfTen scaleStep).ratio.value := by
      have ten : (10 : ℚ) ^ (1 : Int) ≤ 10 ^ ((scaleStep : Nat) : Int) := zpow_le_zpow_right₀ (by norm_num) (by decide)
      have low := close.low
      rw [zpow_one] at ten
      linarith
    have half : (x.ratio.div (powerOfTen scaleStep).ratio).value ≤ 10 ^ (21 : Int) / 2 := by
      rw [Ratio.div_value, div_le_iff₀ (lt_of_lt_of_le two_pos two)]
      norm_num at hb ⊢
      linarith
    have error := (abs_le.1 (Binary64.ofRatio_error (x.isNegative ^^ (powerOfTen scaleStep).isNegative) den threshold)).2
    rw [Binary64.div]
    norm_num at half ⊢
    linarith

theorem scaleDown_isSize (e : Nat) : (scaleDown x e).IsSize := by
  induction e using Nat.strongRecOn generalizing x with
  | ind e ih =>
    rw [scaleDown]
    split
    · next beyond =>
      split
      · exact hx
      · obtain ⟨size, bound⟩ := div_powerOfTen hx hb (Nat.le_refl scaleStep)
        have less : e - scaleStep < e := by
          simp only [scaleStep] at beyond ⊢
          omega
        exact ih _ less size (bound rfl)
    · next inside => exact (div_powerOfTen hx hb (not_lt.1 inside)).1

end

theorem ofNat_isSize (hs : s < significandLimit) :
    (Binary64.ofNat false s).IsSize ∧ (Binary64.ofNat false s).ratio.value ≤ 10 ^ (21 : Int) := by
  rcases Nat.eq_zero_or_pos s with rfl | pos
  · rw [ofNat_zero, Binary64.zero_ratio]
    exact ⟨⟨by decide, by decide⟩, by positivity⟩
  · have close := ofNat_close pos hs
    have high := close.high
    have below := significand_lt_decimal hs
    have step : (10 : ℚ) ^ (21 : Int) = 10 * 10 ^ (20 : Int) := by norm_num
    refine ⟨close.toIsSize, ?_⟩
    rw [step]
    linarith

theorem scale?_isSize {e : Int} (hs : s < significandLimit) (h : scale? s e = some x) : x.IsSize := by
  obtain ⟨size, bound⟩ := ofNat_isSize hs
  rw [scale?] at h
  split at h
  · exact scaleUp?_isSize size h
  · exact Option.some.inj h ▸ scaleDown_isSize size bound _

theorem scale?_isSome {e : Int} (hs : s < significandLimit) (h : (s : ℚ) * 10 ^ e ≤ 11 / 10 * greatestPower) :
    (scale? s e).isSome := by
  rw [scale?]
  split
  · next up =>
    rw [← Int.toNat_of_nonneg up] at h
    exact scaleUp?_isSome hs h
  · rfl

theorem scale?_eq_none {e : Int} (hs : s < significandLimit) (h : 19 / 10 * greatestPower ≤ (s : ℚ) * 10 ^ e) :
    scale? s e = none := by
  rw [scale?]
  split
  · next up =>
    rw [← Int.toNat_of_nonneg up] at h
    exact scaleUp?_eq_none hs h
  · next down =>
    have power : (10 : ℚ) ^ e ≤ 1 := zpow_le_one_of_nonpos₀ (by norm_num) (by omega)
    have size : (s : ℚ) * 10 ^ e ≤ s := mul_le_of_le_one_right (Nat.cast_nonneg s) power
    have below := (significand_lt_decimal hs).trans_le (le_greatestPower (by decide))
    have pos := greatestPower_pos
    linarith

namespace Numeral

def size (n : Numeral) : ℚ := n.significand * 10 ^ n.scale

def ExponentFits (n : Numeral) : Prop := ∀ e ∈ n.exponent, digitsValue e.digits < 2 ^ 31

structure RangedBySize (n : Numeral) : Prop where
  small : n.ExponentFits → n.size ≤ greatestPower → n.InRange
  great : n.ExponentFits → 2 * greatestPower ≤ n.size → ¬n.InRange
  vast : ∀ e ∈ n.exponent, 2 ^ 31 ≤ digitsValue e.digits → (n.InRange ↔ n.significand = 0 ∨ e.isNegative)

variable (hn : n.WellFormed)
include hn

theorem magnitude?_eq (he : n.ExponentFits) :
    ∃ s e, magnitude? n = scale? s e ∧ s < significandLimit ∧ 99 * ((s : ℚ) * 10 ^ e) ≤ 100 * n.size ∧
      99 * n.size ≤ 100 * ((s : ℚ) * 10 ^ e) := by
  obtain ⟨places, scale, fits, low, high⟩ := leadingDigits_near hn
  refine ⟨(leadingDigits n).1, (leadingDigits n).2 + (n.exponent.map Exponent.value).getD 0, ?_, fits, ?_⟩
  · rw [magnitude?]
    cases hx : n.exponent with
    | none => simp
    | some e =>
      have fits : (digitsValue e.digits : Int) ≤ Int32.maxValue.toInt := by
        have bound := he e hx
        rw [Int32.toInt_maxValue]
        omega
      simp [fits]
  · have size : n.size = n.significand * 10 ^ ((n.exponent.map Exponent.value).getD 0 - n.fraction.length) := rfl
    rw [size, scale, sub_add_eq_add_sub, add_sub_assoc, zpow_add₀ (by norm_num), zpow_natCast,
      ← mul_assoc ((leadingDigits n).1 : ℚ)]
    have low : (99 * ((leadingDigits n).1 * 10 ^ places) : ℚ) ≤ 100 * n.significand := by exact_mod_cast low
    have high : (99 * n.significand : ℚ) ≤ 100 * ((leadingDigits n).1 * 10 ^ places) := by exact_mod_cast high
    have unit : (0 : ℚ) < 10 ^ ((n.exponent.map Exponent.value).getD 0 - n.fraction.length) := zpow_pos (by norm_num) _
    generalize ((leadingDigits n).1 : ℚ) * 10 ^ places = kept at low high ⊢
    rw [← mul_assoc, ← mul_assoc, ← mul_assoc, ← mul_assoc]
    exact ⟨mul_le_mul_of_nonneg_right low unit.le, mul_le_mul_of_nonneg_right high unit.le⟩

theorem leadingDigits_eq_zero_iff : (leadingDigits n).1 = 0 ↔ n.significand = 0 := by
  obtain ⟨places, -, -, low, high⟩ := leadingDigits_near hn
  have unit : 0 < 10 ^ places := Nat.pow_pos (by decide)
  constructor
  · intro h
    rw [h, Nat.zero_mul] at high
    omega
  · intro h
    rw [h] at low
    have product : (leadingDigits n).1 * 10 ^ places = 0 := by omega
    exact (Nat.mul_eq_zero.1 product).resolve_right unit.ne'

theorem magnitude?_isSize (h : magnitude? n = some x) : x.IsSize := by
  obtain ⟨places, -, fits, -, -⟩ := leadingDigits_near hn
  rw [magnitude?] at h
  cases hx : n.exponent with
  | none =>
    simp only [hx] at h
    exact scale?_isSize fits h
  | some e =>
    simp only [hx] at h
    split at h
    · exact scale?_isSize fits h
    · rw [Option.ite_none_right_eq_some] at h
      exact Option.some.inj h.2 ▸ ⟨by decide, by decide⟩

omit hn in
theorem IsWhole64.size_lt (hw : n.IsWhole64) : n.size < 10 ^ (20 : Int) := by
  obtain ⟨integral, -, low, high⟩ := hw
  obtain ⟨fraction, exponent⟩ : n.fraction = [] ∧ n.exponent = none := by simpa [isIntegral] using integral
  have value : digitsValue n.whole < significandLimit := by
    have limit : significandLimit = 2 ^ 64 := rfl
    rw [wholeValue] at low high
    cases hs : n.negative <;> simp only [hs, if_true, Bool.false_eq_true, if_false] at low high <;> omega
  have size : n.size = digitsValue n.whole := by simp [Numeral.size, significand, scale, fraction, exponent]
  rw [size]
  exact significand_lt_decimal value

theorem rangedBySize : n.RangedBySize where
  small he hs := by
    obtain ⟨s, e, hm, fits, low, -⟩ := magnitude?_eq hn he
    have pos := greatestPower_pos
    right
    rw [hm]
    apply scale?_isSome fits
    linarith
  great he hs := by
    obtain ⟨s, e, hm, fits, -, high⟩ := magnitude?_eq hn he
    have pos := greatestPower_pos
    rintro (whole | scaled)
    · have below := whole.size_lt.trans_le (le_greatestPower (by decide))
      linarith
    · have none : scale? s e = none := by
        apply scale?_eq_none fits
        linarith
      rw [hm, none] at scaled
      cases scaled
  vast e he hl := by
    rw [Option.mem_def] at he
    have fractional : ¬n.IsWhole64 := by
      rintro ⟨integral, -⟩
      simp [isIntegral, he] at integral
    have beyond : ¬(digitsValue e.digits : Int) ≤ Int32.maxValue.toInt := by
      rw [Int32.toInt_maxValue]
      omega
    rw [InRange, or_iff_right fractional, ← leadingDigits_eq_zero_iff hn]
    simp only [magnitude?, he, if_neg beyond]
    split
    · next vanishes => exact iff_of_true rfl vanishes
    · next remains => exact iff_of_false Bool.false_ne_true remains

end Numeral

end Schemata
