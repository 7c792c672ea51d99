import Schemata.Json.Text
import Schemata.Proofs.Number.Numerals
import Schemata.Proofs.Number.Rounding

namespace Schemata

variable {digits : List Char} {negative : Bool}

theorem digitsValue_eq (digits : List Char) : digitsValue digits = Nat.ofDigitChars 10 digits 0 :=
  Nat.ofDigitChars_eq_foldl.symm

theorem digitsValue_decimalDigits (n : Nat) : digitsValue (Json.decimalDigits n) = n := by
  rw [digitsValue_eq]
  exact Nat.ofDigitChars_ten_toDigits

theorem digitsValue_append_zeros (digits : List Char) (n : Nat) :
    digitsValue (digits ++ Json.zeros n) = digitsValue digits * 10 ^ n := by
  rw [digitsValue_eq, digitsValue_eq, Nat.ofDigitChars_append, Json.zeros, Nat.ofDigitChars_replicate_zero, Nat.mul_comm]

theorem digitsValue_zeros_append (n : Nat) (digits : List Char) :
    digitsValue (Json.zeros n ++ digits) = digitsValue digits := by
  rw [digitsValue_eq, digitsValue_eq, Nat.ofDigitChars_append, Json.zeros, Nat.ofDigitChars_replicate_zero, Nat.mul_zero]

theorem isDigit_of_mem_zeros {n : Nat} {c : Char} (h : c ∈ Json.zeros n) : c.isDigit := by
  obtain rfl := List.eq_of_mem_replicate h
  decide

theorem isDigit_of_mem_decimalDigits {n : Nat} {c : Char} (h : c ∈ Json.decimalDigits n) : c.isDigit :=
  Nat.isDigit_of_mem_toDigits (by decide) (by decide) h

theorem trimZeros_append (digits : List Char) : ∃ n, Json.trimZeros digits ++ Json.zeros n = digits := by
  have zeros : ∀ c ∈ digits.reverse.takeWhile (· == '0'), c = '0' := by
    intro c hc
    simpa using List.all_eq_true.1 List.all_takeWhile c hc
  have reversed : digits.reverse.takeWhile (· == '0') ++ digits.reverse.dropWhile (· == '0') = digits.reverse :=
    List.takeWhile_append_dropWhile
  rw [List.eq_replicate_of_mem zeros] at reversed
  refine ⟨(digits.reverse.takeWhile (· == '0')).length, ?_⟩
  rw [Json.trimZeros, Json.zeros, ← List.reverse_replicate, ← List.reverse_append, reversed, List.reverse_reverse]

structure Numeral.Denotes (n : Numeral) (negative : Bool) (size : ℚ) : Prop where
  wellFormed : n.WellFormed
  negative : n.negative = negative
  fractional : n.isIntegral = false
  size : (n.significand : ℚ) * 10 ^ n.scale = size

structure LeadingDigits (digits : List Char) : Prop where
  isDigit : ∀ c ∈ digits, c.isDigit
  nonempty : digits ≠ []
  head : digits.head? ≠ some '0'

theorem LeadingDigits.take (h : LeadingDigits digits) {n : Nat} (hn : 0 < n) : LeadingDigits (digits.take n) where
  isDigit c hc := h.isDigit c (List.mem_of_mem_take hc)
  nonempty ht := h.nonempty ((List.take_eq_nil_iff.1 ht).resolve_left hn.ne')
  head := by
    rw [List.head?_take, if_neg hn.ne']
    exact h.head

namespace LeadingDigits

variable {e : Int}

theorem denotes_below_one (h : LeadingDigits digits) (he : e < 0) :
    (Numeral.mk negative ['0'] (Json.zeros (-e - 1).toNat ++ digits) none).Denotes negative
      (digitsValue digits * 10 ^ (e + 1 - digits.length)) where
  wellFormed := by
    refine ⟨List.cons_ne_nil _ _, fun _ => rfl, List.forall_mem_singleton.2 rfl, ?_, nofun⟩
    exact List.forall_mem_append.2 ⟨fun _ => isDigit_of_mem_zeros, h.isDigit⟩
  negative := rfl
  fractional := by simp [Numeral.isIntegral, h.nonempty]
  size := by
    have significand : digitsValue (['0'] ++ (Json.zeros (-e - 1).toNat ++ digits)) = digitsValue digits := by
      rw [← List.append_assoc]
      exact digitsValue_zeros_append ((-e - 1).toNat + 1) digits
    have scale : (0 : Int) - (Json.zeros (-e - 1).toNat ++ digits).length = e + 1 - digits.length := by
      rw [List.length_append, Json.zeros, List.length_replicate]
      omega
    simp only [Numeral.significand, Numeral.scale, Option.map_none, Option.getD_none, significand, scale]

theorem denotes_whole (h : LeadingDigits digits) (he : digits.length ≤ e + 1) :
    (Numeral.mk negative (digits ++ Json.zeros (e.toNat + 1 - digits.length)) ['0'] none).Denotes negative
      (digitsValue digits * 10 ^ (e + 1 - digits.length)) where
  wellFormed := by
    have head : (digits ++ Json.zeros (e.toNat + 1 - digits.length)).head? = digits.head? :=
      List.head?_append_of_ne_nil _ h.nonempty
    refine ⟨List.append_ne_nil_of_left_ne_nil h.nonempty _, fun h0 => absurd (head ▸ h0) h.head, ?_,
      List.forall_mem_singleton.2 rfl, nofun⟩
    exact List.forall_mem_append.2 ⟨h.isDigit, fun _ => isDigit_of_mem_zeros⟩
  negative := rfl
  fractional := rfl
  size := by
    have length : 0 < digits.length := List.length_pos_iff.2 h.nonempty
    have significand : digitsValue (digits ++ Json.zeros (e.toNat + 1 - digits.length) ++ ['0']) =
        digitsValue digits * 10 ^ (e.toNat + 1 - digits.length) * 10 := by
      rw [← digitsValue_append_zeros]
      exact digitsValue_append_zeros _ 1
    have places : ((e.toNat + 1 - digits.length : Nat) : Int) = e + 1 - digits.length := by omega
    simp only [Numeral.significand, Numeral.scale, Option.map_none, Option.getD_none, significand]
    rw [← places, zpow_natCast]
    push_cast
    rw [mul_assoc]
    norm_num

theorem denotes_pointed (h : LeadingDigits digits) (hs : 0 ≤ e) (he : e + 1 < digits.length) :
    (Numeral.mk negative (digits.take (e.toNat + 1)) (digits.drop (e.toNat + 1)) none).Denotes negative
      (digitsValue digits * 10 ^ (e + 1 - digits.length)) where
  wellFormed := by
    have start := h.take (Nat.succ_pos e.toNat)
    exact ⟨start.nonempty, fun h0 => absurd h0 start.head, start.isDigit, fun c hc => h.isDigit c (List.mem_of_mem_drop hc),
      nofun⟩
  negative := rfl
  fractional := by
    have rest : digits.drop (e.toNat + 1) ≠ [] := by
      rw [ne_eq, List.drop_eq_nil_iff]
      omega
    simp [Numeral.isIntegral, rest]
  size := by
    have scale : (0 : Int) - (digits.drop (e.toNat + 1)).length = e + 1 - digits.length := by
      rw [List.length_drop]
      omega
    simp only [Numeral.significand, Numeral.scale, Option.map_none, Option.getD_none, List.take_append_drop, scale]

theorem denotes_scientific (h : LeadingDigits digits) :
    (Numeral.mk negative (digits.take 1) (digits.drop 1)
      (some ⟨'e', some (if e < 0 then '-' else '+'), Json.decimalDigits e.natAbs⟩)).Denotes negative
        (digitsValue digits * 10 ^ (e + 1 - digits.length)) where
  wellFormed := by
    have start := h.take Nat.one_pos
    refine ⟨start.nonempty, fun h0 => absurd h0 start.head, start.isDigit, fun c hc => h.isDigit c (List.mem_of_mem_drop hc),
      ?_⟩
    intro x hx
    obtain rfl := Option.some.inj hx
    refine ⟨.inl rfl, ?_, Nat.toDigits_ne_nil, fun _ => isDigit_of_mem_decimalDigits⟩
    intro c hc
    obtain rfl := Option.some.inj hc
    split
    · exact .inr rfl
    · exact .inl rfl
  negative := rfl
  fractional := by simp [Numeral.isIntegral]
  size := by
    have length : 0 < digits.length := List.length_pos_iff.2 h.nonempty
    have value : (Exponent.mk 'e' (some (if e < 0 then '-' else '+')) (Json.decimalDigits e.natAbs)).value = e := by
      simp only [Exponent.value, Exponent.isNegative, digitsValue_decimalDigits]
      by_cases he : e < 0
      · have magnitude : -(e.natAbs : Int) = e := by omega
        rw [if_pos he, beq_self_eq_true, if_pos rfl, magnitude]
      · have magnitude : (e.natAbs : Int) = e := by omega
        have plus : (some '+' == some '-') = false := rfl
        rw [if_neg he, plus, if_neg Bool.false_ne_true, magnitude]
    have scale : e - (digits.drop 1).length = e + 1 - digits.length := by
      rw [List.length_drop]
      omega
    simp only [Numeral.significand, Numeral.scale, Option.map_some, Option.getD_some, List.take_append_drop, value, scale]

end LeadingDigits

namespace Numeral

def signed (negative : Bool) (text : List Char) : List Char := (if negative then ['-'] else []) ++ text

theorem plainDigits_denotes (h : LeadingDigits digits) (negative : Bool) (e : Int) :
    ∃ n : Numeral, n.Denotes negative (digitsValue digits * 10 ^ (e + 1 - digits.length)) ∧
      n.text = signed negative (Json.plainDigits digits e) := by
  by_cases hs : e < 0
  · exact ⟨_, h.denotes_below_one hs, by simp [text, signed, Json.plainDigits, hs, h.nonempty]⟩
  · by_cases he : digits.length ≤ e.toNat + 1
    · exact ⟨_, h.denotes_whole (by omega), by simp [text, signed, Json.plainDigits, hs, he]⟩
    · have rest : ¬digits.length ≤ e.toNat + 1 := he
      exact ⟨_, h.denotes_pointed (by omega) (by omega), by simp [text, signed, Json.plainDigits, hs, rest]⟩

theorem scientificDigits_denotes (h : LeadingDigits digits) (negative : Bool) (e : Int) :
    ∃ n : Numeral, n.Denotes negative (digitsValue digits * 10 ^ (e + 1 - digits.length)) ∧
      n.text = signed negative (Json.scientificDigits digits e) := by
  refine ⟨_, h.denotes_scientific, ?_⟩
  have rest : (digits.drop 1).isEmpty = decide (digits.length ≤ 1) := by
    rw [Bool.eq_iff_iff, List.isEmpty_iff, decide_eq_true_eq, List.drop_eq_nil_iff]
  simp only [text, signed, Json.scientificDigits, Exponent.text, rest, decide_eq_true_eq, Option.map_some,
    Option.getD_some, Option.toList_some, List.append_assoc, List.cons_append, List.nil_append]

end Numeral

theorem decimalText_denotes {d : Decimal} (hd : 0 < d.digits) (negative : Bool) :
    ∃ n : Numeral, n.Denotes negative (d.digits * 10 ^ d.exponent) ∧
      n.text = Numeral.signed negative (Json.decimalText d) := by
  generalize hds : Json.decimalDigits d.digits = digits
  obtain ⟨k, hk⟩ := trimZeros_append digits
  have value : digitsValue (Json.trimZeros digits) * 10 ^ k = d.digits := by
    rw [← digitsValue_append_zeros, hk, ← hds, digitsValue_decimalDigits]
  have nonempty : Json.trimZeros digits ≠ [] := by
    intro hn
    rw [hn] at value
    exact hd.ne' (value.symm.trans (Nat.zero_mul _))
  have head : (Json.trimZeros digits).head? = digits.head? := by
    rw [← List.head?_append_of_ne_nil _ nonempty, hk]
  have leading : LeadingDigits (Json.trimZeros digits) := by
    refine ⟨fun c hc => ?_, nonempty, fun h0 => ?_⟩
    · have mem : c ∈ Json.decimalDigits d.digits := by
        rw [hds, ← hk]
        exact List.mem_append_left _ hc
      exact isDigit_of_mem_decimalDigits mem
    · rw [head, ← hds] at h0
      exact hd.ne' (Numeral.toDigits_head h0)
  have length : digits.length = (Json.trimZeros digits).length + k := by
    rw [← hk, List.length_append, hk, Json.zeros, List.length_replicate]
  have size : (digitsValue (Json.trimZeros digits) : ℚ) *
      10 ^ ((digits.length : Int) - 1 + d.exponent + 1 - (Json.trimZeros digits).length) = d.digits * 10 ^ d.exponent := by
    have exponent : (digits.length : Int) - 1 + d.exponent + 1 - (Json.trimZeros digits).length = k + d.exponent := by
      omega
    rw [exponent, zpow_add₀ (by norm_num), zpow_natCast, ← mul_assoc, ← value]
    push_cast
    rfl
  rw [← size, Json.decimalText, hds]
  split
  · exact Numeral.plainDigits_denotes leading negative _
  · exact Numeral.scientificDigits_denotes leading negative _

namespace Number

theorem ofNumeral_of_denotes {n : Numeral} {significand : Nat} {exponent : Int}
    (h : n.Denotes negative (significand * 10 ^ exponent)) :
    ofNumeral n = .float (.ofScientific negative significand exponent) := by
  have whole : ¬n.isIntegral := by simp [h.fractional]
  rw [ofNumeral, if_neg fun hw => whole hw.1, h.negative, Binary64.ofScientific_congr h.size]

theorem isZero_zero (negative : Bool) : (Binary64.zero negative).isZero := by
  cases negative <;> decide

theorem read?_floatText {x : Binary64} (hf : x.isFinite) : read? (Json.floatText x) = some (.float x) := by
  rw [read?_eq_some_iff, Json.floatText, if_pos hf]
  by_cases hz : x.isZero
  · have bits : x.magnitudeBits = 0 := of_decide_eq_true hz
    have self : Binary64.zero x.isNegative = x := by
      rw [Binary64.zero, ← bits, Binary64.ofMagnitude_magnitudeBits]
    have zero : (Numeral.mk x.isNegative ['0'] ['0'] none).Denotes x.isNegative ((0 : Nat) * 10 ^ (0 : Int)) :=
      ⟨⟨List.cons_ne_nil _ _, fun _ => rfl, List.forall_mem_singleton.2 rfl, List.forall_mem_singleton.2 rfl,
        fun e he => absurd he (Option.not_mem_none e)⟩, rfl, rfl, by simp [Numeral.significand, digitsValue]⟩
    refine ⟨_, zero.wellFormed, ?_, (ofNumeral_of_denotes zero).trans (congrArg Number.float self)⟩
    rw [if_pos hz, String.toList_append]
    cases x.isNegative <;> rfl
  · have back : Binary64.ofScientific x.isNegative x.shortest.digits x.shortest.exponent = x :=
      of_decide_eq_true (Binary64.shortest_readsBack hf)
    have digits : 0 < x.shortest.digits := by
      apply Nat.pos_of_ne_zero
      intro h0
      rw [h0, Binary64.ofScientific, if_pos rfl] at back
      exact hz (back ▸ isZero_zero _)
    obtain ⟨n, hn, ht⟩ := decimalText_denotes digits x.isNegative
    refine ⟨n, hn.wellFormed, ?_, (ofNumeral_of_denotes hn).trans (congrArg Number.float back)⟩
    rw [ht, if_neg hz, String.toList_append, String.toList_ofList]
    cases x.isNegative <;> rfl

theorem intText_eq (i : Int) : Json.intText i = toString i := by
  rw [← String.toList_inj, Numeral.toList_toString, Json.intText, String.toList_append, String.toList_ofList,
    Numeral.text, Numeral.ofInt, Json.decimalDigits]
  by_cases h : i < 0
  · simp [h]
  · simp [h]

theorem read?_intText (i : Int64) : read? (Json.intText i.toInt) = some (.int i) := by
  rw [intText_eq]
  exact read?_toString i

end Number

end Schemata
