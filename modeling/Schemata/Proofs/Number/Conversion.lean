import Mathlib.Algebra.Ring.Int.Defs
import Schemata.Number.Shortest
import Schemata.Proofs.Number.Numerals

namespace Schemata

def fitInt64? (i : Int) : Option Int64 := if -2 ^ 63 ≤ i ∧ i < 2 ^ 63 then some (Int64.ofInt i) else none

def withSign (negative : Bool) (n : Nat) : Int := if negative then -n else n

def appendDigit? (negative : Bool) (i : Int64) (c : Char) : Option Int64 :=
  if c.isDigit then do
    let tens ← fitInt64? (i.toInt * 10)
    fitInt64? (tens.toInt + withSign negative (c.toNat - '0'.toNat))
  else none

def readInt64? (text : List Char) : Option Int64 :=
  let (sign, ds) := Numeral.splitSign text
  if ds.isEmpty then none else ds.foldlM (appendDigit? (sign == some '-')) 0

def pointDigits : List Char → List Char × List Char
  | '.' :: cs => (cs.takeWhile Char.isDigit, cs.dropWhile Char.isDigit)
  | cs => ([], cs)

def readExponent? : List Char → Option Int
  | [] => some 0
  | c :: cs =>
    let (sign, ds) := Numeral.splitSign cs
    if (c = 'e' ∨ c = 'E') ∧ ds ≠ [] ∧ ds.all Char.isDigit then some (Exponent.value ⟨c, sign, ds⟩) else none

def readDecimal? (text : List Char) : Option Decimal :=
  let whole := text.takeWhile Char.isDigit
  let (fraction, rest) := pointDigits (text.dropWhile Char.isDigit)
  if (whole ++ fraction).isEmpty then none
  else (readExponent? rest).map fun e => ⟨digitsValue (whole ++ fraction), e - fraction.length⟩

def readNamed? (text : List Char) : Option Nat :=
  let word := text.map Char.toLower
  if word = "inf".toList ∨ word = "infinity".toList then some Binary64.infinityBits
  else if word = "nan".toList then some (Binary64.infinityBits + Binary64.hiddenBit / 2)
  else none

def readBinary64? (text : List Char) : Option Binary64 :=
  let (sign, unsigned) := Numeral.splitSign text
  let negative := sign == some '-'
  match readDecimal? unsigned with
  | some d => some (Binary64.ofScientific negative d.digits d.exponent)
  | none => (readNamed? unsigned).map (Binary64.ofMagnitude negative)

def Number.convert? (lexeme : List Char) : Option Number :=
  let fractional := lexeme.any fun c => c == '.' || c == 'e' || c == 'E'
  match if fractional then none else readInt64? lexeme with
  | some i => some (.int i)
  | none => (readBinary64? lexeme).map .float

variable {negative : Bool} {n m : Nat} {i : Int64} {v : Int} {c : Char} {ds : List Char}

theorem fitInt64?_eq_some_iff : fitInt64? v = some i ↔ i.toInt = v := by
  rw [fitInt64?]
  constructor
  · intro h
    split at h
    · next fits =>
      obtain rfl := Option.some.inj h
      exact Int64.toInt_ofInt_of_le fits.1 fits.2
    · cases h
  · rintro rfl
    have low := i.le_toInt
    have high := i.toInt_lt
    rw [if_pos ⟨low, high⟩, Int64.ofInt_toInt]

theorem fitInt64?_toInt (i : Int64) : fitInt64? i.toInt = some i := fitInt64?_eq_some_iff.2 rfl

theorem fitInt64?_eq_none_iff : fitInt64? v = none ↔ v < -2 ^ 63 ∨ 2 ^ 63 ≤ v := by
  simp only [fitInt64?, ite_eq_right_iff, reduceCtorEq, imp_false]
  omega

theorem fitInt64?_none_of_le (h : fitInt64? (withSign negative n) = none) (hm : n ≤ m) :
    fitInt64? (withSign negative m) = none := by
  rw [fitInt64?_eq_none_iff] at h ⊢
  cases negative with
  | true =>
    simp only [withSign, if_true] at h ⊢
    omega
  | false =>
    simp only [withSign, Bool.false_eq_true, if_false] at h ⊢
    omega

theorem appendDigit?_eq (hc : c.isDigit) (hi : i.toInt = withSign negative n) :
    appendDigit? negative i c = fitInt64? (withSign negative (10 * n + (c.toNat - '0'.toNat))) := by
  have tens : i.toInt * 10 = withSign negative (10 * n) := by
    rw [hi, withSign, withSign]
    split <;> omega
  have sum (k : Nat) : withSign negative (10 * n) + withSign negative k = withSign negative (10 * n + k) := by
    simp only [withSign]
    split <;> omega
  rw [appendDigit?, if_pos hc, tens]
  cases ht : fitInt64? (withSign negative (10 * n)) with
  | none => exact (fitInt64?_none_of_le ht (Nat.le_add_right _ _)).symm
  | some j =>
    have value := fitInt64?_eq_some_iff.1 ht
    rw [Option.bind_eq_bind, Option.bind_some, value, sum]

theorem le_ofDigitChars (ds : List Char) (n : Nat) : n ≤ Nat.ofDigitChars 10 ds n := by
  rw [Nat.ofDigitChars_eq_ofDigitChars_zero]
  have unit : 1 ≤ 10 ^ ds.length := Nat.one_le_pow _ _ (by decide)
  exact Nat.le_add_right_of_le (Nat.le_mul_of_pos_left n unit)

/-- All checks together are one check of the whole number: no step fails unless the number does not fit. -/
theorem foldlM_appendDigit? (hd : ∀ c ∈ ds, c.isDigit) (hi : i.toInt = withSign negative n) :
    ds.foldlM (appendDigit? negative) i = fitInt64? (withSign negative (Nat.ofDigitChars 10 ds n)) := by
  induction ds generalizing i n with
  | nil =>
    rw [Nat.ofDigitChars_nil, ← hi, fitInt64?_toInt]
    rfl
  | cons c ds ih =>
    obtain ⟨digit, others⟩ := List.forall_mem_cons.1 hd
    rw [List.foldlM_cons, appendDigit?_eq digit hi, Nat.ofDigitChars_cons]
    cases hs : fitInt64? (withSign negative (10 * n + (c.toNat - '0'.toNat))) with
    | none => exact (fitInt64?_none_of_le hs (le_ofDigitChars ds _)).symm
    | some j => exact ih others (fitInt64?_eq_some_iff.1 hs)

namespace Numeral

variable {n : Numeral} {rest : List Char}

theorem splitSign_text (hn : n.WellFormed) (rest : List Char) :
    splitSign ((if n.negative then ['-'] else []) ++ (n.whole ++ rest)) =
      (if n.negative then some '-' else none, n.whole ++ rest) := by
  have dash : ∀ c ∈ some '-', c = '+' ∨ c = '-' := fun _ hc => .inr (Option.some.inj hc).symm
  have unsigned : ∀ c ∈ (none : Option Char), c = '+' ∨ c = '-' := nofun
  cases n.negative with
  | true => exact splitSign_complete dash hn.nonempty hn.whole
  | false => exact splitSign_complete unsigned hn.nonempty hn.whole

theorem sign_isNegative (n : Numeral) : ((if n.negative then some '-' else none) == some '-') = n.negative := by
  cases n.negative <;> rfl

theorem wholeValue_eq (n : Numeral) : n.wholeValue = withSign n.negative (Nat.ofDigitChars 10 n.whole 0) := by
  rw [wholeValue, withSign, Nat.ofDigitChars_eq_foldl]
  rfl

theorem text_of_isIntegral (h : n.isIntegral) : n.text = (if n.negative then ['-'] else []) ++ n.whole := by
  obtain ⟨fraction, exponent⟩ : n.fraction = [] ∧ n.exponent = none := by simpa [isIntegral] using h
  simp [text, fraction, exponent]

theorem readInt64?_text (hn : n.WellFormed) (h : n.isIntegral) : readInt64? n.text = fitInt64? n.wholeValue := by
  have split := splitSign_text hn []
  rw [List.append_nil] at split
  have start : (0 : Int64).toInt = withSign n.negative 0 := by cases n.negative <;> rfl
  have digits := foldlM_appendDigit? hn.whole start
  have nonempty : ¬n.whole.isEmpty := by simpa using hn.nonempty
  rw [readInt64?, text_of_isIntegral h, split]
  dsimp only
  rw [if_neg nonempty, sign_isNegative, digits, wholeValue_eq]

theorem pointDigits_text {fraction : List Char} (hf : ∀ c ∈ fraction, c.isDigit)
    (hr : Stops (fun c => c.isDigit || c == '.') rest) :
    pointDigits ((if fraction.isEmpty then [] else '.' :: fraction) ++ rest) = (fraction, rest) := by
  have digits : Stops Char.isDigit rest := hr.mono fun c hc => by rw [hc, Bool.true_or]
  cases fraction with
  | nil =>
    rw [List.isEmpty_nil, if_pos rfl, List.nil_append, pointDigits]
    rintro cs rfl
    cases hr '.' rfl
  | cons d fraction =>
    have split : pointDigits ('.' :: (d :: fraction ++ rest)) = (d :: fraction, rest) := by
      rw [pointDigits, digits.takeWhile hf, digits.dropWhile hf]
    exact split

theorem readExponent?_text {exponent : Option Exponent} (he : ∀ e ∈ exponent, e.WellFormed) :
    readExponent? ((exponent.map Exponent.text).getD []) = some ((exponent.map Exponent.value).getD 0) := by
  cases exponent with
  | none => rfl
  | some e =>
    obtain ⟨marker, sign, nonempty, digits⟩ := he e rfl
    have split : splitSign (e.sign.toList ++ (e.digits ++ [])) = (e.sign, e.digits ++ []) :=
      splitSign_complete sign nonempty digits
    rw [List.append_nil] at split
    have all : e.digits.all Char.isDigit := List.all_eq_true.2 digits
    rw [Option.map_some, Option.getD_some, Option.map_some, Option.getD_some, Exponent.text, List.cons_append,
      readExponent?, split]
    exact if_pos ⟨marker, nonempty, all⟩

theorem readDecimal?_text (hn : n.WellFormed) :
    readDecimal? (n.whole ++ ((if n.fraction.isEmpty then [] else '.' :: n.fraction) ++
      (n.exponent.map Exponent.text).getD [])) = some ⟨n.significand, n.scale⟩ := by
  have end_stops := stops_exponent hn.exponent .nil
  rw [List.append_nil] at end_stops
  have whole_stops := stops_fraction n.fraction (end_stops.mono fun c hc => by rw [hc, Bool.true_or])
  have nonempty : ¬(n.whole ++ n.fraction).isEmpty := by simp [hn.nonempty]
  rw [readDecimal?, whole_stops.takeWhile hn.whole, whole_stops.dropWhile hn.whole,
    pointDigits_text hn.fraction end_stops]
  dsimp only
  rw [if_neg nonempty, readExponent?_text hn.exponent]
  rfl

theorem readBinary64?_text (hn : n.WellFormed) :
    readBinary64? n.text = some (Binary64.ofScientific n.negative n.significand n.scale) := by
  rw [readBinary64?, text, List.append_assoc, List.append_assoc, splitSign_text hn]
  dsimp only
  rw [readDecimal?_text hn, sign_isNegative]

end Numeral

theorem Number.convert?_text {n : Numeral} (hn : n.WellFormed) : convert? n.text = some (ofNumeral n) := by
  have fractional : (n.text.any fun c => c == '.' || c == 'e' || c == 'E') = !n.isIntegral := by
    rw [Bool.eq_iff_iff, Bool.not_eq_true', ← Bool.not_eq_true, Numeral.isIntegral_iff hn, List.any_eq_true]
    simp only [Bool.or_eq_true, beq_iff_eq]
    grind
  rw [convert?, fractional, ofNumeral, Int64.toInt_minValue, Int64.toInt_maxValue]
  cases integral : n.isIntegral with
  | false =>
    rw [Numeral.readBinary64?_text hn]
    rfl
  | true =>
    rw [Bool.not_true, if_neg Bool.false_ne_true, Numeral.readInt64?_text hn integral, fitInt64?]
    by_cases fits : -2 ^ 63 ≤ n.wholeValue ∧ n.wholeValue < 2 ^ 63
    · rw [if_pos fits, if_pos ⟨rfl, by omega, by omega⟩]
    · rw [if_neg fits, if_neg (by omega), Numeral.readBinary64?_text hn]
      rfl

-- Both ends of the range, and the numbers next to them.
example : readInt64? "-9223372036854775808".toList = some Int64.minValue ∧ readInt64? "+9223372036854775807".toList =
    some Int64.maxValue ∧ readInt64? "9223372036854775808".toList = none ∧ readInt64? "-".toList = none := by
  decide +kernel

end Schemata
