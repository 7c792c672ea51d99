import Schemata.Proofs.Generation.Annotations
import Schemata.Proofs.Number.Conversion
import Schemata.Proofs.Number.Nearest
import Schemata.Proofs.Reading.Values
import Schemata.Proofs.Token.Lines

namespace Schemata

open Text Grammar

variable {rest gap : List Char} {n : Numeral} {x : Number} {lexeme object field : String} {t : TypeRef}

namespace Numeral

structure EndsBefore (n : Numeral) (rest : List Char) : Prop where
  digits : n.whole = ['0'] ∨ Stops Char.isDigit rest
  point : ∀ cs, rest = '.' :: cs → Stops Char.isDigit cs
  exponent : ∀ c cs, rest = c :: cs → c = 'e' ∨ c = 'E' → Stops Char.isDigit (splitSign cs).2

theorem splitWhole?_iff (hn : n.WellFormed) :
    splitWhole? (n.whole ++ rest) = some (n.whole, rest) ↔ n.whole = ['0'] ∨ Stops Char.isDigit rest := by
  constructor
  · intro h
    obtain ⟨c, cs, hc⟩ := List.exists_cons_of_ne_nil hn.nonempty
    by_cases zero : c = '0'
    · left
      exact hn.leading (by rw [hc, zero]; rfl)
    · right
      have digit : c.isDigit := hn.whole c (hc ▸ List.mem_cons_self)
      rw [hc, List.cons_append, splitWhole?, if_neg zero, if_pos digit] at h
      have behind := (Prod.mk.inj (Option.some.inj h)).2
      intro d hd
      have first := List.head?_dropWhile_not Char.isDigit (cs ++ rest)
      rw [behind, Option.mem_def.1 hd] at first
      simpa using first
  · rintro (zero | stop)
    · rw [zero]
      rfl
    · exact splitWhole?_complete hn stop

theorem splitFraction_iff : splitFraction rest = ([], rest) ↔ ∀ cs, rest = '.' :: cs → Stops Char.isDigit cs := by
  by_cases point : ∃ cs, rest = '.' :: cs
  · obtain ⟨cs, rfl⟩ := point
    have only : (∀ ds, '.' :: cs = '.' :: ds → Stops Char.isDigit ds) ↔ Stops Char.isDigit cs :=
      ⟨fun h => h cs rfl, fun h ds same => (List.cons.inj same).2 ▸ h⟩
    rw [only, Stops.iff_takeWhile_eq_nil, splitFraction]
    by_cases none : cs.takeWhile Char.isDigit = []
    · simp [none]
    · simp [none]
  · refine iff_of_true ?_ fun cs h => absurd ⟨cs, h⟩ point
    cases rest with
    | nil => rfl
    | cons c cs => exact splitFraction_of_ne (fun hc => point ⟨cs, by rw [hc]⟩) cs

theorem splitExponent_iff : splitExponent rest = (none, rest) ↔
    ∀ c cs, rest = c :: cs → c = 'e' ∨ c = 'E' → Stops Char.isDigit (splitSign cs).2 := by
  cases rest with
  | nil => exact iff_of_true rfl nofun
  | cons c cs =>
    have only : (∀ d ds, c :: cs = d :: ds → d = 'e' ∨ d = 'E' → Stops Char.isDigit (splitSign ds).2) ↔
        (c = 'e' ∨ c = 'E' → Stops Char.isDigit (splitSign cs).2) := by
      constructor
      · exact fun h => h c cs rfl
      · rintro h d ds ⟨⟩
        exact h
    rw [only, Stops.iff_takeWhile_eq_nil, splitExponent]
    by_cases marker : c = 'e' ∨ c = 'E'
    · by_cases none : (splitSign cs).2.takeWhile Char.isDigit = []
      · simp [none]
      · simp [marker, none]
    · simp [marker]

theorem split?_integral_iff (hn : n.WellFormed) (hi : n.isIntegral) :
    split? (n.text ++ rest) = some (n, rest) ↔ n.EndsBefore rest := by
  obtain ⟨fraction, exponent⟩ : n.fraction = [] ∧ n.exponent = none := by simpa [isIntegral] using hi
  have parts : n = ⟨n.negative, n.whole, [], none⟩ := by rw [← fraction, ← exponent]
  rw [text_of_isIntegral hi, List.append_assoc, split?, minus_complete hn]
  constructor
  · intro h
    simp only [Option.bind_eq_bind, Option.bind_eq_some_iff, Option.pure_def, Option.some.injEq, Prod.mk.injEq] at h
    obtain ⟨⟨whole, behind⟩, taken, same, left⟩ := h
    have no_fraction : (splitFraction behind).1 = [] := (congrArg Numeral.fraction same).trans fraction
    have no_exponent : (splitExponent (splitFraction behind).2).1 = none := (congrArg Numeral.exponent same).trans exponent
    have pointless : (splitFraction behind).2 = behind := by simpa [no_fraction] using splitFraction_append behind
    have unmarked := splitExponent_append (splitFraction behind).2
    rw [no_exponent, left, pointless] at unmarked
    obtain rfl : rest = behind := unmarked
    obtain rfl : whole = n.whole := congrArg Numeral.whole same
    rw [pointless] at no_exponent left
    exact ⟨(splitWhole?_iff hn).1 taken, splitFraction_iff.1 (Prod.ext no_fraction pointless),
      splitExponent_iff.1 (Prod.ext no_exponent left)⟩
  · rintro ⟨digits, point, marker⟩
    simp only [(splitWhole?_iff hn).2 digits, splitFraction_iff.2 point, splitExponent_iff.2 marker, Option.bind_eq_bind,
      Option.bind_some, Option.pure_def]
    rw [← parts]

end Numeral

def decimalValue : List Char → Int
  | '-' :: ds => -(Nat.ofDigitChars 10 ds 0 : Int)
  | ds => Nat.ofDigitChars 10 ds 0

def FitsInt64 (lexeme : List Char) : Prop :=
  ('.' ∉ lexeme ∧ 'e' ∉ lexeme ∧ 'E' ∉ lexeme) ∧ -2 ^ 63 ≤ decimalValue lexeme ∧ decimalValue lexeme ≤ 2 ^ 63 - 1

instance (lexeme : List Char) : Decidable (FitsInt64 lexeme) := inferInstanceAs (Decidable (_ ∧ _))

theorem decimalValue_text (hn : n.WellFormed) (h : n.isIntegral) : decimalValue n.text = n.wholeValue := by
  obtain ⟨c, cs, hc⟩ := List.exists_cons_of_ne_nil hn.nonempty
  have digit : c.isDigit := hn.whole c (hc ▸ List.mem_cons_self)
  have unsigned : c ≠ '-' := by
    rintro rfl
    cases digit
  rw [Numeral.text_of_isIntegral h, Numeral.wholeValue_eq]
  cases n.negative with
  | true => rfl
  | false =>
    rw [hc]
    unfold decimalValue
    split
    · next he => exact absurd (List.cons.inj he).1 unsigned
    · rfl

theorem fitsInt64_text_iff (hn : n.WellFormed) :
    FitsInt64 n.text ↔ n.isIntegral ∧ -2 ^ 63 ≤ n.wholeValue ∧ n.wholeValue ≤ 2 ^ 63 - 1 := by
  rw [FitsInt64, ← Numeral.isIntegral_iff hn]
  constructor
  · rintro ⟨integral, range⟩
    rw [decimalValue_text hn integral] at range
    exact ⟨integral, range⟩
  · rintro ⟨integral, range⟩
    rw [decimalValue_text hn integral]
    exact ⟨integral, range⟩

theorem ofNumeral_eq_ite (hn : n.WellFormed) : Number.ofNumeral n =
    if FitsInt64 n.text then .int (Int64.ofInt (decimalValue n.text))
    else .float (Binary64.ofScientific n.negative n.significand n.scale) := by
  rw [Number.ofNumeral, Int64.toInt_minValue, Int64.toInt_maxValue]
  by_cases fits : FitsInt64 n.text
  · have whole := (fitsInt64_text_iff hn).1 fits
    rw [if_pos whole, if_pos fits, decimalValue_text hn whole.1]
  · rw [if_neg fits, if_neg ((fitsInt64_text_iff hn).not.1 fits)]

theorem ofNumeral_eq_int_iff (hn : n.WellFormed) {i : Int64} :
    Number.ofNumeral n = .int i ↔ FitsInt64 n.text ∧ decimalValue n.text = i.toInt := by
  rw [ofNumeral_eq_ite hn]
  by_cases fits : FitsInt64 n.text
  · have back : (Int64.ofInt (decimalValue n.text)).toInt = decimalValue n.text :=
      Int64.toInt_ofInt_of_le fits.2.1 (by have := fits.2.2; omega)
    rw [if_pos fits, Number.int.injEq, ← Int64.toInt_inj, back]
    exact (and_iff_right fits).symm
  · rw [if_neg fits]
    exact iff_of_false nofun fun h => fits h.1

theorem ofNumeral_eq_float_iff (hn : n.WellFormed) {y : Binary64} :
    Number.ofNumeral n = .float y ↔ ¬FitsInt64 n.text ∧ readBinary64? n.text = some y := by
  rw [ofNumeral_eq_ite hn, Numeral.readBinary64?_text hn, Option.some.injEq]
  by_cases fits : FitsInt64 n.text
  · rw [if_pos fits]
    exact iff_of_false nofun fun h => h.1 fits
  · rw [if_neg fits, Number.float.injEq]
    exact (and_iff_right fits).symm

structure Number.Classified (lexeme : String) (x : Number) : Prop where
  read : read? lexeme = some x
  converted : convert? lexeme.toList = some x
  int_iff : ∀ i : Int64, x = .int i ↔ FitsInt64 lexeme.toList ∧ decimalValue lexeme.toList = i.toInt
  float_iff : ∀ y, x = .float y ↔ ¬FitsInt64 lexeme.toList ∧ readBinary64? lexeme.toList = some y
  rounded : ∃ (n : Numeral) (y : Binary64), n.text = lexeme.toList ∧ readBinary64? lexeme.toList = some y ∧
    y.IsNearest n.negative (n.significand * 10 ^ n.scale)
  value : ∀ source s, Machine.numberValue lexeme source s = (.ok (.number x), s)
  token : ∀ levels ts, Parser.value? (levels + 1) (.number lexeme :: ts) = .ok (some (.number x, ts))

theorem value?_number (h : Number.read? lexeme = some x) (levels : Nat) (ts : List Token) :
    Parser.value? (levels + 1) (.number lexeme :: ts) = .ok (some (.number x, ts)) := by
  simp [Parser.value?, nested_eq_ok, h]

theorem classified_of_read? (h : Number.read? lexeme = some x) : Number.Classified lexeme x := by
  obtain ⟨n, hn, text, rfl⟩ := Number.read?_eq_some_iff.1 h
  have converted := Number.convert?_text hn
  have nearest := Binary64.ofScientific_isNearest n.negative n.significand n.scale
  refine ⟨h, text ▸ converted, ?_, ?_, ?_, fun source s => ?_, value?_number h⟩
  · exact fun i => text ▸ ofNumeral_eq_int_iff hn
  · exact fun y => text ▸ ofNumeral_eq_float_iff hn
  · exact ⟨n, _, text, text ▸ Numeral.readBinary64?_text hn, nearest⟩
  · rw [Machine.numberValue, h]
    rfl

structure Number.IsDefault (lexeme : String) (rest : List Char) (x : Number) : Prop where
  value : Parser.expectValue (lex (lexeme.toList ++ rest)).tokens = .ok (.number x, (lex rest).tokens)
  input : ∀ (field : String) (t : TypeRef) (gap : List Char), IsName field → t.WellFormed → t.levels ≤ 64 →
    (∀ c ∈ gap, isSeparator c) →
    Parser.inputValue (lex (field.toList ++ ':' :: (t.text.toList ++ '=' :: (gap ++ (lexeme.toList ++ rest))))).tokens =
      .ok (some (⟨field, t, some (.number x)⟩, (lex rest).tokens))
  document : ∀ (object field : String) (t : TypeRef), IsName object → IsName field → t.WellFormed → t.levels ≤ 64 →
    parse ("input " ++ object ++ " \x7b " ++ field ++ ": " ++ t.text ++ " = " ++ lexeme ++ " \x7d") =
      .ok ⟨[.item (.inputObject ⟨object, [.item ⟨field, t, some (.number x)⟩]⟩)]⟩

theorem lex_number (taken : Pattern.number.split? (lexeme.toList ++ rest) = some (lexeme.toList, rest)) :
    (lex (lexeme.toList ++ rest)).tokens = .number lexeme :: (lex rest).tokens := by
  have first := Token.Starts.pattern taken
  rw [String.ofList_toList] at first
  exact lex_of_starts first

theorem expectValue_number (taken : Pattern.number.split? (lexeme.toList ++ rest) = some (lexeme.toList, rest))
    (h : Number.read? lexeme = some x) :
    Parser.expectValue (lex (lexeme.toList ++ rest)).tokens = .ok (.number x, (lex rest).tokens) := by
  have levels : maxLevels = 63 + 1 := rfl
  rw [lex_number taken, Parser.expectValue, Parser.require, levels, value?_number h]
  rfl

theorem inputValue_number (taken : Pattern.number.split? (lexeme.toList ++ rest) = some (lexeme.toList, rest))
    (h : Number.read? lexeme = some x) (hf : IsName field) (ht : t.WellFormed) (hl : t.levels ≤ maxLevels)
    (hg : ∀ c ∈ gap, isSeparator c) :
    Parser.inputValue (lex (field.toList ++ ':' :: (t.text.toList ++ '=' :: (gap ++ (lexeme.toList ++ rest))))).tokens =
      .ok (some (⟨field, t, some (.number x)⟩, (lex rest).tokens)) := by
  have value := expectValue_number taken h
  rw [← lex_of_skipSeparators (skipSeparators_gap hg _)] at value
  have equals := lex_punctuator (c := '=') (by decide) (gap ++ (lexeme.toList ++ rest))
  have unmarked : Follows ['!'] (lex ('=' :: (gap ++ (lexeme.toList ++ rest)))).tokens := by
    rw [equals]
    exact follows_punctuator (by decide) _
  have type := expectType_text ht hl (fun _ _ => .cons (by decide) _) unmarked
  rw [lex_name hf (.cons (by decide) _), lex_punctuator (by decide)]
  simp only [Parser.inputValue, Parser.name?, expect_same, Except.ok_bind, type, equals, punctuator?_same, value]
  rfl

theorem parse_default (ho : IsName object) (hf : IsName field) (ht : t.WellFormed) (hl : t.levels ≤ maxLevels)
    (h : Number.read? lexeme = some x) :
    parse ("input " ++ object ++ " \x7b " ++ field ++ ": " ++ t.text ++ " = " ++ lexeme ++ " \x7d") =
      .ok ⟨[.item (.inputObject ⟨object, [.item ⟨field, t, some (.number x)⟩]⟩)]⟩ := by
  obtain ⟨ts, type_writes, type_form⟩ := (prints_type ht).1
  obtain ⟨us, value_writes, value_form⟩ := prints_number h
  have input : IsName "input" := by decide
  -- From the end of the text to its start, each piece with what stands behind it.
  have closing := (Writes.nil.punctuator (c := '}') rfl).separator (c := ' ') rfl
  have default := ((value_writes.append closing (.cons rfl _)).separator (c := ' ') rfl).punctuator (c := '=') rfl
  have type := (type_writes.append (default.separator (c := ' ') rfl) (.cons rfl _)).separator (c := ' ') rfl
  have body := (type.punctuator (c := ':') rfl).name_append hf (.cons rfl _)
  have block := ((body.separator (c := ' ') rfl).punctuator (c := '{') rfl).separator (c := ' ') rfl
  have source := ((block.name_append ho (.cons rfl _)).separator (c := ' ') rfl).name_append input (.cons rfl _)
  have field_form : Block '{' '}' InputForm _ [.item ⟨field, t, some (.number x)⟩] :=
    .mk (.cons (.item (.default field type_form value_form)) .nil)
  have document : DocumentForm _ ⟨[.item (.inputObject ⟨object, [.item ⟨field, t, some (.number x)⟩]⟩)]⟩ :=
    .mk (.cons (.item (.inputObject object field_form)) .nil)
  have demand : (Value.number x).demand ≤ maxLevels := by
    rw [Value.demand]
    decide
  refine parse_eq_ok_iff_form.2 ⟨_, ?_, document, ?_⟩
  · simpa using source.splits
  · simpa [Document.demand, Document.depth, Document.typeDefinitions, TypeDefinition.depth, FieldDefinition.depth,
      InputValueDefinition.depth, items, Member.item?, deepest, demand] using hl

theorem isDefault_of_taken (taken : Pattern.number.split? (lexeme.toList ++ rest) = some (lexeme.toList, rest))
    (h : Number.read? lexeme = some x) : Number.IsDefault lexeme rest x :=
  ⟨expectValue_number taken h, fun _ _ _ hf ht hl hg => inputValue_number taken h hf ht hl hg,
    fun _ _ _ ho hf ht hl => parse_default ho hf ht hl h⟩

theorem integer_taken_iff (i : Int64) (rest : List Char) : Pattern.number.split? ((toString i).toList ++ rest) =
    some ((toString i).toList, rest) ↔ (Numeral.ofInt i.toInt).EndsBefore rest := by
  have wellFormed := Numeral.ofInt_wellFormed i.toInt
  have text : (toString i).toList = (Numeral.ofInt i.toInt).text := Numeral.toList_toString i.toInt
  rw [text, ← Numeral.split?_integral_iff wellFormed rfl, Pattern.split?, Pattern.splitNumber?,
    Option.map_eq_some_iff]
  constructor
  · rintro ⟨⟨n, left⟩, taken, same⟩
    obtain ⟨same_text, rfl⟩ := Prod.mk.inj same
    rwa [Numeral.eq_of_text (Numeral.split?_wellFormed taken) wellFormed same_text] at taken
  · exact fun taken => ⟨_, taken, rfl⟩

/-- Whatever is matched as a number is one, and is read as what it is. The decimal text of a whole number of 64 bits is
matched to its end unless what stands behind it goes on, and is read as the number it was written for. -/
theorem number_classified :
    (∀ (lexeme : String) (rest : List Char),
      Pattern.number.matchLength? (lexeme.toList ++ rest) = some (byteLength lexeme.toList) →
      ∃ x, Number.Classified lexeme x ∧ Number.IsDefault lexeme rest x) ∧
    ∀ (i : Int64) (rest : List Char),
      (Pattern.number.matchLength? ((toString i).toList ++ rest) = some (byteLength (toString i).toList) ↔
        (Numeral.ofInt i.toInt).EndsBefore rest) ∧
      Number.Classified (toString i) (.int i) ∧
      ((Numeral.ofInt i.toInt).EndsBefore rest → Number.IsDefault (toString i) rest (.int i)) := by
  constructor
  · intro lexeme rest h
    have taken := Pattern.matchLength?_append_iff.1 h
    have written : (Token.number lexeme).WellFormed := Pattern.matches_of_split? taken
    obtain ⟨x, read⟩ := exists_read? written
    exact ⟨x, classified_of_read? read, isDefault_of_taken taken read⟩
  · intro i rest
    have taken_iff := integer_taken_iff i rest
    have read := Number.read?_toString i
    refine ⟨?_, classified_of_read? read, fun ended => isDefault_of_taken (taken_iff.2 ended) read⟩
    rw [Pattern.matchLength?_append_iff, taken_iff]

theorem number_classified_ends :
    let last := "-9223372036854775808"
    let below := "-9223372036854775809"
    let behind := ['e', ':', 'T']
    toString Int64.minValue = last ∧ Pattern.number.matchLength? (last.toList ++ behind) = some 20 ∧
      Parser.expectValue (lex (last.toList ++ behind)).tokens =
        .ok (.number (.int Int64.minValue), (lex behind).tokens) ∧
      Pattern.number.matchLength? (below.toList ++ behind) = some 20 ∧
      Number.Classified below (.float (.ofScientific true (2 ^ 63) 0)) := by
  intro last below behind
  have written : toString Int64.minValue = last := by decide +kernel
  have size : byteLength last.toList = 20 ∧ byteLength below.toList = 20 := by decide +kernel
  have ended : (Numeral.ofInt Int64.minValue.toInt).EndsBefore ['e', ':', 'T'] := by
    refine ⟨.inr (.cons rfl _), fun cs h => by simp at h, ?_⟩
    rintro c cs ⟨⟩ -
    exact .cons rfl _
  have matched : Pattern.number.matchLength? (below.toList ++ behind) = some 20 := by decide +kernel
  have rounded : Number.read? below = some (.float (.ofScientific true (2 ^ 63) 0)) := by decide +kernel
  obtain ⟨matched_iff, -, default⟩ := number_classified.2 Int64.minValue behind
  rw [written, size.1] at matched_iff
  obtain ⟨x, classified, -⟩ := number_classified.1 below behind (by rw [matched, size.2])
  obtain rfl := Option.some.inj (classified.read.symm.trans rounded)
  exact ⟨written, matched_iff.2 ended, written ▸ (default ended).value, matched, classified⟩

end Schemata
