import Mathlib.Tactic.ByContra
import Schemata.Token.Basic
/-!
How a text splits into tokens. `Splits` says it without an order of tries: separators, then a
punctuator or the match of some pattern, and so on. `lex` finds this splitting if there is one.
-/

namespace Schemata

open Text

inductive Token.Starts : List Char → Token → List Char → Prop
  | punctuator {c : Char} (rest : List Char) (h : isPunctuator c) : Starts (c :: rest) (.punctuator c) rest
  | pattern {p : Pattern} {input text rest : List Char} (h : p.split? input = some (text, rest)) :
      Starts input (.ofPattern p (String.ofList text)) rest

inductive Splits : List Char → List Token → Prop
  | done {gap : List Char} (h : ∀ c ∈ gap, isSeparator c) : Splits gap []
  | token {gap input rest : List Char} {t : Token} {ts : List Token} (h : ∀ c ∈ gap, isSeparator c)
      (first : Token.Starts input t rest) (others : Splits rest ts) : Splits (gap ++ input) (t :: ts)

def Pattern.opens : Pattern → Char → Bool
  | .name, c => isNameStart c
  | .number, c => c == '-' || c.isDigit
  | .string, c => c == '"'
  | .comment, c => c == '#'

namespace Pattern

theorem split?_nil (p : Pattern) : p.split? [] = none := by cases p <;> rfl

theorem splitWhole?_opens {c : Char} {cs : List Char} {q : List Char × List Char}
    (h : Numeral.splitWhole? (c :: cs) = some q) : c.isDigit := by
  simp only [Numeral.splitWhole?] at h
  split at h
  · next hc => subst hc; decide
  · split at h
    · assumption
    · cases h

theorem opens_of_split? {p : Pattern} {c : Char} {cs : List Char} {q : List Char × List Char}
    (h : p.split? (c :: cs) = some q) : p.opens c := by
  cases p with
  | name =>
    simp only [split?, splitName?] at h
    split at h
    · assumption
    · cases h
  | number =>
    by_cases hc : c = '-'
    · simp [opens, hc]
    · have hm : Numeral.minus (c :: cs) = (false, c :: cs) := by
        unfold Numeral.minus
        split
        · next he => exact absurd (List.cons.inj he).1 hc
        · rfl
      simp only [split?, splitNumber?, Numeral.split?, hm, Option.map_eq_some_iff,
        Option.bind_eq_bind, Option.bind_eq_some_iff] at h
      obtain ⟨_, ⟨_, hw, _⟩, _⟩ := h
      simp [opens, splitWhole?_opens hw]
  | string =>
    simp only [split?, splitString?] at h
    split at h
    · next he => simp [opens, (List.cons.inj he).1]
    · cases h
  | comment =>
    simp only [split?, splitComment?] at h
    split at h
    · next he => simp [opens, (List.cons.inj he).1]
    · cases h

end Pattern

theorem isNameStart_iff {c : Char} :
    isNameStart c ↔ c.toNat = 95 ∨ (65 ≤ c.toNat ∧ c.toNat ≤ 90) ∨ (97 ≤ c.toNat ∧ c.toNat ≤ 122) := by
  have letter : c.isAlpha = (c.isUpper || c.isLower) := rfl
  have upper : c.isUpper = decide (c.val ≥ 65 ∧ c.val ≤ 90) := rfl
  have lower : c.isLower = (decide (c.val ≥ 97) && decide (c.val ≤ 122)) := rfl
  simp [isNameStart, letter, upper, lower, UInt32.le_iff_toNat_le, ← Char.toNat_inj]

theorem isSeparator_range {c : Char} (h : isSeparator c) :
    c.toNat ≤ 32 ∨ c.toNat = 44 ∨ 160 ≤ c.toNat := by
  simp [isSeparator, inRanges, separatorRanges] at h
  omega

theorem isPunctuator_code {c : Char} (h : isPunctuator c) :
    c.toNat ∈ [123, 125, 40, 41, 91, 93, 58, 61, 124, 38, 33] := by
  simp only [isPunctuator, decide_eq_true_eq] at h
  exact List.mem_map_of_mem (f := Char.toNat) h

namespace Pattern

theorem opens_code {p : Pattern} {c : Char} (h : p.opens c) :
    match p with
    | .name => c.toNat = 95 ∨ (65 ≤ c.toNat ∧ c.toNat ≤ 90) ∨ (97 ≤ c.toNat ∧ c.toNat ≤ 122)
    | .number => c.toNat = 45 ∨ (48 ≤ c.toNat ∧ c.toNat ≤ 57)
    | .string => c.toNat = 34
    | .comment => c.toNat = 35 := by
  cases p with
  | name => exact isNameStart_iff.1 h
  | number =>
    simp only [opens, Bool.or_eq_true, beq_iff_eq, Char.isDigit_iff_toNat] at h
    rcases h with rfl | h
    · exact .inl rfl
    · exact .inr h
  | string =>
    simp only [opens, beq_iff_eq] at h
    exact h ▸ rfl
  | comment =>
    simp only [opens, beq_iff_eq] at h
    exact h ▸ rfl

theorem opens_unique {p q : Pattern} {c : Char} (hp : p.opens c) (hq : q.opens c) : p = q := by
  have hp := opens_code hp
  have hq := opens_code hq
  cases p <;> cases q <;> first | rfl | (simp only at hp hq; omega)

theorem not_punctuator {p : Pattern} {c : Char} (h : p.opens c) : isPunctuator c = false := by
  have hp := opens_code h
  by_contra hc
  have hc := isPunctuator_code (by simpa using hc)
  cases p <;> simp at hp hc <;> omega

theorem not_separator {p : Pattern} {c : Char} (h : p.opens c) : isSeparator c = false := by
  have hp := opens_code h
  by_contra hc
  have hc := isSeparator_range (by simpa using hc)
  cases p <;> simp only at hp <;> omega

end Pattern

theorem not_separator_of_isPunctuator {c : Char} (h : isPunctuator c) : isSeparator c = false := by
  have hp := isPunctuator_code h
  by_contra hc
  have hc := isSeparator_range (by simpa using hc)
  simp at hp
  omega

theorem Token.next?_of_starts {input rest : List Char} {t : Token} (h : Starts input t rest) :
    next? input = some (t, rest) := by
  cases h with
  | punctuator _ h => simp [next?, h]
  | @pattern p _ text _ h =>
    cases input with
    | nil => simp [Pattern.split?_nil] at h
    | cons c cs =>
      have ho : p.opens c := Pattern.opens_of_split? h
      have hother (q : Pattern) (hq : q ≠ p) : q.split? (c :: cs) = none := by
        by_contra hn
        obtain ⟨r, hr⟩ := Option.ne_none_iff_exists'.1 hn
        exact hq (Pattern.opens_unique (Pattern.opens_of_split? hr) ho)
      simp only [next?, Pattern.not_punctuator ho, Bool.false_eq_true, if_false]
      cases p <;> simp [h, hother]

theorem Token.starts_of_next? {input rest : List Char} {t : Token} (h : next? input = some (t, rest)) :
    Starts input t rest := by
  cases input with
  | nil => simp [next?] at h
  | cons c cs =>
    simp only [next?] at h
    split at h
    · next hc =>
      obtain ⟨rfl, rfl⟩ : .punctuator c = t ∧ cs = rest := by simpa using h
      exact .punctuator _ hc
    · obtain ⟨p, _, hp⟩ := List.exists_of_findSome?_eq_some h
      obtain ⟨⟨text, rest⟩, hq, he⟩ := Option.map_eq_some_iff.1 hp
      obtain ⟨rfl, rfl⟩ := Prod.mk.injEq .. ▸ he
      exact .pattern hq

theorem Token.Starts.text_append {input rest : List Char} {t : Token} (h : Starts input t rest) :
    t.text.toList ++ rest = input := by
  cases h with
  | punctuator rest hc => rw [text, String.toList_singleton, List.singleton_append]
  | @pattern p _ text _ h =>
    have cut := (Pattern.split?_append h).1
    cases p <;> simpa [ofPattern, Token.text] using cut

theorem Token.Starts.text_ne_nil {input rest : List Char} {t : Token} (h : Starts input t rest) :
    t.text.toList ≠ [] := by
  cases h with
  | punctuator rest hc =>
    rw [text, String.toList_singleton]
    exact List.cons_ne_nil _ _
  | @pattern p _ text _ h =>
    have taken := (Pattern.split?_append h).2
    cases p <;> simpa [ofPattern, Token.text] using taken

theorem Token.skip_of_starts {input rest : List Char} {t : Token} (h : Starts input t rest) :
    skipSeparators input = input := by
  cases h with
  | punctuator _ h => simp [skipSeparators, not_separator_of_isPunctuator h]
  | @pattern p _ text _ h =>
    cases input with
    | nil => rfl
    | cons c cs => simp [skipSeparators, Pattern.not_separator (Pattern.opens_of_split? h)]

theorem skipSeparators_gap {gap : List Char} (h : ∀ c ∈ gap, isSeparator c) (input : List Char) :
    skipSeparators (gap ++ input) = skipSeparators input := List.dropWhile_append_of_pos h

theorem exists_gap (cs : List Char) : ∃ gap, (∀ c ∈ gap, isSeparator c) ∧ gap ++ skipSeparators cs = cs :=
  ⟨cs.takeWhile isSeparator, fun c h => List.all_eq_true.1 List.all_takeWhile c h, List.takeWhile_append_dropWhile⟩

theorem splits_lex {cs : List Char} (h : (lex cs).rest = []) : Splits cs (lex cs).tokens := by
  fun_induction lex cs with
  | case1 cs input hn =>
    obtain ⟨gap, hgap, he⟩ := exists_gap cs
    have hi : skipSeparators cs = [] := h
    rw [hi, List.append_nil] at he
    exact he ▸ .done hgap
  | case2 cs input t rest hn l ih =>
    obtain ⟨gap, hgap, he⟩ := exists_gap cs
    have htail : Splits rest l.tokens := ih h
    have := Splits.token hgap (Token.starts_of_next? hn) htail
    rw [he] at this
    exact this

theorem lex_of_none {cs : List Char} (hn : Token.next? (skipSeparators cs) = none) :
    lex cs = ⟨[], skipSeparators cs⟩ := by
  rw [lex]
  split
  · rfl
  · next h => rw [hn] at h; cases h

theorem lex_eq_cons {cs input rest : List Char} {t : Token} (hi : skipSeparators cs = input)
    (hn : Token.next? input = some (t, rest)) : lex cs = ⟨(t, input) :: (lex rest).lexemes, (lex rest).rest⟩ := by
  subst hi
  rw [lex]
  split
  · next h => rw [hn] at h; cases h
  · next h =>
    rw [hn] at h
    obtain ⟨rfl, rfl⟩ : t = _ ∧ rest = _ := by simpa using h
    rfl

theorem lex_of_next? {cs input rest : List Char} {t : Token} (hi : skipSeparators cs = input)
    (hn : Token.next? input = some (t, rest)) :
    (lex cs).tokens = t :: (lex rest).tokens ∧ (lex cs).rest = (lex rest).rest := by
  rw [lex_eq_cons hi hn]
  exact ⟨rfl, rfl⟩

theorem lex_of_starts {cs rest : List Char} {t : Token} (first : Token.Starts cs t rest) :
    (lex cs).tokens = t :: (lex rest).tokens :=
  (lex_of_next? (Token.skip_of_starts first) (Token.next?_of_starts first)).1

/-- A splitting is found by `lex`; so a text has at most one. -/
theorem lex_of_splits {cs : List Char} {ts : List Token} (h : Splits cs ts) :
    (lex cs).tokens = ts ∧ (lex cs).rest = [] := by
  induction h with
  | @done gap h =>
    have hi : skipSeparators gap = [] := by rw [← List.append_nil gap, skipSeparators_gap h]; rfl
    rw [lex_of_none (by rw [hi]; rfl)]
    exact ⟨rfl, hi⟩
  | @token gap input rest t ts h first _ ih =>
    have hi : skipSeparators (gap ++ input) = input := by
      rw [skipSeparators_gap h, Token.skip_of_starts first]
    obtain ⟨ht, hr⟩ := lex_of_next? hi (Token.next?_of_starts first)
    exact ⟨by rw [ht, ih.1], by rw [hr, ih.2]⟩

end Schemata
