import Mathlib.Data.List.DropRight
import Schemata.Proofs.Token.Splitting

namespace Schemata

open Text

/-- The tokens `ts` stand at the start of a text, and `input` is the text behind them and behind the separators that
follow them. -/
inductive Reaches : List Char → List Token → List Char → Prop
  | here {gap input : List Char} (h : ∀ c ∈ gap, isSeparator c) (hi : skipSeparators input = input) :
      Reaches (gap ++ input) [] input
  | token {gap input rest after : List Char} {t : Token} {ts : List Token} (h : ∀ c ∈ gap, isSeparator c)
      (first : Token.Starts input t rest) (others : Reaches rest ts after) : Reaches (gap ++ input) (t :: ts) after

namespace Reaches

variable {cs input : List Char} {ts : List Token}

theorem suffix (h : Reaches cs ts input) : input <:+ cs := by
  induction h with
  | @here gap input h hi => exact List.suffix_append gap input
  | @token gap input rest after t ts h first others ih =>
    have cut : rest <:+ gap ++ input := by
      rw [← first.text_append, ← List.append_assoc]
      exact List.suffix_append _ rest
    exact ih.trans cut

theorem skip_eq (h : Reaches cs ts input) : skipSeparators input = input := by
  induction h with
  | here h hi => exact hi
  | token h first others ih => exact ih

theorem splits_iff : Reaches cs ts [] ↔ Splits cs ts := by
  constructor
  · intro h
    generalize he : ([] : List Char) = input at h
    induction h with
    | @here gap input h hi =>
      subst he
      rw [List.append_nil]
      exact .done h
    | token h first others ih => exact .token h first (ih he)
  · intro h
    induction h with
    | @done gap h =>
      have here : Reaches (gap ++ []) [] [] := .here h rfl
      rwa [List.append_nil] at here
    | token h first others ih => exact .token h first ih

end Reaches

theorem skipSeparators_idem (cs : List Char) : skipSeparators (skipSeparators cs) = skipSeparators cs :=
  List.dropWhile_idempotent isSeparator cs

theorem reaches_skipSeparators (cs : List Char) : Reaches cs [] (skipSeparators cs) := by
  obtain ⟨gap, hgap, he⟩ := exists_gap cs
  have here := Reaches.here hgap (skipSeparators_idem cs)
  rwa [he] at here

namespace Lexed

def inputAt (l : Lexed) (k : Nat) : List Char := ((l.lexemes[k]?).map Prod.snd).getD l.rest

theorem inputBefore_eq (l : Lexed) (n : Nat) : l.inputBefore n = l.inputAt (l.tokens.length - n) := by
  rw [inputBefore, inputAt, tokens, List.length_map]
  cases l.lexemes[l.lexemes.length - n]? <;> rfl

theorem inputBefore_zero (l : Lexed) : l.inputBefore 0 = l.rest := by
  rw [inputBefore, Nat.sub_zero, List.getElem?_length]

end Lexed

theorem reaches_inputAt (cs : List Char) (k : Nat) : Reaches cs ((lex cs).tokens.take k) ((lex cs).inputAt k) := by
  fun_induction lex cs generalizing k with
  | case1 cs input hn =>
    rw [Lexed.tokens, List.map_nil, List.take_nil]
    exact reaches_skipSeparators cs
  | case2 cs input t rest hn l ih =>
    cases k with
    | zero => exact reaches_skipSeparators cs
    | succ k =>
      obtain ⟨gap, hgap, he⟩ := exists_gap cs
      have next : Reaches (gap ++ skipSeparators cs) (t :: l.tokens.take k) (l.inputAt k) :=
        .token hgap (Token.starts_of_next? hn) (ih k)
      rw [he] at next
      exact next

theorem inputAt_head? (cs : List Char) (k : Nat) :
    ((lex cs).inputAt k).head? =
      match (lex cs).tokens[k]? with
      | some t => t.text.toList.head?
      | none => (lex cs).rest.head? := by
  fun_induction lex cs generalizing k with
  | case1 cs input hn => rfl
  | case2 cs input t rest hn l ih =>
    cases k with
    | zero =>
      have first := Token.starts_of_next? hn
      change input.head? = t.text.toList.head?
      obtain ⟨c, text, hc⟩ := List.exists_cons_of_ne_nil first.text_ne_nil
      rw [← first.text_append, hc]
      rfl
    | succ k => exact ih k

theorem reaches_inputBefore (cs : List Char) (n : Nat) :
    Reaches cs ((lex cs).tokens.take ((lex cs).tokens.length - n)) ((lex cs).inputBefore n) := by
  rw [Lexed.inputBefore_eq]
  exact reaches_inputAt cs _

theorem skipSeparators_rest (cs : List Char) : skipSeparators (lex cs).rest = (lex cs).rest := by
  have rest := (reaches_inputBefore cs 0).skip_eq
  rwa [Lexed.inputBefore_zero] at rest

theorem inputBefore_head?_congr {cs cs' : List Char} (ht : (lex cs).tokens = (lex cs').tokens)
    (hr : (lex cs).rest.head? = (lex cs').rest.head?) (n : Nat) :
    ((lex cs).inputBefore n).head? = ((lex cs').inputBefore n).head? := by
  rw [Lexed.inputBefore_eq, Lexed.inputBefore_eq, inputAt_head?, inputAt_head?, ht, hr]

end Schemata
