import Schemata.Proofs.Grammar.Acceptance
import Schemata.Proofs.Token.Cursor
import Schemata.Proofs.Token.Lines
import Schemata.Proofs.Token.Places

namespace Schemata

open Text

def PlaceBehind (source : String) (ts : List Token) (p : Position) : Prop :=
  ∃ before input, before ++ input = source.toList ∧ Reaches source.toList ts input ∧ p = .after before

def ParseAlike (s s' : String) : Prop :=
  (∃ d, parse s = .ok d ∧ parse s' = .ok d) ∨
    ∃ e e', parse s = .error e ∧ parse s' = .error e' ∧ e.message = e'.message ∧ e.kind = e'.kind ∧
      e.notes = e'.notes ∧ ∃ ts, PlaceBehind s ts e.position ∧ PlaceBehind s' ts e'.position

namespace Cause

theorem error_position {cause : Cause} {c : Cursor} (h : skipSeparators c.rest = c.rest) :
    (cause.error c).position = .after c.consumed := by
  have place : c.significant.position = .after c.consumed := by rw [Cursor.significant_eq h, Cursor.position]
  cases cause <;> exact place

theorem error_alike (cause : Cause) {c c' : Cursor} (h : skipSeparators c.rest = c.rest)
    (h' : skipSeparators c'.rest = c'.rest) (head : c.rest.head? = c'.rest.head?) :
    (cause.error c).message = (cause.error c').message ∧ (cause.error c).kind = (cause.error c').kind ∧
      (cause.error c).notes = (cause.error c').notes := by
  have peeked : c.peek? = c'.peek? := by
    rw [Cursor.peek?, Cursor.peek?, Cursor.significant_eq h, Cursor.significant_eq h', head]
  cases cause <;>
    simp [error, Cursor.expectedError, Cursor.error, SyntaxError.atPosition, SyntaxError.addNote, peeked]

end Cause

theorem parse_of_error {s : String} {f : Failure} (h : Document.ofLexed (lex s.toList) = .error f) :
    ∃ c : Cursor, c.source = s.toList ∧ c.rest = (lex s.toList).inputBefore f.input.length ∧
      parse s = .error (f.cause.error c) := by
  have suffix := (reaches_inputBefore s.toList f.input.length).suffix
  let input := (lex s.toList).inputBefore f.input.length
  refine ⟨⟨s.toList.take (s.toList.length - input.length), input⟩, List.suffix_iff_eq_append.1 suffix, rfl, ?_⟩
  rw [parse, h]
  rfl

theorem exists_failure {s : String} {e : SyntaxError} (h : parse s = .error e) :
    ∃ f, Document.ofLexed (lex s.toList) = .error f := by
  cases hf : Document.ofLexed (lex s.toList) with
  | ok d => rw [parse_eq_ok_iff.2 hf] at h; cases h
  | error f => exact ⟨f, rfl⟩

theorem ofLexed_congr {l l' : Lexed} (ht : l.tokens = l'.tokens) (hr : l.rest = [] ↔ l'.rest = []) :
    Document.ofLexed l = Document.ofLexed l' := by
  have rest : l.rest.isEmpty = l'.rest.isEmpty := by
    rw [Bool.eq_iff_iff, List.isEmpty_iff, List.isEmpty_iff, hr]
  rw [Document.ofLexed, Document.ofLexed, ht, rest]

theorem parse_alike {s s' : String} (ht : (lex s.toList).tokens = (lex s'.toList).tokens)
    (hr : (lex s.toList).rest.head? = (lex s'.toList).rest.head?) : ParseAlike s s' := by
  have same : Document.ofLexed (lex s.toList) = Document.ofLexed (lex s'.toList) := by
    apply ofLexed_congr ht
    rw [← List.head?_eq_none_iff, hr, List.head?_eq_none_iff]
  cases h : Document.ofLexed (lex s.toList) with
  | ok d => exact .inl ⟨d, parse_eq_ok_iff.2 h, parse_eq_ok_iff.2 (same ▸ h)⟩
  | error f =>
    obtain ⟨c, hc, hi, he⟩ := parse_of_error h
    obtain ⟨c', hc', hi', he'⟩ := parse_of_error (same ▸ h)
    have place := reaches_inputBefore s.toList f.input.length
    have place' := reaches_inputBefore s'.toList f.input.length
    rw [← hi] at place
    rw [← hi', ← ht] at place'
    have head : c.rest.head? = c'.rest.head? := by
      rw [hi, hi']
      exact inputBefore_head?_congr ht hr f.input.length
    obtain ⟨message, kind, notes⟩ := f.cause.error_alike place.skip_eq place'.skip_eq head
    refine .inr ⟨_, _, he, he', message, kind, notes, _, ⟨_, _, hc, place, ?_⟩, _, _, hc', place', ?_⟩
    · exact Cause.error_position place.skip_eq
    · exact Cause.error_position place'.skip_eq

/-- Texts made of the same tokens are read alike; and so is any text without carriage returns when one is put before
each line break. -/
theorem parse_layout :
    (∀ (s s' : String) (ts ts' : List Token), Splits s.toList ts → Splits s'.toList ts' →
      ts.map Token.text = ts'.map Token.text → ParseAlike s s') ∧
    ∀ s : String, '\r' ∉ s.toList → ParseAlike s (String.ofList (withReturns s.toList)) := by
  constructor
  · intro s s' ts ts' hs hs' ht
    obtain rfl := Token.eq_of_texts hs.wellFormed hs'.wellFormed ht
    obtain ⟨tokens, rest⟩ := lex_of_splits hs
    obtain ⟨tokens', rest'⟩ := lex_of_splits hs'
    apply parse_alike
    · rw [tokens, tokens']
    · rw [rest, rest']
  · intro s hr
    obtain ⟨tokens, rest⟩ := lex_withReturns hr
    apply parse_alike
    · rw [String.toList_ofList, tokens]
    · rw [String.toList_ofList, rest, withReturns_head? (skipSeparators_rest s.toList)]

theorem parse_layout_fields :
    let one := "type A\x7bf:Int g\x7d"
    let three := "type A \x7b\n f: Int,\n g\x7d"
    let stray := "type A \x7b\n f: Int,\n ?"
    let ts := [.name "type", .name "A", .punctuator '{', .name "f", .punctuator ':', .name "Int", .name "g",
      .punctuator '}']
    Splits one.toList ts ∧ Splits three.toList ts ∧
      Document.ofLexed (lex one.toList) = .error ⟨.expected "\":\"", [.punctuator '}'], 0⟩ ∧ ParseAlike one three ∧
      '\r' ∉ stray.toList ∧ ParseAlike stray (String.ofList (withReturns stray.toList)) := by
  intro one three stray ts
  have first : Splits one.toList ts := by
    have tokens : (lex one.toList).tokens = ts := by simp only [one, ts]; decide +kernel
    exact tokens ▸ splits_lex (by simp only [one]; decide +kernel)
  have second : Splits three.toList ts := by
    have tokens : (lex three.toList).tokens = ts := by simp only [three, ts]; decide +kernel
    exact tokens ▸ splits_lex (by simp only [three]; decide +kernel)
  have failed : Document.ofLexed (lex one.toList) = .error ⟨.expected "\":\"", [.punctuator '}'], 0⟩ := by
    simp only [one]
    decide +kernel
  have no_return : '\r' ∉ stray.toList := by decide
  exact ⟨first, second, failed, parse_layout.1 one three ts ts first second rfl, no_return,
    parse_layout.2 stray no_return⟩

end Schemata
