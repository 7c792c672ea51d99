import Schemata.Proofs.Grammar.Causes
import Schemata.Proofs.Grammar.Layout
import Schemata.Proofs.Reading.Totality
import Schemata.Proofs.Text.Position
import Schemata.Proofs.Token.Beginnings
import Schemata.Proofs.Token.Cursor

namespace Schemata

open Text

theorem endedBy_getLast? (lines : List (List Char)) : endedBy lines = [] ∨ (endedBy lines).getLast? = some '\n' := by
  rcases List.eq_nil_or_concat lines with rfl | ⟨others, line, rfl⟩
  · exact .inl rfl
  · right
    simp [endedBy]

structure Position.Behind (p : Position) (before : List Char) : Prop where
  offset : p.offset = byteLength before
  line : p.line = before.count '\n'
  col : ∃ lines last, lines ++ last = before ∧ (lines = [] ∨ lines.getLast? = some '\n') ∧ '\n' ∉ last ∧
    p.col = last.length

theorem Position.after_behind (before : List Char) : (after before).Behind before := by
  obtain ⟨lines, last, ended, begun, rfl⟩ := exists_lines before
  refine ⟨rfl, rfl, endedBy lines, last, rfl, endedBy_getLast? lines, begun, ?_⟩
  rw [after_endedBy ended begun]

namespace Cause

variable {cause : Cause} {c : Cursor}

theorem error_found (h : skipSeparators c.rest = c.rest) {what : String} {found : Option String}
    (hk : (cause.error c).kind = .expectedToken what found) : found = c.rest.head?.map String.singleton := by
  rw [← Cursor.peek?_eq h]
  cases cause with
  | expected => exact (SyntaxErrorKind.expectedToken.inj hk).2.symm
  | notExtendable => exact (SyntaxErrorKind.expectedToken.inj hk).2.symm
  | invalidDefinition => cases hk
  | nestedTooDeep => cases hk

theorem error_invalid (hk : (cause.error c).kind = .invalidDefinition) : cause = .invalidDefinition := by
  cases cause with
  | invalidDefinition => rfl
  | _ => cases hk

theorem error_atOffset? (h : skipSeparators c.rest = c.rest) :
    SyntaxError.atOffset? c.source (cause.error c).position.offset (cause.error c).kind (cause.error c).message =
      some { cause.error c with notes := [] } := by
  have cut : Position.ofOffset? c.source (byteLength c.consumed) = some (.after c.consumed) :=
    Position.ofOffset?_byteLength c.consumed c.rest
  have place : c.significant.position = .after c.consumed := by rw [Cursor.significant_eq h, Cursor.position]
  rw [error_position h, SyntaxError.atOffset?]
  change (Position.ofOffset? c.source (byteLength c.consumed)).map _ = _
  rw [cut, ← place]
  cases cause <;> rfl

end Cause

theorem inputBefore_ne_nil {cs : List Char} {f : Failure} (h : Document.ofLexed (lex cs) = .error f)
    (hc : f.cause = .invalidDefinition) : (lex cs).inputBefore f.input.length ≠ [] := by
  intro nothing
  have place := reaches_inputBefore cs f.input.length
  rw [nothing] at place
  obtain ⟨tokens, rest⟩ := lex_of_splits (Reaches.splits_iff.1 place)
  rcases Document.ofLexed_invalid h hc with left | left
  · have some_left := List.length_pos_iff.2 left
    have inside := (Document.ofLexed_fails_within h).length_le
    have all := congrArg List.length tokens
    rw [List.length_take] at all
    omega
  · exact left rest

/-- An error is at the end of a character of the source, and at no separator. Cutting the source there gives it again,
and it is what the run over the bytes of the source ends with. -/
theorem parse_error_place {source : String} {e : SyntaxError} (he : parse source = .error e) :
    ∃ before rest, before ++ rest = source.toList ∧ e.position.Behind before ∧
      e.position.offset ≤ byteLength source.toList ∧
      (∀ c, rest.head? = some c → ¬isSeparator c) ∧
      (∀ what found, e.kind = .expectedToken what found →
        found = rest.head?.map String.singleton ∧ (found = none ↔ e.position.offset = byteLength source.toList)) ∧
      (e.kind = .invalidDefinition → e.position.offset < byteLength source.toList) ∧
      SyntaxError.atOffset? source.toList e.position.offset e.kind e.message = some { e with notes := [] } ∧
      (Machine.run source.toList).1 = .error (.failed e) := by
  obtain ⟨f, hf⟩ := exists_failure he
  obtain ⟨c, hs, hr, hp⟩ := parse_of_error hf
  obtain rfl : f.cause.error c = e := Except.error.inj (hp.symm.trans he)
  have reached := reaches_inputBefore source.toList f.input.length
  rw [← hr] at reached
  have behind : (f.cause.error c).position.Behind c.consumed := by
    rw [Cause.error_position reached.skip_eq]
    exact Position.after_behind c.consumed
  have inside : byteLength c.consumed ≤ byteLength source.toList := hs ▸ c.offset_le
  have at_end : byteLength c.consumed = byteLength source.toList ↔ c.rest = [] := hs ▸ c.offset_eq_iff
  refine ⟨c.consumed, c.rest, hs, behind, ?_, ?_, ?_, ?_, ?_, ?_⟩
  · rwa [behind.offset]
  · intro d hd
    simp [reached.stops d hd]
  · intro what found hk
    obtain rfl := Cause.error_found reached.skip_eq hk
    refine ⟨rfl, ?_⟩
    rw [behind.offset, at_end, Option.map_eq_none_iff, List.head?_eq_none_iff]
  · intro hk
    have left := inputBefore_ne_nil hf (Cause.error_invalid hk)
    rw [← hr] at left
    rw [behind.offset]
    exact Nat.lt_of_le_of_ne inside (mt at_end.1 left)
  · rw [← hs]
    exact Cause.error_atOffset? reached.skip_eq
  · rw [run_result, he]
    rfl

theorem parse_error_place_letter :
    let source := "#é\ntype A \x7b\n é"
    ∃ e before rest, parse source = .error e ∧ e.kind = .expectedToken "\"\x7d\"" (some "é") ∧
      e.position = ⟨2, 1, 14⟩ ∧ before ++ rest = source.toList ∧ e.position.Behind before ∧
      some "é" = rest.head?.map String.singleton := by
  intro source
  have failed : parse source = .error (SyntaxError.atPosition source.toList ⟨2, 1, 14⟩
      (.expectedToken "\"\x7d\"" (some "é")) "Expected \"\x7d\" but got \"é\"") := by
    simp only [source]
    decide +kernel
  obtain ⟨before, rest, cut, behind, -, -, found, -⟩ := parse_error_place failed
  exact ⟨_, before, rest, failed, rfl, rfl, cut, behind, (found _ _ rfl).1⟩

end Schemata
