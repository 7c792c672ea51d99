import Schemata.Proofs.Grammar.Consuming
import Schemata.Proofs.Grammar.Layout
import Schemata.Proofs.Text.Position

namespace Schemata

open Text Grammar

namespace Grammar

open Schemata.Parser

variable {ts us : List Token} {members : List (Member TypeDefinition)}

theorem definitions_append (h : Many (Entry Definitions) ts members)
    (hu : ∀ u, members.getLast? = some (.item (.union u)) → Follows ['|'] us) :
    many (member definition) (ts ++ us) = (many (member definition) us).map fun r => (members ++ r.1, r.2) := by
  have opened : Opened Definitions := DefinitionForm.opened.within _ _
  induction h with
  | nil => cases h : many (member definition) us <;> rw [List.nil_append, h] <;> rfl
  | @cons ts ts' m members first others ih =>
    -- Behind a union that is not the last item stands another item, and none starts with a bar.
    have follows : ∀ u, m = .item (.union u) → Follows ['|'] (ts' ++ us) := by
      rintro u rfl
      cases others with
      | nil => exact hu u rfl
      | cons second _ =>
        rw [List.append_assoc]
        exact (ended_entry opened second _).unjoined
    have later : ∀ u, members.getLast? = some (.item (.union u)) → Follows ['|'] us := by
      intro u hl
      apply hu u
      rw [List.getLast?_cons, hl]
      rfl
    have read : member definition (ts ++ (ts' ++ us)) = .ok (some (m, ts' ++ us)) := by
      cases first with
      | comment text => rfl
      | item hd =>
        have item := definition_reads hd fun u hu => follows u (congrArg Member.item hu)
        obtain ⟨t, rest, rfl, ht⟩ := opened hd
        exact member_of_item ht item
    have shorter : (ts' ++ us).length < (ts ++ (ts' ++ us)).length := by
      have := List.length_pos_iff.2 (opened.entry_ne_nil first)
      simp only [List.length_append]
      omega
    rw [List.append_assoc, many_of_some read shorter, ih later]
    cases many (member definition) us <;> rfl

theorem document_append {d : Document} (hd : document ts = .ok d)
    (hu : ∀ u, d.definitions.getLast? = some (.item (.union u)) → Follows ['|'] us) :
    document (ts ++ us) = (document us).map fun d' => ⟨d.definitions ++ d'.definitions⟩ := by
  obtain ⟨⟨h⟩, hl⟩ := document_eq_ok_iff.1 hd
  have read := definitions_append (many_within.2 ⟨h, hl⟩) hu
  rw [document, document, read]
  cases many (member definition) us with
  | error f => rfl
  | ok r =>
    simp only [Except.map, Except.ok_bind]
    split <;> rfl

theorem document_unjoined {d : Document} (hd : document us = .ok d) : Follows ['|'] us := by
  obtain ⟨⟨h⟩, -⟩ := document_eq_ok_iff.1 hd
  cases h with
  | nil => exact ended_nil.unjoined
  | cons first others => exact (ended_entry DefinitionForm.opened first _).unjoined

end Grammar

theorem unjoined_of_head? {cs : List Char} (h : (skipSeparators cs).head? ≠ some '|') :
    Follows ['|'] (lex cs).tokens := by
  intro c hc
  obtain rfl := List.mem_singleton.1 hc
  cases hn : Token.next? (skipSeparators cs) with
  | none =>
    rw [lex_of_none hn]
    rfl
  | some q =>
    rw [(lex_of_next? rfl hn).1]
    cases ht : q.1 with
    | punctuator d =>
      have cut := (Token.starts_of_next? hn).text_append
      rw [ht, Token.text, String.toList_singleton, List.singleton_append] at cut
      have other : d ≠ '|' := by
        rintro rfl
        exact h (by rw [← cut]; rfl)
      simp [Parser.punctuator?, other]
    | _ => rfl

namespace Document

theorem ofLexed_newline {cs more : List Char} {d : Document} (hd : ofLexed (lex cs) = .ok d)
    (hu : ∀ u, d.definitions.getLast? = some (.item (.union u)) → Follows ['|'] (lex more).tokens) :
    ofLexed (lex (cs ++ '\n' :: more)) =
      (ofLexed (lex more)).map fun d' => ⟨d.definitions ++ d'.definitions⟩ := by
  obtain ⟨read, whole⟩ := ofLexed_eq_ok_iff.1 hd
  have rest : (lex (cs ++ '\n' :: more)).rest = (lex more).rest := by rw [lex_newline whole]
  rw [ofLexed, ofLexed, lex_newline_tokens whole, document_append read hu, rest]
  cases Parser.document (lex more).tokens with
  | error f => rfl
  | ok d' =>
    simp only [Except.map, Except.ok_bind]
    split <;> rfl

end Document

/-- A text behind one that is read adds its definitions, or fails as it does by itself, in the same column of a later
line. -/
theorem parse_concatenation {s₁ s₂ : String} {d₁ : Document} (h : parse s₁ = .ok d₁) :
    (∀ d₂, parse s₂ = .ok d₂ → parse (s₁ ++ "\n" ++ s₂) = .ok ⟨d₁.definitions ++ d₂.definitions⟩) ∧
    ∀ e, parse s₂ = .error e →
      ¬((∃ u, d₁.definitions.getLast? = some (.item (.union u))) ∧ (skipSeparators s₂.toList).head? = some '|') →
      ∃ e', parse (s₁ ++ "\n" ++ s₂) = .error e' ∧ e'.message = e.message ∧ e'.kind = e.kind ∧ e'.notes = e.notes ∧
        e'.position = ⟨s₁.toList.count '\n' + 1 + e.position.line, e.position.col,
          byteLength s₁.toList + 1 + e.position.offset⟩ := by
  have text : (s₁ ++ "\n" ++ s₂).toList = s₁.toList ++ '\n' :: s₂.toList := by simp
  have read := parse_eq_ok_iff.1 h
  constructor
  · intro d₂ h₂
    have read₂ := parse_eq_ok_iff.1 h₂
    have joined := Document.ofLexed_newline read fun u _ => document_unjoined (ofLexed_eq_ok_iff.1 read₂).1
    rw [parse_eq_ok_iff, text, joined, read₂]
    rfl
  · intro e h₂ hu
    obtain ⟨f, failed⟩ := exists_failure h₂
    have follows : ∀ u, d₁.definitions.getLast? = some (.item (.union u)) → Follows ['|'] (lex s₂.toList).tokens :=
      fun u hl => unjoined_of_head? fun hs => hu ⟨⟨u, hl⟩, hs⟩
    have joined := Document.ofLexed_newline read follows
    rw [failed, ← text] at joined
    obtain ⟨c, source, rest, he⟩ := parse_of_error joined
    obtain ⟨c₂, source₂, rest₂, he₂⟩ := parse_of_error failed
    obtain rfl : e = f.cause.error c₂ := Except.error.inj (h₂.symm.trans he₂)
    have skip : skipSeparators c₂.rest = c₂.rest := by
      rw [rest₂]
      exact (reaches_inputBefore s₂.toList _).skip_eq
    have same : c.rest = c₂.rest := by
      rw [rest, rest₂, text]
      exact lex_newline_inputBefore (ofLexed_eq_ok_iff.1 read).2 (Document.ofLexed_fails_within failed).length_le
    have before : c.consumed = s₁.toList ++ '\n' :: c₂.consumed := by
      rw [text, ← source₂, Cursor.source, Cursor.source, same, ← List.cons_append, ← List.append_assoc] at source
      exact List.append_cancel_right source
    have skip' : skipSeparators c.rest = c.rest := same ▸ skip
    obtain ⟨message, kind, notes⟩ := f.cause.error_alike skip' skip (congrArg List.head? same)
    refine ⟨_, he, message, kind, notes, ?_⟩
    rw [Cause.error_position skip', Cause.error_position skip, before, Position.after_newline]

theorem parse_concatenation_union :
    let first := "union U = A"
    let whole := "type A\x7bf:Int\x7d"
    let broken := "\ntype A\x7bf Int\x7d"
    (∃ d₁ d₂, parse first = .ok d₁ ∧ parse whole = .ok d₂ ∧
        parse (first ++ "\n" ++ whole) = .ok ⟨d₁.definitions ++ d₂.definitions⟩) ∧
      ∃ e e', parse broken = .error e ∧ parse (first ++ "\n" ++ broken) = .error e' ∧ e'.message = e.message ∧
        e'.position = ⟨1 + e.position.line, e.position.col, 12 + e.position.offset⟩ := by
  intro first whole broken
  let union : UnionDefinition := ⟨"U", ["A"]⟩
  let object : ObjectDefinition := ⟨"A", [], [.item ⟨"f", none, .named "Int"⟩]⟩
  have h₁ : parse first = .ok ⟨[.item (.union union)]⟩ := by dsimp only [first, union]; decide +kernel
  have h₂ : parse whole = .ok ⟨[.item (.object object)]⟩ := by dsimp only [whole, object]; decide +kernel
  have failed : Document.ofLexed (lex broken.toList) =
      .error ⟨.expected "\":\"", [.name "Int", .punctuator '}'], 0⟩ := by
    dsimp only [broken]
    decide +kernel
  obtain ⟨c, -, -, he⟩ := parse_of_error failed
  have lines : first.toList.count '\n' + 1 = 1 := by decide
  have size : byteLength first.toList + 1 = 12 := by decide
  have no_bar : (skipSeparators broken.toList).head? ≠ some '|' := by decide
  obtain ⟨e', he', message, -, -, position⟩ := (parse_concatenation h₁).2 _ he fun h => no_bar h.2
  rw [lines, size] at position
  exact ⟨⟨_, _, h₁, h₂, (parse_concatenation h₁).1 _ h₂⟩, _, e', he, he', message, position⟩

-- A bar goes on with the union before it.
example : parse "union U = A\n|B" = .ok ⟨[.item (.union ⟨"U", ["A", "B"]⟩)]⟩ := by decide +kernel

end Schemata
