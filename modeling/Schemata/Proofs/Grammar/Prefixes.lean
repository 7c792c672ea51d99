import Schemata.Proofs.Grammar.Layout
import Schemata.Proofs.Grammar.Nesting
import Schemata.Proofs.Grammar.Viability
import Schemata.Proofs.Token.Beginnings
import Schemata.Proofs.Token.Bytes

namespace Schemata

open Text Grammar

theorem lex_wellFormed (cs : List Char) : ∀ t ∈ (lex cs).tokens, t.WellFormed := by
  have all := reaches_inputBefore cs 0
  rw [Nat.sub_zero, List.take_length] at all
  obtain ⟨before, hb⟩ := all.suffix
  exact (all.splits hb).wellFormed

theorem splits_before {s : String} {c : Cursor} {ts : List Token} {f : Failure} (hs : c.source = s.toList)
    (hr : c.rest = (lex s.toList).inputBefore f.input.length) (ht : ts ++ f.input = (lex s.toList).tokens) :
    Splits c.consumed ts := by
  have place := reaches_inputBefore s.toList f.input.length
  have taken : (lex s.toList).tokens.take ((lex s.toList).tokens.length - f.input.length) = ts := by
    rw [← ht]
    simp
  rw [taken, ← hr] at place
  exact place.splits hs

theorem parse_of_document {cs : List Char} {ts : List Token} {d : Document} (hs : Splits cs ts) (hd : Documents ts d) :
    parse (String.ofList cs) = .ok d :=
  parse_eq_ok_iff_form.2 ⟨ts, by rwa [String.toList_ofList], hd⟩

theorem parse_completed {cs : List Char} {ts fillers : List Token} {d : Document} (hs : Splits cs ts)
    (hf : ∀ t ∈ fillers, t.WellFormed) (hd : Documents (ts ++ fillers) d) :
    parse (String.ofList (cs ++ '\n' :: layout fillers)) = .ok d := by
  obtain ⟨tokens, rest⟩ := lex_of_splits hs
  obtain ⟨others, nothing⟩ := lex_of_splits (splits_layout hf)
  have lexed := lex_newline rest (layout fillers)
  refine parse_of_document (splits_lex ?_) ?_
  · rw [lexed, nothing]
  · rwa [lex_newline_tokens rest, tokens, others]

theorem ofLexed_viable {s : String} {f : Failure} (h : Document.ofLexed (lex s.toList) = .error f)
    (hd : f.depth ≤ 63) (hc : f.cause ≠ .nestedTooDeep) :
    ∃ ts fillers d, ts ++ f.input = (lex s.toList).tokens ∧ (∀ t ∈ fillers, t.WellFormed) ∧
      Documents (ts ++ fillers) d ∧ (f.cause = .invalidDefinition → fillers = []) := by
  have breaks : Breaks maxLevels (lex s.toList).tokens (Document.ofLexed (lex s.toList)) f :=
    ⟨h, lex_wellFormed s.toList, hc, Nat.lt_succ_of_le hd⟩
  rcases breaks.bind with h | ⟨d, hr, h⟩
  · rcases document_viable h with ⟨cause, before, fillers, d, place, hf, hd⟩ | ⟨-, ts, d, place, hd⟩
    · exact ⟨before, fillers, d, place, fun t ht => wellFormed_of_isFiller (List.all_eq_true.1 hf t ht), hd,
        fun hi => absurd hi cause⟩
    · exact ⟨ts, [], d, place, nofun, by rwa [List.append_nil], fun _ => rfl⟩
  · have failed := h.failed
    split at failed
    · cases failed
    · cases failed
      exact ⟨_, [], d, List.append_nil _, nofun, by rw [List.append_nil]; exact document_eq_ok_iff.1 hr, fun _ => rfl⟩

/-- A syntax error, nesting apart, is reported at a place up to which the text is the beginning of one that is read;
and where a definition should have started, the text up to the place is read itself. -/
theorem parse_error_viable {source : String} {e : SyntaxError} {f : Failure} (he : parse source = .error e)
    (hk : e.kind ≠ .recursionLimitExceeded) (hf : Document.ofLexed (lex source.toList) = .error f) (hd : f.depth ≤ 63) :
    ∃ before after, splitAtByte? e.position.offset source.toList = some (before, after) ∧
      (∃ more d, parse (String.ofList (before ++ more)) = .ok d) ∧
      (e.kind = .invalidDefinition → ∃ d, parse (String.ofList before) = .ok d) := by
  obtain ⟨c, hs, hr, hp⟩ := parse_of_error hf
  obtain rfl : f.cause.error c = e := Except.error.inj (hp.symm.trans he)
  have shallow : f.cause ≠ .nestedTooDeep := by
    intro hc
    rw [hc] at hk
    exact hk (Cause.error_kind c)
  obtain ⟨ts, fillers, d, ht, written, document, ends⟩ := ofLexed_viable hf hd shallow
  have splits := splits_before hs hr ht
  have place : (f.cause.error c).position = .after c.consumed := by
    apply Cause.error_position
    rw [hr]
    exact (reaches_inputBefore source.toList f.input.length).skip_eq
  refine ⟨c.consumed, c.rest, ?_, ⟨_, d, parse_completed splits written document⟩, fun hi => ⟨d, ?_⟩⟩
  · rw [place, ← hs]
    exact splitAtByte?_byteLength c.consumed c.rest
  · have nothing : fillers = [] := by
      apply ends
      generalize f.cause = cause at hi
      cases cause with
      | invalidDefinition => rfl
      | _ => cases hi
    rw [nothing, List.append_nil] at document
    exact parse_of_document splits document

theorem parse_error_viable_list :
    let list := "input A \x7b f: [[Int]] = [[1 ="
    let stray := "scalar A ?"
    (∃ e before after, parse list = .error e ∧ splitAtByte? e.position.offset list.toList = some (before, after) ∧
      ∃ more d, parse (String.ofList (before ++ more)) = .ok d) ∧
    ∃ e before after, parse stray = .error e ∧ e.kind = .invalidDefinition ∧
      splitAtByte? e.position.offset stray.toList = some (before, after) ∧ ∃ d, parse (String.ofList before) = .ok d := by
  intro list stray
  have unclosed : Document.ofLexed (lex list.toList) = .error ⟨.expected "\"]\"", [.punctuator '='], 2⟩ := by
    simp only [list]
    decide +kernel
  have undefined : Document.ofLexed (lex stray.toList) = .error ⟨.invalidDefinition, [], 0⟩ := by
    simp only [stray]
    decide +kernel
  obtain ⟨c, -, -, hp⟩ := parse_of_error unclosed
  obtain ⟨c', -, -, hp'⟩ := parse_of_error undefined
  constructor
  · have kind : (Cause.error (.expected "\"]\"") c).kind ≠ .recursionLimitExceeded := by
      intro hk
      cases hk
    obtain ⟨before, after, cut, completed, -⟩ := parse_error_viable hp kind unclosed (by decide)
    exact ⟨_, before, after, hp, cut, completed⟩
  · have kind : (Cause.error .invalidDefinition c').kind ≠ .recursionLimitExceeded := by
      intro hk
      cases hk
    obtain ⟨before, after, cut, -, whole⟩ := parse_error_viable hp' kind undefined (by decide)
    exact ⟨_, before, after, hp', rfl, cut, whole rfl⟩

end Schemata
