import Schemata.Proofs.Document.Limit
import Schemata.Proofs.Grammar.Acceptance
import Schemata.Proofs.Grammar.Overrun
/-!
The limit on nesting, for texts that have the form of a document. Of documents with 64 levels those are refused
in which an empty list is at the last level: the reader looks for an element there, and has no level left for it.
-/

namespace Schemata

open Grammar

theorem Cause.error_kind (c : Cursor) : (nestedTooDeep.error c).kind = .recursionLimitExceeded := rfl

theorem parse_tooDeep {source : String} (h : TooDeep (Document.ofLexed (lex source.toList))) :
    ∃ e, parse source = .error e ∧ e.kind = .recursionLimitExceeded := by
  obtain ⟨f, hf, hc⟩ := h
  refine ⟨_, by rw [parse, hf]; rfl, ?_⟩
  change (f.cause.error _).kind = _
  rw [hc]
  exact Cause.error_kind _

/-- Texts of documents are refused for their nesting alone, and for nothing less. -/
theorem parse_nesting_limit {source : String} {ts : List Token} {d : Document} (hs : Splits source.toList ts)
    (hd : DocumentForm ts d) :
    (d.levels ≤ 64 → (∀ v ∈ d.defaultValues, ¬v.EmptyListAt 64) → parse source = .ok d) ∧
      (64 < d.levels ∨ (∃ v ∈ d.defaultValues, v.EmptyListAt 64) →
        ∃ e, parse source = .error e ∧ e.kind = .recursionLimitExceeded) := by
  constructor
  · intro hl he
    exact parse_eq_ok_iff_form.2 ⟨ts, hs, hd, Document.demand_le_iff.2 ⟨hl, he⟩⟩
  · intro h
    have demand : maxLevels < d.demand := by
      apply Nat.lt_of_not_le
      intro hn
      obtain ⟨hl, he⟩ := Document.demand_le_iff.1 hn
      rcases h with h | ⟨v, hv, h⟩
      · exact absurd h (Nat.not_lt.2 hl)
      · exact he v hv h
    obtain ⟨ht, -⟩ := lex_of_splits hs
    apply parse_tooDeep
    apply TooDeep.bind
    rw [ht]
    exact document_overruns hd demand

def Value.wrapped (v : Value) : Nat → Value
  | 0 => v
  | n + 1 => .list [v.wrapped n]

theorem Value.wrapped_levels (v : Value) (n : Nat) : (v.wrapped n).levels = v.levels + n := by
  induction n with
  | zero => rfl
  | succ n ih => simp [wrapped, levels, itemLevels, ih, Nat.add_assoc]

theorem Value.wrapped_emptyListAt (n : Nat) : ((Value.list []).wrapped n).EmptyListAt (n + 1) := by
  induction n with
  | zero => exact .here
  | succ n ih => exact .inList List.mem_cons_self ih

theorem Value.wrapped_form {ts : List Token} {v : Value} (h : ValueForm ts v) (n : Nat) :
    ValueForm (List.replicate n (.punctuator '[') ++ (ts ++ List.replicate n (.punctuator ']'))) (v.wrapped n) := by
  induction n with
  | zero => simpa [Value.wrapped] using h
  | succ n ih =>
    have entry : Many (Entry ValueForm) _ [.item (v.wrapped n)] := .cons (.item ih) .nil
    have block := ValueForm.list (.mk entry)
    simp only [List.append_nil, List.append_assoc] at block
    rw [List.replicate_succ, List.replicate_succ', List.cons_append]
    exact block

set_option maxRecDepth 8000 in
theorem parse_nesting_limit_empty_list :
    let brackets := List.replicate 64 '[' ++ List.replicate 64 ']'
    let source := String.ofList ("input I\x7bf:T=".toList ++ brackets ++ ['}'])
    let ts := [.name "input", .name "I", .punctuator '{', .name "f", .punctuator ':', .name "T", .punctuator '='] ++
      brackets.map Token.punctuator ++ [.punctuator '}']
    let v := (Value.list []).wrapped 63
    let d : Document := ⟨[.item (.inputObject ⟨"I", [.item ⟨"f", .named "T", some v⟩]⟩)]⟩
    Splits source.toList ts ∧ DocumentForm ts d ∧ d.levels = 64 ∧
      ∃ e, parse source = .error e ∧ e.kind = .recursionLimitExceeded := by
  intro brackets source ts v d
  have hs : Splits source.toList ts := by
    have tokens : (lex source.toList).tokens = ts := by
      simp only [source, ts, String.toList_ofList]
      decide +kernel
    have whole : (lex source.toList).rest = [] := by
      simp only [source, String.toList_ofList]
      decide +kernel
    exact tokens ▸ splits_lex whole
  have hv : ValueForm _ v := Value.wrapped_form (.list (.mk .nil)) 63
  have hd : DocumentForm ts d := by
    have field := InputForm.default "f" (.bare (.named "T")) hv
    have fields : Many (Entry InputForm) _ _ := .cons (.item field) .nil
    have definition := DefinitionForm.inputObject "I" (.mk fields)
    have definitions : Many (Entry DefinitionForm) _ _ := .cons (.item definition) .nil
    have document := DocumentForm.mk definitions
    simpa [ts, brackets, List.map_replicate] using document
  have hl : d.levels = 64 := by
    have levels : v.levels = 64 := Value.wrapped_levels _ 63
    have depth : d.levels = max 1 v.levels := by
      simp [d, Document.levels, Document.depth, TypeDefinition.depth, InputValueDefinition.depth, deepest, items,
        Member.item?, Document.typeDefinitions, TypeRef.levels]
    rw [depth, levels]
    rfl
  have he : v.EmptyListAt 64 := Value.wrapped_emptyListAt 63
  exact ⟨hs, hd, hl, (parse_nesting_limit hs hd).2 (.inr ⟨v, List.mem_singleton_self v, he⟩)⟩

end Schemata
