import Mathlib.Control.Monad.Basic
import Schemata.Proofs.Grammar.Completeness
import Schemata.Proofs.Token.Splitting

namespace Schemata

open Grammar

theorem parse_eq_ok_iff {source : String} {d : Document} :
    parse source = .ok d ↔ Document.ofLexed (lex source.toList) = .ok d := by
  simp [parse]

theorem ofLexed_eq_ok_iff {l : Lexed} {d : Document} :
    Document.ofLexed l = .ok d ↔ Parser.document l.tokens = .ok d ∧ l.rest = [] := by
  simp only [Document.ofLexed, Except.bind_eq_ok_iff]
  constructor
  · rintro ⟨d', hd, h⟩
    split at h
    · next hr => exact ⟨Except.pure_eq_ok_iff.1 h ▸ hd, List.isEmpty_iff.1 hr⟩
    · cases h
  · rintro ⟨hd, hr⟩
    exact ⟨d, hd, by simp [hr]⟩

theorem parse_eq_ok_iff_form {source : String} {d : Document} :
    parse source = .ok d ↔
      ∃ ts, Splits source.toList ts ∧ DocumentForm ts d ∧ d.demand ≤ maxLevels := by
  rw [parse_eq_ok_iff, ofLexed_eq_ok_iff, document_eq_ok_iff]
  constructor
  · rintro ⟨hd, hr⟩
    exact ⟨_, splits_lex hr, hd⟩
  · rintro ⟨ts, hs, hd⟩
    obtain ⟨rfl, hr⟩ := lex_of_splits hs
    exact ⟨hd, hr⟩

/-- The parser accepts exactly the grammar. -/
theorem parse_accepts_grammar (source : String) (d : Document) (h : d.levels ≤ 63) :
    parse source = .ok d ↔ ∃ ts, Splits source.toList ts ∧ DocumentForm ts d := by
  have hd : d.demand ≤ maxLevels := Nat.le_trans d.demand_le_levels (Nat.succ_le_succ h)
  rw [parse_eq_ok_iff_form]
  exact ⟨fun ⟨ts, hs, hf, _⟩ => ⟨ts, hs, hf⟩, fun ⟨ts, hs, hf⟩ => ⟨ts, hs, hf, hd⟩⟩

theorem parse_accepts_extension :
    let source := "#t\nextend type A implements B & C { f(a: [Int!]! = [[], {k: true}]): [A] }"
    let argument : InputValueDefinition := ⟨"a", .nonNull (.list (.nonNull (.named "Int"))),
      some (.list [.list [], .object [("k", .boolean true)]])⟩
    let d : Document := ⟨[.comment ⟨"#t"⟩, .item (.extension ⟨"A", ["B", "C"],
      [.item ⟨"f", some [.item argument], .list (.named "A")⟩]⟩)]⟩
    d.levels ≤ 63 ∧ parse source = .ok d ∧ ∃ ts, Splits source.toList ts ∧ DocumentForm ts d := by
  intro source argument d
  have hl : d.levels ≤ 63 := by decide
  have hd : parse source = .ok d := by
    dsimp only [source, argument, d]
    decide +kernel
  exact ⟨hl, hd, (parse_accepts_grammar source d hl).1 hd⟩

end Schemata
