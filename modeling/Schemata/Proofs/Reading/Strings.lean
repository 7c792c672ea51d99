import Mathlib.Data.Set.Function
import Schemata.Proofs.Reading.Values

namespace Schemata

open Text

def IsStringLexeme (lexeme : List Char) : Prop := ∃ input rest, Pattern.string.split? input = some (lexeme, rest)

variable {input lexeme rest text : List Char}

theorem string_takes_quote (h : '\n' ∉ text) (rest : List Char) :
    Pattern.string.split? (quote text ++ rest) = some (quote text, rest) :=
  Pattern.splitString?_eq_some_iff.2 ⟨text, h, rfl, rfl⟩

theorem string_takes_only_quotes (h : Pattern.string.split? input = some (lexeme, rest)) :
    '\n' ∉ unquote lexeme ∧ quote (unquote lexeme) = lexeme ∧ lexeme ++ rest = input := by
  obtain ⟨text, unbroken, rfl, rfl⟩ := Pattern.splitString?_eq_some_iff.1 h
  rw [unquote_quote]
  exact ⟨unbroken, rfl, rfl⟩

theorem quote_bijOn : Set.BijOn quote {text | '\n' ∉ text} {lexeme | IsStringLexeme lexeme} := by
  refine ⟨?_, ?_, ?_⟩
  · intro text unbroken
    exact ⟨_, _, string_takes_quote unbroken []⟩
  · intro text _ other _ same
    rw [← unquote_quote text, same, unquote_quote]
  · rintro lexeme ⟨input, rest, h⟩
    obtain ⟨unbroken, written, -⟩ := string_takes_only_quotes h
    exact ⟨unquote lexeme, unbroken, written⟩

/-- The written form of a text is matched to its end, whatever follows it, and stands for the text, also where it is cut
out by bytes. What is matched is the written form of the text it stands for. So strings and texts without a line break
correspond. -/
theorem string_written_once :
    (∀ text rest : List Char, '\n' ∉ text →
      Pattern.string.matchLength? (quote text ++ rest) = some (byteLength (quote text)) ∧ unquote (quote text) = text ∧
        ∀ source s, Machine.stringValue (String.ofList (quote text)) source s = (.ok (.string (String.ofList text)), s)) ∧
    (∀ (input : List Char) (length : Nat), Pattern.string.matchLength? input = some length →
      ∃ lexeme rest, lexeme ++ rest = input ∧ byteLength lexeme = length ∧
        '\n' ∉ unquote lexeme ∧ quote (unquote lexeme) = lexeme) ∧
    Set.BijOn quote {text | '\n' ∉ text} {lexeme | IsStringLexeme lexeme} := by
  refine ⟨?_, ?_, quote_bijOn⟩
  · intro text rest unbroken
    refine ⟨?_, unquote_quote text, stringValue_quote text⟩
    rw [Pattern.matchLength?_eq, string_takes_quote unbroken, Option.map_some]
  · intro input length h
    rw [Pattern.matchLength?_eq] at h
    obtain ⟨⟨lexeme, rest⟩, taken, size⟩ := Option.map_eq_some_iff.1 h
    obtain ⟨unbroken, written, whole⟩ := string_takes_only_quotes taken
    exact ⟨lexeme, rest, whole, size, unbroken, written⟩

theorem string_written_once_escapes :
    let text := ['é', '"', '\\']
    let lexeme := ['"', 'é', '\\', '"', '\\', '\\', '"']
    quote text = lexeme ∧ '\n' ∉ text ∧ Pattern.string.matchLength? (lexeme ++ ['"']) = some 8 ∧ unquote lexeme = text := by
  intro text lexeme
  have written : quote text = lexeme := rfl
  have unbroken : '\n' ∉ text := by decide
  obtain ⟨matched, stands, -⟩ := string_written_once.1 text ['"'] unbroken
  exact ⟨written, unbroken, matched, stands⟩

end Schemata
