import Schemata.Text.Blank
import Schemata.Token.Pattern

namespace Schemata

inductive Token
  | comment (text : String)
  | name (text : String)
  | number (text : String)
  | string (text : String)
  | punctuator (c : Char)
deriving DecidableEq

def isPunctuator (c : Char) : Bool := c ∈ ['{', '}', '(', ')', '[', ']', ':', '=', '|', '&', '!']

namespace Token

def ofPattern (p : Pattern) (text : String) : Token :=
  match p with
  | .name => name text
  | .number => number text
  | .string => string text
  | .comment => comment text

def text : Token → String
  | comment text | name text | number text | string text => text
  | punctuator c => String.singleton c

def next? (cs : List Char) : Option (Token × List Char) :=
  match cs with
  | [] => none
  | c :: rest =>
    if isPunctuator c then some (punctuator c, rest)
    else [Pattern.comment, .name, .number, .string].findSome? fun p =>
      (p.split? cs).map fun q => (ofPattern p (String.ofList q.1), q.2)

theorem next?_length {cs rest : List Char} {t : Token} (h : next? cs = some (t, rest)) :
    rest.length < cs.length := by
  cases cs with
  | nil => simp [next?] at h
  | cons c cs =>
    simp only [next?] at h
    split at h
    · simp at h; simp [h.2]
    · obtain ⟨p, _, hp⟩ := List.exists_of_findSome?_eq_some h
      obtain ⟨q, hq, he⟩ := Option.map_eq_some_iff.1 hp
      obtain ⟨rfl, rfl⟩ := Prod.mk.injEq .. ▸ he
      obtain ⟨ha, hn⟩ := Pattern.split?_append hq
      have := List.length_pos_iff.2 hn
      rw [← ha, List.length_append]
      omega

end Token

/-- The tokens of a text, each with the input from its first character on, and the input that starts
no token: it is empty exactly if the whole text is made of tokens. -/
structure Lexed where
  lexemes : List (Token × List Char)
  rest : List Char
deriving DecidableEq

def lex (cs : List Char) : Lexed :=
  let input := Text.skipSeparators cs
  match _ : Token.next? input with
  | none => ⟨[], input⟩
  | some (token, rest) =>
    let l := lex rest
    ⟨(token, input) :: l.lexemes, l.rest⟩
termination_by cs.length
decreasing_by
  have := Token.next?_length ‹_›
  have := Text.skipSeparators_length cs
  simp only [input] at *
  omega

namespace Lexed

def tokens (l : Lexed) : List Token := l.lexemes.map Prod.fst

def inputBefore (l : Lexed) (n : Nat) : List Char :=
  match l.lexemes[l.lexemes.length - n]? with
  | some lexeme => lexeme.2
  | none => l.rest

end Lexed

end Schemata
