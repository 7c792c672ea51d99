import Schemata.Number.Numeral

namespace Schemata

inductive Pattern
  | name
  | number
  | string
  | comment
deriving DecidableEq

def isNameStart (c : Char) : Bool := c == '_' || c.isAlpha

def isNameContinue (c : Char) : Bool := c == '_' || c.isAlphanum

namespace Pattern

def description : Pattern → String
  | name => "name"
  | number => "number"
  | string => "string"
  | comment => "comment"

def splitName? : List Char → Option (List Char × List Char)
  | [] => none
  | c :: cs =>
    if isNameStart c then some (c :: cs.takeWhile isNameContinue, cs.dropWhile isNameContinue) else none

def splitNumber? (cs : List Char) : Option (List Char × List Char) :=
  (Numeral.split? cs).map fun p => (p.1.text, p.2)

def splitStringBody? : List Char → Option (List Char × List Char)
  | [] => none
  | '"' :: cs => some (['"'], cs)
  | '\\' :: c :: cs =>
    if c = '\\' ∨ c = '"' then (splitStringBody? cs).map fun p => ('\\' :: c :: p.1, p.2) else none
  | c :: cs =>
    if c = '\n' ∨ c = '\\' then none else (splitStringBody? cs).map fun p => (c :: p.1, p.2)

def splitString? : List Char → Option (List Char × List Char)
  | '"' :: cs => (splitStringBody? cs).map fun p => ('"' :: p.1, p.2)
  | _ => none

/-- A comment runs to the end of its line; one carriage return there is not part of it. -/
def commentText (cs : List Char) : List Char :=
  let line := cs.takeWhile (· != '\n')
  if line.getLast? = some '\r' then line.dropLast else line

def splitComment? : List Char → Option (List Char × List Char)
  | '#' :: cs => some ('#' :: commentText cs, cs.drop (commentText cs).length)
  | _ => none

def split? : Pattern → List Char → Option (List Char × List Char)
  | name => splitName?
  | number => splitNumber?
  | string => splitString?
  | comment => splitComment?

theorem splitStringBody?_append {cs lexeme rest : List Char}
    (h : splitStringBody? cs = some (lexeme, rest)) : lexeme ++ rest = cs := by
  fun_induction splitStringBody? cs generalizing lexeme rest with
  | case1 => simp at h
  | case2 cs =>
    obtain ⟨rfl, rfl⟩ : ['"'] = lexeme ∧ cs = rest := by simpa using h
    rfl
  | case3 c cs hc ih =>
    obtain ⟨p, hp, he⟩ := Option.map_eq_some_iff.1 h
    obtain ⟨rfl, rfl⟩ := Prod.mk.injEq .. ▸ he
    simp [ih hp]
  | case4 => simp at h
  | case5 => simp at h
  | case6 c cs _ _ hc ih =>
    obtain ⟨p, hp, he⟩ := Option.map_eq_some_iff.1 h
    obtain ⟨rfl, rfl⟩ := Prod.mk.injEq .. ▸ he
    simp [ih hp]

theorem splitName?_append {cs lexeme rest : List Char} (h : splitName? cs = some (lexeme, rest)) :
    lexeme ++ rest = cs ∧ lexeme ≠ [] := by
  cases cs with
  | nil => simp [splitName?] at h
  | cons c cs =>
    simp only [splitName?] at h
    split at h
    · simp at h; obtain ⟨rfl, rfl⟩ := h; simp [List.takeWhile_append_dropWhile]
    · simp at h

theorem splitString?_append {cs lexeme rest : List Char} (h : splitString? cs = some (lexeme, rest)) :
    lexeme ++ rest = cs ∧ lexeme ≠ [] := by
  unfold splitString? at h
  split at h
  · obtain ⟨p, hp, he⟩ := Option.map_eq_some_iff.1 h
    obtain ⟨rfl, rfl⟩ := Prod.mk.injEq .. ▸ he
    simp [splitStringBody?_append hp]
  · simp at h

theorem commentText_prefix (cs : List Char) : commentText cs <+: cs := by
  have hline : cs.takeWhile (· != '\n') <+: cs := List.takeWhile_prefix _
  have hcut : (cs.takeWhile (· != '\n')).dropLast <+: cs.takeWhile (· != '\n') :=
    List.dropLast_prefix _
  simp only [commentText]
  split
  · exact hcut.trans hline
  · exact hline

theorem splitComment?_append {cs lexeme rest : List Char} (h : splitComment? cs = some (lexeme, rest)) :
    lexeme ++ rest = cs ∧ lexeme ≠ [] := by
  unfold splitComment? at h
  split at h
  · next cs =>
    simp only [Option.some.injEq, Prod.mk.injEq] at h
    obtain ⟨rfl, rfl⟩ := h
    have htext : commentText cs <+: cs := commentText_prefix cs
    simp [List.prefix_iff_eq_append.1 htext]
  · simp at h

theorem split?_append {p : Pattern} {cs lexeme rest : List Char} (h : p.split? cs = some (lexeme, rest)) :
    lexeme ++ rest = cs ∧ lexeme ≠ [] := by
  cases p with
  | name => exact splitName?_append h
  | number =>
    simp only [split?, splitNumber?] at h
    obtain ⟨q, hq, he⟩ := Option.map_eq_some_iff.1 h
    obtain ⟨rfl, rfl⟩ := Prod.mk.injEq .. ▸ he
    exact Numeral.split?_append hq
  | string => exact splitString?_append h
  | comment => exact splitComment?_append h

end Pattern

def unescape : List Char → List Char
  | [] => []
  | '\\' :: c :: cs => c :: unescape cs
  | ['\\'] => []
  | c :: cs => c :: unescape cs

def unquote (lexeme : List Char) : List Char := unescape (lexeme.drop 1).dropLast

end Schemata
