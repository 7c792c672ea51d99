
namespace Schemata

structure Exponent where
  marker : Char
  sign : Option Char
  digits : List Char
deriving DecidableEq

structure Numeral where
  negative : Bool
  whole : List Char
  fraction : List Char
  exponent : Option Exponent
deriving DecidableEq

def digitsValue (digits : List Char) : Nat :=
  digits.foldl (fun n d => 10 * n + (d.toNat - '0'.toNat)) 0

namespace Exponent

def text (e : Exponent) : List Char := e.marker :: e.sign.toList ++ e.digits

def isNegative (e : Exponent) : Bool := e.sign == some '-'

def value (e : Exponent) : Int :=
  if e.isNegative then -(digitsValue e.digits : Int) else digitsValue e.digits

end Exponent

namespace Numeral

def minus : List Char → Bool × List Char
  | '-' :: cs => (true, cs)
  | cs => (false, cs)

def splitWhole? : List Char → Option (List Char × List Char)
  | [] => none
  | c :: cs =>
    if c = '0' then some (['0'], cs)
    else if c.isDigit then some (c :: cs.takeWhile Char.isDigit, cs.dropWhile Char.isDigit)
    else none

def splitFraction : List Char → List Char × List Char
  | '.' :: cs =>
    if (cs.takeWhile Char.isDigit).isEmpty then ([], '.' :: cs)
    else (cs.takeWhile Char.isDigit, cs.dropWhile Char.isDigit)
  | cs => ([], cs)

def splitSign : List Char → Option Char × List Char
  | [] => (none, [])
  | c :: cs => if c = '+' ∨ c = '-' then (some c, cs) else (none, c :: cs)

def splitExponent : List Char → Option Exponent × List Char
  | [] => (none, [])
  | c :: cs =>
    let (sign, ds) := splitSign cs
    if (c = 'e' ∨ c = 'E') ∧ ¬(ds.takeWhile Char.isDigit).isEmpty then
      (some ⟨c, sign, ds.takeWhile Char.isDigit⟩, ds.dropWhile Char.isDigit)
    else (none, c :: cs)

def split? (cs : List Char) : Option (Numeral × List Char) := do
  let (negative, cs) := minus cs
  let (whole, cs) ← splitWhole? cs
  let (fraction, cs) := splitFraction cs
  let (exponent, cs) := splitExponent cs
  return (⟨negative, whole, fraction, exponent⟩, cs)

def text (n : Numeral) : List Char :=
  (if n.negative then ['-'] else []) ++ n.whole
    ++ (if n.fraction.isEmpty then [] else '.' :: n.fraction)
    ++ (n.exponent.map Exponent.text).getD []

def isIntegral (n : Numeral) : Bool := n.fraction.isEmpty && n.exponent.isNone

def wholeValue (n : Numeral) : Int :=
  if n.negative then -(digitsValue n.whole : Int) else digitsValue n.whole

def significand (n : Numeral) : Nat := digitsValue (n.whole ++ n.fraction)

def scale (n : Numeral) : Int := (n.exponent.map Exponent.value).getD 0 - n.fraction.length

theorem minus_append (cs : List Char) :
    (if (minus cs).1 then ['-'] else []) ++ (minus cs).2 = cs := by
  fun_cases minus cs <;> simp

theorem splitWhole?_append {cs whole rest : List Char} (h : splitWhole? cs = some (whole, rest)) :
    whole ++ rest = cs ∧ whole ≠ [] := by
  cases cs with
  | nil => simp [splitWhole?] at h
  | cons c cs =>
    simp only [splitWhole?] at h
    split at h
    · next hc => simp at h; obtain ⟨rfl, rfl⟩ := h; simp [hc]
    · split at h
      · simp at h; obtain ⟨rfl, rfl⟩ := h; simp [List.takeWhile_append_dropWhile]
      · simp at h

theorem splitFraction_append (cs : List Char) :
    (if (splitFraction cs).1.isEmpty then [] else '.' :: (splitFraction cs).1) ++ (splitFraction cs).2 =
      cs := by
  fun_cases splitFraction cs with
  | case1 => simp
  | case2 cs h => simp [h, List.takeWhile_append_dropWhile]
  | case3 => simp

theorem splitSign_append (cs : List Char) : (splitSign cs).1.toList ++ (splitSign cs).2 = cs := by
  fun_cases splitSign cs <;> simp

theorem splitExponent_append (cs : List Char) :
    ((splitExponent cs).1.map Exponent.text).getD [] ++ (splitExponent cs).2 = cs := by
  fun_cases splitExponent cs with
  | case1 => simp
  | case2 c cs sign ds hs h =>
    have hd := splitSign_append cs
    rw [hs] at hd
    simp only [Option.map_some, Option.getD_some, Exponent.text, List.cons_append, List.append_assoc,
      List.takeWhile_append_dropWhile, hd]
  | case3 => simp

theorem split?_append {cs rest : List Char} {n : Numeral} (h : split? cs = some (n, rest)) :
    n.text ++ rest = cs ∧ n.text ≠ [] := by
  simp only [split?, Option.bind_eq_bind, Option.bind_eq_some_iff, Option.pure_def, Option.some.injEq,
    Prod.mk.injEq] at h
  obtain ⟨⟨whole, r⟩, hw, rfl, rfl⟩ := h
  obtain ⟨hr, hn⟩ := splitWhole?_append hw
  refine ⟨?_, by simp [text, hn]⟩
  simp only [text, List.append_assoc, splitExponent_append]
  rw [splitFraction_append, hr, minus_append]

end Numeral

end Schemata
