import Schemata.Json.Basic
import Schemata.Number.Numeral
/-!
Reading JSON numbers. Whole numbers of 64 bits stay whole. Every other number is scaled in double
precision from the leading digits that fit 64 bits, which is fast and nearly always, but not always,
the nearest number.
-/

namespace Schemata.Json

def isBlank (c : Char) : Bool := c == ' ' || c == '\n' || c == '\t' || c == '\r'

def significandLimit : Nat := UInt64.size

def absorb (significand : Nat) : List Char → Nat × Nat
  | [] => (significand, 0)
  | d :: digits =>
    let next := 10 * significand + digitsValue [d]
    if next < significandLimit then absorb next digits else (significand, digits.length + 1)

def scaleStep : Nat := 308

def powerOfTen (n : Nat) : Binary64 := Binary64.ofScientific false 1 n

def scaleUp? (x : Binary64) (n : Nat) : Option Binary64 :=
  if scaleStep < n then if x.isZero then some x else none
  else
    let y := x.mul (powerOfTen n)
    if y.isFinite then some y else none

def scaleDown (x : Binary64) (n : Nat) : Binary64 :=
  if scaleStep < n then
    if x.isZero then x else scaleDown (x.div (powerOfTen scaleStep)) (n - scaleStep)
  else x.div (powerOfTen n)
termination_by n
decreasing_by simp only [scaleStep] at *; omega

def scale? (significand : Nat) (exponent : Int) : Option Binary64 :=
  let x := Binary64.ofNat false significand
  if 0 ≤ exponent then scaleUp? x exponent.toNat else some (scaleDown x (-exponent).toNat)

def leadingDigits (n : Numeral) : Nat × Int :=
  let (whole, extra) := absorb 0 n.whole
  let (significand, dropped) := absorb whole n.fraction
  (significand, (extra : Int) - (n.fraction.length - dropped : Nat))

/-- The size of a numeral in double precision. None if it is out of range; an exponent that does not
fit 32 bits is, unless it makes the number vanish. -/
def magnitude? (n : Numeral) : Option Binary64 :=
  let (significand, scale) := leadingDigits n
  match n.exponent with
  | none => scale? significand scale
  | some e =>
    if digitsValue e.digits ≤ Int32.maxValue.toInt then scale? significand (scale + e.value)
    else if significand = 0 ∨ e.isNegative then some (.zero false) else none

def ofNumeral? (n : Numeral) : Option Json :=
  if n.isIntegral ∧ Int64.minValue.toInt ≤ n.wholeValue ∧ n.wholeValue < significandLimit
      ∧ ¬(n.negative ∧ n.wholeValue = 0) then
    some (int n.wholeValue)
  else (magnitude? n).map fun x => float (if n.negative then x.neg else x)

def readNumber? (text : String) : Option Json :=
  match Numeral.split? (text.toList.dropWhile isBlank) with
  | some (n, rest) => if rest.all isBlank then ofNumeral? n else none
  | none => none

end Schemata.Json
