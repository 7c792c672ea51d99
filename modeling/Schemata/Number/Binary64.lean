import Schemata.Number.Ratio
/-!
Double precision numbers as bit patterns. A pattern is one sign bit, eleven exponent bits and
fifty-two fraction bits; every operation rounds the exact result to the nearest number, ties going
to the even significand, and overflows to an infinity.
-/

namespace Schemata

structure Binary64 where
  bits : UInt64
deriving DecidableEq

namespace Binary64

def signBit : Nat := Nat.pow 2 63

def hiddenBit : Nat := Nat.pow 2 52

def infinityBits : Nat := 2047 * hiddenBit

def isNegative (x : Binary64) : Bool := signBit ≤ x.bits.toNat

def magnitudeBits (x : Binary64) : Nat := x.bits.toNat % signBit

def exponentField (x : Binary64) : Nat := x.magnitudeBits / hiddenBit

def fractionField (x : Binary64) : Nat := x.magnitudeBits % hiddenBit

def isFinite (x : Binary64) : Bool := x.magnitudeBits < infinityBits

def isZero (x : Binary64) : Bool := x.magnitudeBits = 0

def significand (x : Binary64) : Nat :=
  if x.exponentField = 0 then x.fractionField else x.fractionField + hiddenBit

def scale (x : Binary64) : Int := (max x.exponentField 1 : Nat) - 1075

def ratio (x : Binary64) : Ratio := (Ratio.ofNat x.significand).scaled 2 x.scale

def ofMagnitude (negative : Bool) (magnitude : Nat) : Binary64 :=
  ⟨(magnitude + if negative then signBit else 0).toUInt64⟩

def zero (negative : Bool) : Binary64 := ofMagnitude negative 0

def infinity (negative : Bool) : Binary64 := ofMagnitude negative infinityBits

/-- The number nearest to a quotient. Numbers below `2 ^ -1022` share one scale, so the pattern is
the rounded significand plus `2 ^ 52` for each step of the scale. -/
def ofRatio (negative : Bool) (r : Ratio) : Binary64 :=
  if r.num = 0 ∨ r.den = 0 then zero negative
  else
    let q := max (r.log2 - 52) (-1074)
    let m := (r.scaled 2 (-q)).round
    ofMagnitude negative (min ((q + 1074).toNat * hiddenBit + m) infinityBits)

def ofNat (negative : Bool) (n : Nat) : Binary64 := ofRatio negative (.ofNat n)

/-- The number nearest to `significand * 10 ^ exponent`. Exponents that lead out of the range
whatever the significand are settled without raising ten to them. -/
def ofScientific (negative : Bool) (significand : Nat) (exponent : Int) : Binary64 :=
  if significand = 0 then zero negative
  else if 309 < exponent then infinity negative
  else if exponent < -(400 + significand.log2 : Int) then zero negative
  else ofRatio negative ((Ratio.ofNat significand).scaled 10 exponent)

def neg (x : Binary64) : Binary64 := ofMagnitude (!x.isNegative) x.magnitudeBits

def mul (x y : Binary64) : Binary64 := ofRatio (x.isNegative ^^ y.isNegative) (x.ratio.mul y.ratio)

def div (x y : Binary64) : Binary64 := ofRatio (x.isNegative ^^ y.isNegative) (x.ratio.div y.ratio)

end Binary64

end Schemata
