import Schemata.Number.Binary64
/-!
The shortest decimal of a double precision number: among the decimals that read back as it, one
on the coarsest power-of-ten grid, and there the one nearest to the number.
-/

namespace Schemata

structure Decimal where
  digits : Nat
  exponent : Int
deriving DecidableEq

namespace Binary64

def readsBack (x : Binary64) (d : Decimal) : Bool :=
  ofScientific x.isNegative d.digits d.exponent = x

/-- The multiple of `10 ^ t` nearest to the number that reads back as it. Only the two neighbours
of the number on this grid can; of two equally near ones the even one is taken. -/
def onGrid? (x : Binary64) (t : Int) : Option Decimal :=
  let steps := x.ratio.scaled 10 (-t)
  let below : Decimal := ⟨steps.floor, t⟩
  let above : Decimal := ⟨steps.floor + 1, t⟩
  match x.readsBack below, x.readsBack above with
  | true, true => some ⟨steps.round, t⟩
  | true, false => some below
  | false, true => some above
  | false, false => none

def topExponent (x : Binary64) : Int := (x.significand.log2 + 1 + x.scale) * 30103 / 100000 + 1

def bottomExponent (x : Binary64) : Int := min x.scale 0

def exactDecimal (x : Binary64) : Decimal :=
  ⟨(x.ratio.scaled 10 (-x.bottomExponent)).floor, x.bottomExponent⟩

def shortest (x : Binary64) : Decimal :=
  let steps := (x.topExponent - x.bottomExponent).toNat
  ((List.range steps).findSome? fun i : Nat => x.onGrid? (x.topExponent - i)).getD x.exactDecimal

end Binary64

end Schemata
