
namespace Schemata

structure Ratio where
  num : Nat
  den : Nat
deriving DecidableEq

namespace Ratio

def ofNat (n : Nat) : Ratio := ⟨n, 1⟩

def mul (r s : Ratio) : Ratio := ⟨r.num * s.num, r.den * s.den⟩

def div (r s : Ratio) : Ratio := ⟨r.num * s.den, r.den * s.num⟩

def scaled (r : Ratio) (base : Nat) (exponent : Int) : Ratio :=
  ⟨r.num * Nat.pow base exponent.toNat, r.den * Nat.pow base (-exponent).toNat⟩

def floor (r : Ratio) : Nat := r.num / r.den

def round (r : Ratio) : Nat :=
  let rest := r.num % r.den
  if 2 * rest < r.den ∨ (2 * rest = r.den ∧ r.floor % 2 = 0) then r.floor else r.floor + 1

def log2 (r : Ratio) : Int :=
  let e : Int := (r.num.log2 : Int) - r.den.log2
  let s := r.scaled 2 (-e)
  if s.num < s.den then e - 1 else e

end Ratio

end Schemata
