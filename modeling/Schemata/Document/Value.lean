import Schemata.Number.Binary64
import Schemata.Number.Numeral

namespace Schemata

inductive Number
  | int (value : Int64)
  | float (value : Binary64)
deriving DecidableEq

namespace Number

/-- A numeral without fraction and exponent that fits 64 bits with sign is whole; every other one is
the nearest double precision number. -/
def ofNumeral (n : Numeral) : Number :=
  if n.isIntegral ∧ Int64.minValue.toInt ≤ n.wholeValue ∧ n.wholeValue ≤ Int64.maxValue.toInt then
    int (Int64.ofInt n.wholeValue)
  else float (Binary64.ofScientific n.negative n.significand n.scale)

def read? (text : String) : Option Number :=
  match Numeral.split? text.toList with
  | some (n, []) => some (ofNumeral n)
  | _ => none

end Number

inductive Value
  | boolean (value : Bool)
  | enum (name : String)
  | list (items : List Value)
  | number (value : Number)
  | object (fields : List (String × Value))
  | string (value : String)

namespace Value

instance : Inhabited Value := ⟨boolean false⟩

mutual

def decEq : (a b : Value) → Decidable (a = b)
  | boolean x, b =>
    match b with
    | boolean y => decidable_of_iff (x = y) (by simp)
    | enum _ | list _ | number _ | object _ | string _ => isFalse nofun
  | enum x, b =>
    match b with
    | enum y => decidable_of_iff (x = y) (by simp)
    | boolean _ | list _ | number _ | object _ | string _ => isFalse nofun
  | list xs, b =>
    match b with
    | list ys => @decidable_of_iff _ (xs = ys) (by simp) (decEqItems xs ys)
    | boolean _ | enum _ | number _ | object _ | string _ => isFalse nofun
  | number x, b =>
    match b with
    | number y => decidable_of_iff (x = y) (by simp)
    | boolean _ | enum _ | list _ | object _ | string _ => isFalse nofun
  | object xs, b =>
    match b with
    | object ys => @decidable_of_iff _ (xs = ys) (by simp) (decEqFields xs ys)
    | boolean _ | enum _ | list _ | number _ | string _ => isFalse nofun
  | string x, b =>
    match b with
    | string y => decidable_of_iff (x = y) (by simp)
    | boolean _ | enum _ | list _ | number _ | object _ => isFalse nofun

def decEqItems : (xs ys : List Value) → Decidable (xs = ys)
  | [], [] => isTrue rfl
  | [], _ :: _ => isFalse nofun
  | _ :: _, [] => isFalse nofun
  | x :: xs, y :: ys =>
    match decEq x y, decEqItems xs ys with
    | isTrue h, isTrue h' => isTrue (h ▸ h' ▸ rfl)
    | isFalse h, _ => isFalse fun e => h (List.cons.inj e).1
    | _, isFalse h => isFalse fun e => h (List.cons.inj e).2

def decEqFields : (xs ys : List (String × Value)) → Decidable (xs = ys)
  | [], [] => isTrue rfl
  | [], _ :: _ => isFalse nofun
  | _ :: _, [] => isFalse nofun
  | (k, x) :: xs, (l, y) :: ys =>
    match decEq x y, decEqFields xs ys with
    | isTrue h, isTrue h' =>
      if hk : k = l then isTrue (hk ▸ h ▸ h' ▸ rfl)
      else isFalse fun e => hk (Prod.mk.inj (List.cons.inj e).1).1
    | isFalse h, _ => isFalse fun e => h (Prod.mk.inj (List.cons.inj e).1).2
    | _, isFalse h => isFalse fun e => h (List.cons.inj e).2

end

instance : DecidableEq Value := decEq

end Value

end Schemata
