import Schemata.Number.Binary64

namespace Schemata.Binary

abbrev Bytes := List UInt8

structure Codec (α : Type) where
  write : α → Bytes
  read : Bytes → Option (α × Bytes)

def writeFixed : (width : Nat) → Nat → Bytes
  | 0, _ => []
  | width + 1, n => (n % 256).toUInt8 :: writeFixed width (n / 256)

def readFixed : (width : Nat) → Bytes → Option (Nat × Bytes)
  | 0, bytes => some (0, bytes)
  | _ + 1, [] => none
  | width + 1, b :: bytes => (readFixed width bytes).map fun p => (b.toNat + 256 * p.1, p.2)

/-- A small number is one byte. Three marker bytes stand before numbers of two, four and eight. -/
def writeVarint (n : Nat) : Bytes :=
  if n < 251 then [n.toUInt8]
  else if n < UInt16.size then 251 :: writeFixed 2 n
  else if n < UInt32.size then 252 :: writeFixed 4 n
  else 253 :: writeFixed 8 n

def readVarint (widest : Nat) : Bytes → Option (Nat × Bytes)
  | [] => none
  | b :: bytes =>
    if b < 251 then some (b.toNat, bytes)
    else if b = 251 then readFixed 2 bytes
    else if b = 252 then readFixed 4 bytes
    else if b = 253 ∧ 8 ≤ widest then readFixed 8 bytes
    else none

def length : Codec Nat := ⟨writeVarint, readVarint 8⟩

def tag : Codec Nat := ⟨writeVarint, readVarint 4⟩

def zigzag (n : Int) : Nat := if 0 ≤ n then 2 * n.toNat else 2 * n.natAbs - 1

def unzigzag (n : Nat) : Int := if n % 2 = 0 then (n / 2 : Nat) else -((n / 2 : Nat) + 1 : Int)

namespace Codec

variable {α β γ : Type}

def convert (c : Codec α) (wrap : α → β) (unwrap : β → α) : Codec β where
  write b := c.write (unwrap b)
  read bytes := (c.read bytes).map fun p => (wrap p.1, p.2)

def pair (a : Codec α) (b : Codec β) : Codec (α × β) where
  write p := a.write p.1 ++ b.write p.2
  read bytes := do
    let (x, bytes) ← a.read bytes
    let (y, bytes) ← b.read bytes
    return ((x, y), bytes)

def readMany (read : Bytes → Option (α × Bytes)) : (count : Nat) → Bytes → Option (List α × Bytes)
  | 0, bytes => some ([], bytes)
  | count + 1, bytes => do
    let (item, bytes) ← read bytes
    let (items, bytes) ← readMany read count bytes
    return (item :: items, bytes)

def readList (read : Bytes → Option (α × Bytes)) (bytes : Bytes) : Option (List α × Bytes) := do
  let (count, bytes) ← length.read bytes
  readMany read count bytes

def list (c : Codec α) : Codec (List α) where
  write items := length.write items.length ++ items.flatMap c.write
  read := readList c.read

def readBool : Bytes → Option (Bool × Bytes)
  | [] => none
  | b :: bytes => if b = 0 then some (false, bytes) else if b = 1 then some (true, bytes) else none

def bool : Codec Bool := ⟨fun b => [if b then 1 else 0], readBool⟩

def option (c : Codec α) : Codec (Option α) where
  write
    | none => bool.write false
    | some a => bool.write true ++ c.write a
  read bytes := do
    let (present, bytes) ← bool.read bytes
    if present then
      let (a, bytes) ← c.read bytes
      return (some a, bytes)
    else return (none, bytes)

def string : Codec String where
  write s := length.write s.toUTF8.size ++ s.toUTF8.data.toList
  read bytes := do
    let (size, bytes) ← length.read bytes
    if bytes.length < size then none
    else
      let s ← String.fromUTF8? ⟨(bytes.take size).toArray⟩
      return (s, bytes.drop size)

def int64 : Codec Int64 := length.convert (fun n => Int64.ofInt (unzigzag n)) (fun n => zigzag n.toInt)

def binary64 : Codec Binary64 where
  write x := writeFixed 8 x.bits.toNat
  read bytes := (readFixed 8 bytes).map fun p => (⟨p.1.toUInt64⟩, p.2)

end Codec

end Schemata.Binary
