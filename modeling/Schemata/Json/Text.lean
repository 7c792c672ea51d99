import Schemata.Json.Basic
import Schemata.Number.Shortest

namespace Schemata.Json

structure PlainRange where
  least : Int
  greatest : Int

def plainRange : PlainRange := ⟨-5, 15⟩

def decimalDigits (n : Nat) : List Char := Nat.toDigits 10 n

def zeros (n : Nat) : List Char := List.replicate n '0'

def plainDigits (digits : List Char) (e : Int) : List Char :=
  if e < 0 then ['0', '.'] ++ zeros (-e - 1).toNat ++ digits
  else if digits.length ≤ e.toNat + 1 then digits ++ zeros (e.toNat + 1 - digits.length) ++ ['.', '0']
  else digits.take (e.toNat + 1) ++ '.' :: digits.drop (e.toNat + 1)

def scientificDigits (digits : List Char) (e : Int) : List Char :=
  digits.take 1 ++ (if digits.length ≤ 1 then [] else '.' :: digits.drop 1)
    ++ ['e', if e < 0 then '-' else '+'] ++ decimalDigits e.natAbs

def trimZeros (digits : List Char) : List Char := (digits.reverse.dropWhile (· == '0')).reverse

def decimalText (d : Decimal) : List Char :=
  let digits := decimalDigits d.digits
  let e := (digits.length : Int) - 1 + d.exponent
  if plainRange.least ≤ e ∧ e ≤ plainRange.greatest then plainDigits (trimZeros digits) e
  else scientificDigits (trimZeros digits) e

def floatText (x : Binary64) : String :=
  if x.isFinite then
    (if x.isNegative then "-" else "")
      ++ (if x.isZero then "0.0" else String.ofList (decimalText x.shortest))
  else "null"

def intText (n : Int) : String :=
  (if n < 0 then "-" else "") ++ String.ofList (decimalDigits n.natAbs)

def hexDigit (n : Nat) : Char := (Nat.toDigits 16 n).headD '0'

def escapeChar (c : Char) : List Char :=
  if c = '"' then ['\\', '"']
  else if c = '\\' then ['\\', '\\']
  else if c = '\x08' then ['\\', 'b']
  else if c = '\t' then ['\\', 't']
  else if c = '\n' then ['\\', 'n']
  else if c = '\x0c' then ['\\', 'f']
  else if c = '\r' then ['\\', 'r']
  else if c.toNat < 0x20 then ['\\', 'u', '0', '0', hexDigit (c.toNat / 16), hexDigit (c.toNat % 16)]
  else [c]

def quote (s : String) : String := "\"" ++ String.ofList (s.toList.flatMap escapeChar) ++ "\""

mutual

def text : Json → String
  | null => "null"
  | bool b => if b then "true" else "false"
  | int n => intText n
  | float x => floatText x
  | string s => quote s
  | array items => "[" ++ ",".intercalate (itemTexts items) ++ "]"
  | object members => "\x7b" ++ ",".intercalate (memberTexts members) ++ "\x7d"

def itemTexts : List Json → List String
  | [] => []
  | item :: items => item.text :: itemTexts items

def memberTexts : List (String × Json) → List String
  | [] => []
  | (key, value) :: members => (quote key ++ ":" ++ value.text) :: memberTexts members

end

end Schemata.Json
