
namespace Schemata.Text

def inRanges (ranges : List (Nat × Nat)) (c : Char) : Bool :=
  ranges.any fun r => r.1 ≤ c.toNat && c.toNat ≤ r.2

def separatorRanges : List (Nat × Nat) :=
  [(0x09, 0x0D), (0x20, 0x20), (0x2C, 0x2C), (0xA0, 0xA0), (0x1680, 0x1680), (0x180E, 0x180E),
    (0x2000, 0x200A), (0x2028, 0x2029), (0x202F, 0x202F), (0x205F, 0x205F), (0x3000, 0x3000),
    (0xFEFF, 0xFEFF)]

/-- Characters that stand between tokens and carry no meaning; the comma is one of them. -/
def isSeparator (c : Char) : Bool := inRanges separatorRanges c

def whiteSpaceRanges : List (Nat × Nat) :=
  [(0x09, 0x0D), (0x20, 0x20), (0x85, 0x85), (0xA0, 0xA0), (0x1680, 0x1680), (0x2000, 0x200A),
    (0x2028, 0x2029), (0x202F, 0x202F), (0x205F, 0x205F), (0x3000, 0x3000)]

def isWhiteSpace (c : Char) : Bool := inRanges whiteSpaceRanges c

def skipSeparators (cs : List Char) : List Char := cs.dropWhile isSeparator

theorem skipSeparators_length (cs : List Char) : (skipSeparators cs).length ≤ cs.length :=
  (List.dropWhile_sublist isSeparator).length_le

end Schemata.Text
