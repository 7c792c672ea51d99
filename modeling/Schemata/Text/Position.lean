
namespace Schemata.Text

def byteLength : List Char → Nat
  | [] => 0
  | c :: cs => c.utf8Size + byteLength cs

/-- Cuts a text at a byte offset. An offset past the end stands for the end, and one inside a
character has no cut. -/
def splitAtByte? : Nat → List Char → Option (List Char × List Char)
  | _, [] => some ([], [])
  | 0, cs => some ([], cs)
  | n + 1, c :: cs =>
    if c.utf8Size ≤ n + 1 then
      (splitAtByte? (n + 1 - c.utf8Size) cs).map fun p => (c :: p.1, p.2)
    else none

def pieces (separator : Char) : List Char → List (List Char)
  | [] => [[]]
  | c :: cs =>
    if c = separator then [] :: pieces separator cs
    else match pieces separator cs with
      | [] => [[c]]
      | p :: ps => (c :: p) :: ps

theorem byteLength_append (a b : List Char) : byteLength (a ++ b) = byteLength a + byteLength b := by
  induction a with
  | nil => simp [byteLength]
  | cons c cs ih => simp [byteLength, ih, Nat.add_assoc]

theorem splitAtByte?_append {n : Nat} {cs before after : List Char}
    (h : splitAtByte? n cs = some (before, after)) : before ++ after = cs := by
  fun_induction splitAtByte? n cs generalizing before after with
  | case1 => simp_all
  | case2 => simp_all
  | case3 n c cs hc ih =>
    obtain ⟨p, hp, he⟩ := Option.map_eq_some_iff.1 h
    obtain ⟨rfl, rfl⟩ := Prod.mk.injEq .. ▸ he
    simp [ih hp]
  | case4 => simp at h

end Schemata.Text

namespace Schemata

open Text

structure Position where
  line : Nat
  col : Nat
  offset : Nat
deriving DecidableEq

namespace Position

def after (before : List Char) : Position where
  line := before.count '\n'
  col := (before.reverse.takeWhile (· != '\n')).length
  offset := byteLength before

def ofOffset? (source : List Char) (offset : Nat) : Option Position :=
  (splitAtByte? offset source).map fun p => after p.1

end Position

end Schemata
