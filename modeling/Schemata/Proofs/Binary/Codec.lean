import Mathlib.Algebra.Group.Nat.Defs
import Schemata.Binary.Codec
/-!
Codecs that restore what they have written, whatever stands behind it. Each way of making a codec from others keeps
this, so that it is shown once for each part of a value and never for a whole one.
-/

namespace Schemata.Binary

variable {α β : Type}

def sizeLimit : Nat := 2 ^ 64

def TextFits (s : String) : Prop := s.utf8ByteSize < sizeLimit

instance (s : String) : Decidable (TextFits s) := inferInstanceAs (Decidable (s.utf8ByteSize < sizeLimit))

def ListFits (fits : α → Prop) (as : List α) : Prop := as.length < sizeLimit ∧ ∀ a ∈ as, fits a

theorem readFixed_writeFixed {width n : Nat} (h : n < 256 ^ width) (rest : Bytes) :
    readFixed width (writeFixed width n ++ rest) = some (n, rest) := by
  induction width generalizing n with
  | zero =>
    have hn : n = 0 := by simpa using h
    simp [readFixed, writeFixed, hn]
  | succ width ih =>
    have high : n / 256 < 256 ^ width := Nat.div_lt_of_lt_mul (by rwa [Nat.pow_succ'] at h)
    have low : (n % 256).toUInt8.toNat = n % 256 := UInt8.toNat_ofNat_of_lt' (Nat.mod_lt n (by decide))
    simp only [writeFixed, List.cons_append, readFixed, ih high, Option.map_some, low, Nat.mod_add_div]

theorem readVarint_small {n : Nat} (h : n < 251) (widest : Nat) (rest : Bytes) :
    readVarint widest (writeVarint n ++ rest) = some (n, rest) := by
  have value : n.toUInt8.toNat = n := UInt8.toNat_ofNat_of_lt' (Nat.lt_trans h (by decide))
  have small : n.toUInt8 < 251 := UInt8.lt_iff_toNat_lt.2 (value.symm ▸ h)
  rw [writeVarint, if_pos h, List.singleton_append, readVarint, if_pos small, value]

theorem readVarint_writeVarint {n : Nat} (h : n < sizeLimit) (rest : Bytes) :
    readVarint 8 (writeVarint n ++ rest) = some (n, rest) := by
  by_cases small : n < 251
  · exact readVarint_small small 8 rest
  · rw [writeVarint, if_neg small]
    split
    · next hn => exact readFixed_writeFixed hn rest
    · split
      · next hn => exact readFixed_writeFixed hn rest
      · exact readFixed_writeFixed h rest

theorem zigzag_lt (i : Int64) : zigzag i.toInt < sizeLimit := by
  have lower := i.le_toInt
  have upper := i.toInt_lt
  rw [zigzag, sizeLimit]
  split <;> omega

theorem unzigzag_zigzag (n : Int) : unzigzag (zigzag n) = n := by
  rw [zigzag]
  split
  · have even : 2 * n.toNat % 2 = 0 := Nat.mul_mod_right 2 _
    rw [unzigzag, if_pos even]
    omega
  · have odd : (2 * n.natAbs - 1) % 2 ≠ 0 := by omega
    rw [unzigzag, if_neg odd]
    omega

namespace Codec

def Restores (c : Codec α) (fits : α → Prop) : Prop :=
  ∀ a, fits a → ∀ rest, c.read (c.write a ++ rest) = some (a, rest)

variable {c : Codec α} {c' : Codec β} {fits : α → Prop} {fits' : β → Prop}

theorem length_restores : length.Restores (· < sizeLimit) := fun _ h => readVarint_writeVarint h

theorem tag_restores : tag.Restores (· < 251) := fun _ h => readVarint_small h 4

theorem convert_restores (h : c.Restores fits) {wrap : α → β} {unwrap : β → α} (hw : ∀ b, wrap (unwrap b) = b) :
    (c.convert wrap unwrap).Restores fun b => fits (unwrap b) := by
  intro b hb rest
  simp only [convert, h _ hb, Option.map_some, hw]

theorem pair_restores (h : c.Restores fits) (h' : c'.Restores fits') :
    (c.pair c').Restores fun p => fits p.1 ∧ fits' p.2 := by
  rintro ⟨a, b⟩ ⟨ha, hb⟩ rest
  simp only [pair, List.append_assoc, h a ha, h' b hb, Option.bind_eq_bind, Option.bind_some]
  rfl

theorem readMany_flatMap {read : Bytes → Option (α × Bytes)} {write : α → Bytes} {as : List α}
    (h : ∀ a ∈ as, ∀ rest, read (write a ++ rest) = some (a, rest)) (rest : Bytes) :
    readMany read as.length (as.flatMap write ++ rest) = some (as, rest) := by
  induction as with
  | nil => rfl
  | cons a as ih =>
    obtain ⟨first, others⟩ := List.forall_mem_cons.1 h
    simp only [List.length_cons, readMany, List.flatMap_cons, List.append_assoc, first, ih others,
      Option.bind_eq_bind, Option.bind_some]
    rfl

theorem readList_flatMap {read : Bytes → Option (α × Bytes)} {write : α → Bytes} {as : List α}
    (hl : as.length < sizeLimit) (h : ∀ a ∈ as, ∀ rest, read (write a ++ rest) = some (a, rest)) (rest : Bytes) :
    readList read (length.write as.length ++ (as.flatMap write ++ rest)) = some (as, rest) := by
  simp only [readList, length_restores _ hl, Option.bind_eq_bind, Option.bind_some, readMany_flatMap h]

theorem list_restores (h : c.Restores fits) : c.list.Restores (ListFits fits) := by
  rintro as ⟨hl, ha⟩ rest
  rw [list, List.append_assoc]
  exact readList_flatMap hl (fun a hm => h a (ha a hm)) rest

theorem bool_restores : bool.Restores fun _ => True := by
  rintro b - rest
  cases b <;> rfl

theorem option_restores (h : c.Restores fits) : c.option.Restores fun o => ∀ a ∈ o, fits a := by
  intro o ho rest
  cases o with
  | none => rfl
  | some a =>
    simp only [option, List.append_assoc, bool_restores true trivial, h a (ho a rfl), Option.bind_eq_bind,
      Option.bind_some]
    rfl

theorem string_restores : string.Restores TextFits := by
  intro s hs rest
  have count (bytes : Bytes) : length.read (length.write s.toUTF8.size ++ bytes) = some (s.toUTF8.size, bytes) :=
    length_restores _ hs bytes
  have size : s.toUTF8.data.toList.length = s.toUTF8.size := rfl
  have enough : ¬(s.toUTF8.data.toList ++ rest).length < s.toUTF8.size := by
    rw [List.length_append, size]
    omega
  have text : String.fromUTF8? ⟨s.toUTF8.data.toList.toArray⟩ = some s := by
    rw [Array.toArray_toList, String.fromUTF8?]
    exact dif_pos s.isValidUTF8
  simp only [string, List.append_assoc, count, Option.bind_eq_bind, Option.bind_some, if_neg enough,
    List.take_left' size, List.drop_left' size, text]
  rfl

theorem int64_restores : int64.Restores fun _ => True := by
  have whole (i : Int64) : Int64.ofInt (unzigzag (zigzag i.toInt)) = i := by
    rw [unzigzag_zigzag, Int64.ofInt_toInt]
  exact fun i _ => convert_restores length_restores whole i (zigzag_lt i)

theorem binary64_restores : binary64.Restores fun _ => True := by
  rintro ⟨bits⟩ - rest
  have h : bits.toNat < 256 ^ 8 := bits.toNat_lt
  simp only [binary64, readFixed_writeFixed h, Option.map_some]
  rw [Nat.toUInt64, UInt64.ofNat_toNat]

end Codec

end Schemata.Binary
