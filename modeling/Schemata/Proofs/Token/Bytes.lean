import Mathlib.Data.List.Basic
import Mathlib.Data.List.TakeWhile
import Schemata.Proofs.Token.Splitting
import Schemata.Text.Position
/-!
Tokens in bytes. A pattern that is matched byte by byte ends where it ends on the characters, and so never within
one: it looks for characters of a single byte, and no byte of a longer character is taken for one of these.
-/

namespace Schemata

namespace Text

/-- The bytes of a character in UTF-8, each as the character of its number. -/
def characterBytes (c : Char) : List Char := (String.utf8EncodeChar c).map Char.ofUInt8

def bytes (cs : List Char) : List Char := cs.flatMap characterBytes

@[simp] theorem bytes_nil : bytes [] = [] := rfl

@[simp] theorem bytes_cons (c : Char) (cs : List Char) : bytes (c :: cs) = characterBytes c ++ bytes cs := rfl

@[simp] theorem bytes_append (a b : List Char) : bytes (a ++ b) = bytes a ++ bytes b := List.flatMap_append

theorem bytes_length (cs : List Char) : (bytes cs).length = byteLength cs := by
  induction cs with
  | nil => rfl
  | cons c cs ih =>
    rw [bytes_cons, List.length_append, characterBytes, List.length_map, String.length_utf8EncodeChar, ih, byteLength]

theorem byteLength_pos {cs : List Char} (h : cs ≠ []) : 0 < byteLength cs := by
  obtain ⟨c, rest, rfl⟩ := List.exists_cons_of_ne_nil h
  exact Nat.add_pos_left c.utf8Size_pos _

theorem byteLength_append_eq_iff {a b : List Char} : byteLength a = byteLength (a ++ b) ↔ b = [] := by
  rw [byteLength_append]
  constructor
  · intro same
    by_contra left
    have := byteLength_pos left
    omega
  · rintro rfl
    rfl

theorem splitAtByte?_byteLength (before after : List Char) :
    splitAtByte? (byteLength before) (before ++ after) = some (before, after) := by
  induction before with
  | nil => cases after <;> rfl
  | cons c before ih =>
    have positive := c.utf8Size_pos
    obtain ⟨n, hn⟩ : ∃ n, c.utf8Size + byteLength before = n + 1 := Nat.exists_eq_add_one.2 (by omega)
    rw [byteLength, hn, List.cons_append, splitAtByte?, if_pos (by omega), ← hn, Nat.add_sub_cancel_left, ih]
    rfl

theorem characterBytes_ascii {c : Char} (h : c.toNat < 128) : characterBytes c = [c] := by
  have size : c.utf8Size = 1 := Char.utf8Size_eq_one_iff.2 (UInt32.le_iff_toNat_le.2 (Nat.le_of_lt_succ h))
  rw [characterBytes, String.utf8EncodeChar_eq_singleton size, List.map_singleton]
  congr 1
  apply Char.ext
  apply UInt32.toNat_inj.1
  change c.toNat % 256 = c.toNat
  omega

theorem characterBytes_wide {c : Char} (h : 128 ≤ c.toNat) : ∀ b ∈ characterBytes c, 128 ≤ b.toNat := by
  have wide : ¬c.val.toNat ≤ 127 := Nat.not_le.2 h
  have encoded : ∀ b ∈ String.utf8EncodeChar c, 128 ≤ b.toNat := by
    simp only [String.utf8EncodeChar, wide, if_false]
    split <;> [skip; split] <;> simp <;> omega
  intro b hb
  obtain ⟨byte, hm, rfl⟩ := List.mem_map.1 hb
  exact encoded byte hm

theorem characterBytes_ne_nil (c : Char) : characterBytes c ≠ [] := by
  have size : (characterBytes c).length = c.utf8Size := by
    rw [characterBytes, List.length_map, String.length_utf8EncodeChar]
  exact List.ne_nil_of_length_pos (size ▸ c.utf8Size_pos)

theorem exists_wide_cons {c : Char} (h : 128 ≤ c.toNat) : ∃ b bs, characterBytes c = b :: bs ∧ 128 ≤ b.toNat := by
  obtain ⟨b, bs, hb⟩ := List.exists_cons_of_ne_nil (characterBytes_ne_nil c)
  exact ⟨b, bs, hb, characterBytes_wide h b (hb ▸ List.mem_cons_self)⟩

theorem bytes_cons_cases (c : Char) (cs : List Char) :
    (c.toNat < 128 ∧ bytes (c :: cs) = c :: bytes cs) ∨
      128 ≤ c.toNat ∧ ∃ b bs, bytes (c :: cs) = b :: bs ∧ 128 ≤ b.toNat := by
  by_cases ha : c.toNat < 128
  · exact .inl ⟨ha, by rw [bytes_cons, characterBytes_ascii ha, List.singleton_append]⟩
  · have hw : 128 ≤ c.toNat := Nat.le_of_not_lt ha
    obtain ⟨b, bs, hb, wide⟩ := exists_wide_cons hw
    exact .inr ⟨hw, b, bs ++ bytes cs, by rw [bytes_cons, hb, List.cons_append], wide⟩

theorem eq_cons_of_bytes {cs bs : List Char} {c : Char} (hc : c.toNat < 128) (h : bytes cs = c :: bs) :
    ∃ rest, cs = c :: rest ∧ bs = bytes rest := by
  cases cs with
  | nil => cases h
  | cons d cs =>
    rcases bytes_cons_cases d cs with ⟨-, he⟩ | ⟨-, b, bs', he, wide⟩
    · obtain ⟨rfl, rfl⟩ := List.cons.inj (he.symm.trans h)
      exact ⟨cs, rfl, rfl⟩
    · obtain ⟨rfl, -⟩ := List.cons.inj (he.symm.trans h)
      omega

theorem ne_of_wide {c d : Char} (h : 128 ≤ c.toNat) (hd : d.toNat < 128) : c ≠ d := by
  rintro rfl
  omega

section

variable {p : Char → Bool} {v : Bool} (hp : ∀ c : Char, 128 ≤ c.toNat → p c = v)
include hp

theorem takeWhile_bytes (cs : List Char) : (bytes cs).takeWhile p = bytes (cs.takeWhile p) := by
  induction cs with
  | nil => rfl
  | cons c cs ih =>
    by_cases ha : c.toNat < 128
    · rw [bytes_cons, characterBytes_ascii ha, List.singleton_append, List.takeWhile_cons, List.takeWhile_cons]
      split
      · rw [bytes_cons, characterBytes_ascii ha, ih, List.singleton_append]
      · rfl
    · have hw : 128 ≤ c.toNat := Nat.le_of_not_lt ha
      rw [bytes_cons, List.takeWhile_cons, hp c hw]
      cases v with
      | true =>
        have all : ∀ b ∈ characterBytes c, p b = true := fun b hb => hp b (characterBytes_wide hw b hb)
        rw [List.takeWhile_append_of_pos all, ih, if_pos rfl, bytes_cons]
      | false =>
        obtain ⟨b, bs, hb, wide⟩ := exists_wide_cons hw
        rw [hb, List.cons_append, List.takeWhile_cons, hp b wide, if_neg Bool.false_ne_true,
          if_neg Bool.false_ne_true, bytes_nil]

theorem dropWhile_bytes (cs : List Char) : (bytes cs).dropWhile p = bytes (cs.dropWhile p) := by
  have cut : bytes (cs.takeWhile p) ++ bytes (cs.dropWhile p) = bytes cs := by
    rw [← bytes_append, List.takeWhile_append_dropWhile]
  apply (List.append_right_inj (bytes (cs.takeWhile p))).1
  rw [cut, ← takeWhile_bytes hp, List.takeWhile_append_dropWhile]

end

theorem bytes_ascii {cs : List Char} (h : ∀ c ∈ cs, c.toNat < 128) : bytes cs = cs := by
  induction cs with
  | nil => rfl
  | cons c cs ih =>
    obtain ⟨first, others⟩ := List.forall_mem_cons.1 h
    rw [bytes_cons, characterBytes_ascii first, ih others, List.singleton_append]

theorem takeWhile_bytes_ascii {p : Char → Bool} (hp : ∀ c : Char, 128 ≤ c.toNat → p c = false) (cs : List Char) :
    (bytes cs).takeWhile p = cs.takeWhile p := by
  rw [takeWhile_bytes hp]
  apply bytes_ascii
  intro c hc
  have taken : p c = true := List.all_eq_true.1 List.all_takeWhile c hc
  by_contra wide
  rw [hp c (Nat.le_of_not_lt wide)] at taken
  cases taken

end Text

open Text

theorem isNameStart_wide {c : Char} (h : 128 ≤ c.toNat) : isNameStart c = false := by
  rw [Bool.eq_false_iff]
  intro hs
  have range := isNameStart_iff.1 hs
  omega

theorem isDigit_wide (c : Char) (h : 128 ≤ c.toNat) : c.isDigit = false := by
  rw [Bool.eq_false_iff]
  intro hd
  have range : c.toNat ≤ 57 := (Char.isDigit_iff_toNat.1 hd).2
  omega

theorem isNameContinue_wide (c : Char) (h : 128 ≤ c.toNat) : isNameContinue c = false := by
  have start : (c == '_' || c.isAlpha) = false := isNameStart_wide h
  rw [isNameContinue, Char.isAlphanum, ← Bool.or_assoc, start, isDigit_wide c h, Bool.or_false]

namespace Numeral

theorem minus_bytes (cs : List Char) : minus (bytes cs) = ((minus cs).1, bytes (minus cs).2) := by
  fun_cases minus cs with
  | case1 cs => rfl
  | case2 cs other =>
    rw [minus]
    intro bs h
    obtain ⟨rest, hr, -⟩ := eq_cons_of_bytes (by decide) h
    exact other rest hr

theorem splitWhole?_bytes (cs : List Char) :
    splitWhole? (bytes cs) = (splitWhole? cs).map fun q => (q.1, bytes q.2) := by
  cases cs with
  | nil => rfl
  | cons c cs =>
    rcases bytes_cons_cases c cs with ⟨-, he⟩ | ⟨wide, b, bs, he, hb⟩
    · rw [he, splitWhole?, splitWhole?, takeWhile_bytes_ascii isDigit_wide, dropWhile_bytes isDigit_wide]
      split
      · rfl
      · split <;> rfl
    · have zero {d : Char} (hd : 128 ≤ d.toNat) : d ≠ '0' := by
        rintro rfl
        exact absurd hd (by decide)
      rw [he, splitWhole?, splitWhole?, if_neg (zero hb), if_neg (zero wide), isDigit_wide b hb, isDigit_wide c wide]
      rfl

theorem splitFraction_bytes (cs : List Char) :
    splitFraction (bytes cs) = ((splitFraction cs).1, bytes (splitFraction cs).2) := by
  fun_cases splitFraction cs with
  | case1 cs h =>
    change splitFraction ('.' :: bytes cs) = _
    rw [splitFraction, takeWhile_bytes_ascii isDigit_wide, if_pos h]
    rfl
  | case2 cs h =>
    change splitFraction ('.' :: bytes cs) = _
    rw [splitFraction, takeWhile_bytes_ascii isDigit_wide, if_neg h, dropWhile_bytes isDigit_wide]
  | case3 cs other =>
    rw [splitFraction]
    intro bs h
    obtain ⟨rest, hr, -⟩ := eq_cons_of_bytes (by decide) h
    exact other rest hr

theorem splitSign_bytes (cs : List Char) : splitSign (bytes cs) = ((splitSign cs).1, bytes (splitSign cs).2) := by
  cases cs with
  | nil => rfl
  | cons c cs =>
    rcases bytes_cons_cases c cs with ⟨-, he⟩ | ⟨wide, b, bs, he, hb⟩
    · rw [he, splitSign, splitSign]
      split
      · rfl
      · rw [he]
    · have sign {d : Char} (hd : 128 ≤ d.toNat) : ¬(d = '+' ∨ d = '-') := by
        rintro (rfl | rfl) <;> exact absurd hd (by decide)
      rw [he, splitSign, splitSign, if_neg (sign hb), if_neg (sign wide), he]

theorem splitExponent_bytes (cs : List Char) :
    splitExponent (bytes cs) = ((splitExponent cs).1, bytes (splitExponent cs).2) := by
  cases cs with
  | nil => rfl
  | cons c cs =>
    rcases bytes_cons_cases c cs with ⟨-, he⟩ | ⟨wide, b, bs, he, hb⟩
    · rw [he, splitExponent, splitExponent, splitSign_bytes]
      simp only [takeWhile_bytes_ascii isDigit_wide, dropWhile_bytes isDigit_wide]
      split
      · rfl
      · rw [he]
    · have marker {d : Char} (hd : 128 ≤ d.toNat) : ¬(d = 'e' ∨ d = 'E') := by
        rintro (rfl | rfl) <;> exact absurd hd (by decide)
      simp only [he, splitExponent, marker hb, marker wide, false_and, if_false]

theorem split?_bytes (cs : List Char) : split? (bytes cs) = (split? cs).map fun q => (q.1, bytes q.2) := by
  rw [split?, minus_bytes, split?]
  simp only [splitWhole?_bytes]
  cases splitWhole? (minus cs).2 with
  | none => rfl
  | some q =>
    simp only [Option.map_some, Option.bind_eq_bind, Option.bind_some, splitFraction_bytes, splitExponent_bytes]
    rfl

end Numeral

namespace Pattern

theorem splitName?_bytes (cs : List Char) :
    splitName? (bytes cs) = (splitName? cs).map fun q => (bytes q.1, bytes q.2) := by
  cases cs with
  | nil => rfl
  | cons c cs =>
    rcases bytes_cons_cases c cs with ⟨ascii, he⟩ | ⟨wide, b, bs, he, hb⟩
    · rw [he, splitName?, splitName?, takeWhile_bytes isNameContinue_wide, dropWhile_bytes isNameContinue_wide]
      split
      · rw [Option.map_some, bytes_cons, characterBytes_ascii ascii, List.singleton_append]
      · rfl
    · rw [he, splitName?, splitName?, isNameStart_wide hb, isNameStart_wide wide]
      rfl

theorem splitNumber?_bytes (cs : List Char) :
    splitNumber? (bytes cs) = (splitNumber? cs).map fun q => (bytes q.1, bytes q.2) := by
  rw [splitNumber?, splitNumber?]
  have split := Numeral.split?_bytes cs
  cases hn : Numeral.split? cs with
  | none =>
    rw [hn] at split
    rw [split]
    rfl
  | some q =>
    obtain ⟨n, rest⟩ := q
    rw [hn] at split
    rw [split]
    -- The text of a numeral is its own bytes, since both are what is cut off.
    have cut : n.text ++ bytes rest = bytes cs := (Numeral.split?_append split).1
    rw [← (Numeral.split?_append hn).1, bytes_append] at cut
    have own : n.text = bytes n.text := List.append_cancel_right cut
    change some (n.text, bytes rest) = some (bytes n.text, bytes rest)
    rw [← own]

theorem splitStringBody?_wide {bs : List Char} (h : ∀ b ∈ bs, 128 ≤ b.toNat) (cs : List Char) :
    splitStringBody? (bs ++ cs) = (splitStringBody? cs).map fun q => (bs ++ q.1, q.2) := by
  induction bs with
  | nil => simp
  | cons b bs ih =>
    obtain ⟨wide, others⟩ := List.forall_mem_cons.1 h
    have quote : b ≠ '"' := ne_of_wide wide (by decide)
    have slash : b ≠ '\\' := ne_of_wide wide (by decide)
    have newline : b ≠ '\n' := ne_of_wide wide (by decide)
    rw [List.cons_append, splitStringBody?, if_neg (not_or.2 ⟨newline, slash⟩), ih others, Option.map_map]
    · rfl
    · exact fun h => quote h
    · exact fun _ _ h => absurd h slash

theorem splitStringBody?_bytes (cs : List Char) :
    splitStringBody? (bytes cs) = (splitStringBody? cs).map fun q => (bytes q.1, bytes q.2) := by
  fun_induction splitStringBody? cs with
  | case1 => rfl
  | case2 cs => rfl
  | case3 c cs hc ih =>
    have ascii : c.toNat < 128 := by rcases hc with rfl | rfl <;> decide
    change splitStringBody? ('\\' :: (characterBytes c ++ bytes cs)) = _
    rw [characterBytes_ascii ascii, List.singleton_append, splitStringBody?, if_pos hc, ih, Option.map_map, Option.map_map]
    congr 1
    funext q
    change _ = ('\\' :: (characterBytes c ++ bytes q.1), bytes q.2)
    rw [characterBytes_ascii ascii]
    rfl
  | case4 c cs hc =>
    change splitStringBody? ('\\' :: bytes (c :: cs)) = _
    rcases bytes_cons_cases c cs with ⟨-, he⟩ | ⟨-, b, bs, he, wide⟩
    · rw [he, splitStringBody?, if_neg hc]
      rfl
    · have plain : ¬(b = '\\' ∨ b = '"') := by
        rintro (rfl | rfl) <;> exact absurd wide (by decide)
      rw [he, splitStringBody?, if_neg plain]
      rfl
  | case5 c cs quote slash hc =>
    have ascii : c.toNat < 128 := by rcases hc with rfl | rfl <;> decide
    rw [bytes_cons, characterBytes_ascii ascii, List.singleton_append, splitStringBody?, if_pos hc]
    · rfl
    · exact quote
    · intro b bs hs hb
      -- A backslash with something behind it is the case before.
      cases cs with
      | nil => cases hb
      | cons d cs => exact slash d cs hs rfl
  | case6 c cs quote slash hc ih =>
    by_cases ascii : c.toNat < 128
    · rw [bytes_cons, characterBytes_ascii ascii, List.singleton_append, splitStringBody?, if_neg hc, ih,
        Option.map_map, Option.map_map]
      · congr 1
        funext q
        change _ = (characterBytes c ++ bytes q.1, bytes q.2)
        rw [characterBytes_ascii ascii]
        rfl
      · exact quote
      · exact fun _ _ hs => absurd (.inr hs) hc
    · have wide := characterBytes_wide (Nat.le_of_not_lt ascii)
      rw [bytes_cons, splitStringBody?_wide wide, ih, Option.map_map, Option.map_map]
      rfl

theorem splitString?_bytes (cs : List Char) :
    splitString? (bytes cs) = (splitString? cs).map fun q => (bytes q.1, bytes q.2) := by
  fun_cases splitString? cs with
  | case1 cs =>
    change splitString? ('"' :: bytes cs) = _
    rw [splitString?, splitStringBody?_bytes, Option.map_map, Option.map_map]
    rfl
  | case2 cs other =>
    rw [splitString?]
    · rfl
    · intro bs h
      obtain ⟨rest, hr, -⟩ := eq_cons_of_bytes (by decide) h
      exact other rest hr

theorem bytes_concat_ascii (cs : List Char) {c : Char} (h : c.toNat < 128) : bytes (cs ++ [c]) = bytes cs ++ [c] := by
  rw [bytes_append, bytes_cons, characterBytes_ascii h, bytes_nil, List.append_nil]

theorem bytes_getLast? {cs : List Char} {d : Char} (hd : d.toNat < 128) :
    (bytes cs).getLast? = some d ↔ cs.getLast? = some d := by
  rcases List.eq_nil_or_concat' cs with rfl | ⟨init, c, rfl⟩
  · rfl
  · by_cases ascii : c.toNat < 128
    · rw [bytes_concat_ascii init ascii, List.getLast?_concat, List.getLast?_concat]
    · have wide : 128 ≤ c.toNat := Nat.le_of_not_lt ascii
      obtain ⟨bs, b, hb⟩ := (List.eq_nil_or_concat' (characterBytes c)).resolve_left (characterBytes_ne_nil c)
      have last : 128 ≤ b.toNat := characterBytes_wide wide b (hb ▸ List.mem_append_right _ List.mem_cons_self)
      rw [bytes_append, bytes_cons, bytes_nil, List.append_nil, hb, ← List.append_assoc, List.getLast?_concat,
        List.getLast?_concat]
      exact iff_of_false (fun h => ne_of_wide last hd (Option.some.inj h)) fun h => ne_of_wide wide hd (Option.some.inj h)

theorem commentText_bytes (cs : List Char) : commentText (bytes cs) = bytes (commentText cs) := by
  have uniform (c : Char) (wide : 128 ≤ c.toNat) : (c != '\n') = true :=
    bne_iff_ne.2 (ne_of_wide wide (by decide))
  have return_ascii : '\r'.toNat < 128 := by decide
  rw [commentText, commentText, takeWhile_bytes uniform]
  generalize cs.takeWhile (· != '\n') = line
  by_cases last : line.getLast? = some '\r'
  · rw [if_pos last, if_pos ((bytes_getLast? return_ascii).2 last)]
    obtain ⟨init, rfl⟩ := List.getLast?_eq_some_iff.1 last
    rw [bytes_concat_ascii init return_ascii, List.dropLast_concat, List.dropLast_concat]
  · rw [if_neg last, if_neg (mt (bytes_getLast? return_ascii).1 last)]

theorem splitComment?_bytes (cs : List Char) :
    splitComment? (bytes cs) = (splitComment? cs).map fun q => (bytes q.1, bytes q.2) := by
  fun_cases splitComment? cs with
  | case1 cs =>
    obtain ⟨rest, hr⟩ := commentText_prefix cs
    have after : (bytes cs).drop (bytes (commentText cs)).length = bytes (cs.drop (commentText cs).length) := by
      generalize commentText cs = text at hr
      subst hr
      rw [bytes_append, List.drop_left, List.drop_left]
    change splitComment? ('#' :: bytes cs) = _
    rw [splitComment?, commentText_bytes, after]
    rfl
  | case2 cs other =>
    rw [splitComment?]
    · rfl
    · intro bs h
      obtain ⟨rest, hr, -⟩ := eq_cons_of_bytes (by decide) h
      exact other rest hr

theorem split?_bytes (p : Pattern) (cs : List Char) :
    p.split? (bytes cs) = (p.split? cs).map fun q => (bytes q.1, bytes q.2) := by
  cases p with
  | name => exact splitName?_bytes cs
  | number => exact splitNumber?_bytes cs
  | string => exact splitString?_bytes cs
  | comment => exact splitComment?_bytes cs

def matchLength? (p : Pattern) (cs : List Char) : Option Nat := (p.split? (bytes cs)).map fun q => q.1.length

theorem matchLength?_eq (p : Pattern) (cs : List Char) :
    p.matchLength? cs = (p.split? cs).map fun q => byteLength q.1 := by
  rw [matchLength?, split?_bytes, Option.map_map]
  congr 1
  funext q
  exact bytes_length q.1

theorem matchLength?_append_iff {p : Pattern} {text rest : List Char} :
    p.matchLength? (text ++ rest) = some (byteLength text) ↔ p.split? (text ++ rest) = some (text, rest) := by
  rw [matchLength?_eq]
  constructor
  · intro h
    obtain ⟨⟨taken, behind⟩, hq, size⟩ := Option.map_eq_some_iff.1 h
    have whole := (split?_append hq).1
    obtain rfl : taken = text := by
      rcases List.append_eq_append_iff.1 whole with ⟨more, rfl, -⟩ | ⟨more, rfl, -⟩
      · rw [byteLength_append_eq_iff.1 size, List.append_nil]
      · rw [byteLength_append_eq_iff.1 size.symm, List.append_nil]
    rw [hq, List.append_cancel_left whole]
  · intro h
    rw [h, Option.map_some]

end Pattern

end Schemata
