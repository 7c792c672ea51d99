import Mathlib.Computability.Language
import Schemata.Proofs.Token.Beginnings
import Schemata.Proofs.Token.Bytes
import Schemata.Proofs.Token.Composing

namespace Schemata

open Text
open scoped Computability

def single (p : Char → Bool) : Language Char := {cs | ∃ c, p c ∧ cs = [c]}

def digits : Language Char := single Char.isDigit * (single Char.isDigit)∗

namespace Pattern

/-- As regular expressions: `[_A-Za-z][_0-9A-Za-z]*`, `-?(0|[1-9][0-9]*)(\.[0-9]+)?([eE][+-]?[0-9]+)?`,
`"([^"\\\n]|\\\\|\\")*"` and `#[^\n]*`. -/
def language : Pattern → Language Char
  | name => single isNameStart * (single isNameContinue)∗
  | number =>
    (1 + single (· == '-')) *
      (single (· == '0') + single (fun c => '1' ≤ c && c ≤ '9') * (single Char.isDigit)∗) *
      (1 + single (· == '.') * digits) *
      (1 + single (fun c => c == 'e' || c == 'E') * (1 + single (fun c => c == '+' || c == '-')) * digits)
  | string =>
    single (· == '"') *
      (single (fun c => c != '"' && c != '\\' && c != '\n') +
        single (· == '\\') * single (fun c => c == '\\' || c == '"'))∗ *
      single (· == '"')
  | comment => single (· == '#') * (single (· != '\n'))∗

end Pattern

variable {p : Char → Bool} {c : Char} {cs text rest : List Char}

theorem mem_kstar_single : cs ∈ (single p)∗ ↔ ∀ c ∈ cs, p c := by
  rw [Language.mem_kstar]
  constructor
  · rintro ⟨texts, rfl, h⟩ c hc
    obtain ⟨text, ht, hc⟩ := List.mem_flatten.1 hc
    obtain ⟨d, hd, rfl⟩ := h text ht
    rwa [List.mem_singleton.1 hc]
  · intro h
    refine ⟨cs.map fun c => [c], (List.flatMap_singleton' cs).symm, ?_⟩
    intro text ht
    obtain ⟨c, hc, rfl⟩ := List.mem_map.1 ht
    exact ⟨c, h c hc, rfl⟩

theorem mem_single_mul {l : Language Char} : cs ∈ single p * l ↔ ∃ c rest, p c ∧ rest ∈ l ∧ cs = c :: rest := by
  rw [Language.mem_mul]
  constructor
  · rintro ⟨_, ⟨c, hc, rfl⟩, rest, hr, rfl⟩
    exact ⟨c, rest, hc, hr, rfl⟩
  · rintro ⟨c, rest, hc, hr, rfl⟩
    exact ⟨[c], ⟨c, hc, rfl⟩, rest, hr, rfl⟩

theorem append_mem_kstar {l : Language Char} (ht : text ∈ l) (hr : rest ∈ l∗) : text ++ rest ∈ l∗ := by
  obtain ⟨parts, rfl, h⟩ := Language.mem_kstar.1 hr
  exact ⟨text :: parts, rfl, List.forall_mem_cons.2 ⟨ht, h⟩⟩

theorem mem_optional {l : Language Char} : cs ∈ 1 + l ↔ cs = [] ∨ cs ∈ l := by
  rw [Language.mem_add, Language.mem_one]

theorem mem_digits : cs ∈ digits ↔ cs ≠ [] ∧ ∀ c ∈ cs, c.isDigit := by
  rw [digits, mem_single_mul]
  constructor
  · rintro ⟨c, rest, hc, hr, rfl⟩
    exact ⟨List.cons_ne_nil c rest, List.forall_mem_cons.2 ⟨hc, mem_kstar_single.1 hr⟩⟩
  · rintro ⟨nonempty, h⟩
    obtain ⟨c, rest, rfl⟩ := List.exists_cons_of_ne_nil nonempty
    obtain ⟨first, others⟩ := List.forall_mem_cons.1 h
    exact ⟨c, rest, first, mem_kstar_single.2 others, rfl⟩

theorem isDigit_nonzero : ('1' ≤ c && c ≤ '9') = true ↔ c.isDigit ∧ c ≠ '0' := by
  rw [Bool.and_eq_true, decide_eq_true_eq, decide_eq_true_eq, Char.isDigit_iff_toNat, Ne, ← Char.toNat_inj,
    Char.le_def, Char.le_def, UInt32.le_iff_toNat_le, UInt32.le_iff_toNat_le]
  change 49 ≤ c.toNat ∧ c.toNat ≤ 57 ↔ (48 ≤ c.toNat ∧ c.toNat ≤ 57) ∧ ¬c.toNat = 48
  omega

namespace Numeral

theorem mem_whole : cs ∈ single (· == '0') + single (fun c => '1' ≤ c && c ≤ '9') * (single Char.isDigit)∗ ↔
    cs ≠ [] ∧ (cs.head? = some '0' → cs = ['0']) ∧ ∀ c ∈ cs, c.isDigit := by
  rw [Language.mem_add, mem_single_mul]
  constructor
  · rintro (⟨c, hc, rfl⟩ | ⟨c, rest, hc, hr, rfl⟩)
    · obtain rfl := beq_iff_eq.1 hc
      exact ⟨List.cons_ne_nil _ _, fun _ => rfl, List.forall_mem_singleton.2 rfl⟩
    · obtain ⟨digit, nonzero⟩ := isDigit_nonzero.1 hc
      refine ⟨List.cons_ne_nil _ _, fun h => ?_, List.forall_mem_cons.2 ⟨digit, mem_kstar_single.1 hr⟩⟩
      exact absurd (Option.some.inj h) nonzero
  · rintro ⟨nonempty, leading, h⟩
    obtain ⟨c, rest, rfl⟩ := List.exists_cons_of_ne_nil nonempty
    by_cases hc : c = '0'
    · exact .inl ⟨'0', rfl, leading (congrArg some hc)⟩
    · obtain ⟨first, others⟩ := List.forall_mem_cons.1 h
      exact .inr ⟨c, rest, isDigit_nonzero.2 ⟨first, hc⟩, mem_kstar_single.2 others, rfl⟩

theorem mem_fraction : cs ∈ 1 + single (· == '.') * digits ↔
    ∃ fraction : List Char, (∀ c ∈ fraction, c.isDigit) ∧ cs = if fraction.isEmpty then [] else '.' :: fraction := by
  rw [mem_optional, mem_single_mul]
  constructor
  · rintro (rfl | ⟨c, fraction, hc, hf, rfl⟩)
    · exact ⟨[], nofun, rfl⟩
    · obtain rfl := beq_iff_eq.1 hc
      obtain ⟨nonempty, h⟩ := mem_digits.1 hf
      exact ⟨fraction, h, by simp [nonempty]⟩
  · rintro ⟨fraction, h, rfl⟩
    cases fraction with
    | nil => exact .inl rfl
    | cons d ds => exact .inr ⟨'.', d :: ds, rfl, mem_digits.2 ⟨List.cons_ne_nil d ds, h⟩, rfl⟩

theorem mem_sign : cs ∈ 1 + single (fun c => c == '+' || c == '-') ↔
    ∃ sign : Option Char, (∀ c ∈ sign, c = '+' ∨ c = '-') ∧ cs = sign.toList := by
  rw [mem_optional]
  constructor
  · rintro (rfl | ⟨c, hc, rfl⟩)
    · exact ⟨none, nofun, rfl⟩
    · refine ⟨some c, ?_, rfl⟩
      rintro d ⟨⟩
      simpa using hc
  · rintro ⟨_ | c, h, rfl⟩
    · exact .inl rfl
    · exact .inr ⟨c, by simpa using h c rfl, rfl⟩

theorem mem_exponent :
    cs ∈ 1 + single (fun c => c == 'e' || c == 'E') * (1 + single (fun c => c == '+' || c == '-')) * digits ↔
      ∃ exponent : Option Exponent, (∀ e ∈ exponent, e.WellFormed) ∧ cs = (exponent.map Exponent.text).getD [] := by
  rw [mem_optional, mul_assoc, mem_single_mul]
  constructor
  · rintro (rfl | ⟨marker, rest, hm, hr, rfl⟩)
    · exact ⟨none, nofun, rfl⟩
    · obtain ⟨_, hs, ds, hd, rfl⟩ := Language.mem_mul.1 hr
      obtain ⟨sign, signs, rfl⟩ := mem_sign.1 hs
      obtain ⟨nonempty, all⟩ := mem_digits.1 hd
      refine ⟨some ⟨marker, sign, ds⟩, ?_, rfl⟩
      rintro e ⟨⟩
      exact ⟨by simpa using hm, signs, nonempty, all⟩
  · rintro ⟨_ | e, h, rfl⟩
    · exact .inl rfl
    · obtain ⟨marker, sign, nonempty, digits⟩ := h e rfl
      refine .inr ⟨e.marker, e.sign.toList ++ e.digits, by simpa using marker, ?_, rfl⟩
      exact Language.append_mem_mul (mem_sign.2 ⟨e.sign, sign, rfl⟩) (mem_digits.2 ⟨nonempty, digits⟩)

theorem mem_minus : cs ∈ 1 + single (· == '-') ↔ ∃ negative : Bool, cs = if negative then ['-'] else [] := by
  rw [mem_optional]
  constructor
  · rintro (rfl | ⟨c, hc, rfl⟩)
    · exact ⟨false, rfl⟩
    · obtain rfl := beq_iff_eq.1 hc
      exact ⟨true, rfl⟩
  · rintro ⟨_ | _, rfl⟩
    · exact .inl rfl
    · exact .inr ⟨'-', rfl, rfl⟩

theorem mem_language_iff : cs ∈ Pattern.number.language ↔ ∃ n : Numeral, n.WellFormed ∧ cs = n.text := by
  constructor
  · intro h
    obtain ⟨front, hx, _, he, rfl⟩ := Language.mem_mul.1 h
    obtain ⟨front', hy, _, hf, rfl⟩ := Language.mem_mul.1 hx
    obtain ⟨_, hm, whole, hw, rfl⟩ := Language.mem_mul.1 hy
    obtain ⟨negative, rfl⟩ := mem_minus.1 hm
    obtain ⟨nonempty, leading, whole_digits⟩ := mem_whole.1 hw
    obtain ⟨fraction, fraction_digits, rfl⟩ := mem_fraction.1 hf
    obtain ⟨exponent, exponent_wellFormed, rfl⟩ := mem_exponent.1 he
    exact ⟨⟨negative, whole, fraction, exponent⟩,
      ⟨nonempty, leading, whole_digits, fraction_digits, exponent_wellFormed⟩, rfl⟩
  · rintro ⟨n, hn, rfl⟩
    have minus := mem_minus.2 ⟨n.negative, rfl⟩
    have whole := mem_whole.2 ⟨hn.nonempty, hn.leading, hn.whole⟩
    have fraction := mem_fraction.2 ⟨n.fraction, hn.fraction, rfl⟩
    have exponent := mem_exponent.2 ⟨n.exponent, hn.exponent, rfl⟩
    exact Language.append_mem_mul (Language.append_mem_mul (Language.append_mem_mul minus whole) fraction) exponent

theorem exists_split? {n : Numeral} (hn : n.WellFormed) (rest : List Char) : ∃ q, split? (n.text ++ rest) = some q := by
  obtain ⟨c, cs, hc⟩ := List.exists_cons_of_ne_nil hn.nonempty
  have digit : c.isDigit := hn.whole c (hc ▸ List.mem_cons_self)
  have whole (more : List Char) : ∃ q, splitWhole? (n.whole ++ more) = some q := by
    rw [hc, List.cons_append, splitWhole?]
    split
    · exact ⟨_, rfl⟩
    · exact ⟨_, rfl⟩
  obtain ⟨q, hq⟩ := whole ((if n.fraction.isEmpty then [] else '.' :: n.fraction) ++
    ((n.exponent.map Exponent.text).getD [] ++ rest))
  simp only [split?, text, List.append_assoc, minus_complete hn, hq, Option.bind_eq_bind, Option.bind_some,
    Option.pure_def]
  exact ⟨_, rfl⟩

end Numeral

namespace Pattern

theorem mem_kstar_escape :
    cs ∈ (single (fun c => c != '"' && c != '\\' && c != '\n') +
        single (· == '\\') * single (fun c => c == '\\' || c == '"'))∗ ↔ ∃ text, '\n' ∉ text ∧ cs = escape text := by
  constructor
  · intro h
    obtain ⟨parts, rfl, all⟩ := Language.mem_kstar.1 h
    clear h
    induction parts with
    | nil => exact ⟨[], List.not_mem_nil, rfl⟩
    | cons part parts ih =>
      obtain ⟨first, others⟩ := List.forall_mem_cons.1 all
      obtain ⟨text, unbroken, ht⟩ := ih others
      rw [List.flatten_cons, ht]
      rcases first with ⟨c, hc, rfl⟩ | hb
      · obtain ⟨⟨quote, backslash⟩, newline⟩ : (c ≠ '"' ∧ c ≠ '\\') ∧ c ≠ '\n' := by simpa using hc
        refine ⟨c :: text, List.not_mem_cons_of_ne_of_not_mem (Ne.symm newline) unbroken, ?_⟩
        rw [escape, if_neg (not_or.2 ⟨backslash, quote⟩), List.singleton_append]
      · obtain ⟨b, _, slash, ⟨c, hc, rfl⟩, rfl⟩ := mem_single_mul.1 hb
        obtain rfl := beq_iff_eq.1 slash
        have special : c = '\\' ∨ c = '"' := by simpa using hc
        have newline : '\n' ≠ c := by rcases special with rfl | rfl <;> decide
        refine ⟨c :: text, List.not_mem_cons_of_ne_of_not_mem newline unbroken, ?_⟩
        rw [escape, if_pos special]
        rfl
  · rintro ⟨text, unbroken, rfl⟩
    induction text with
    | nil => exact Language.nil_mem_kstar _
    | cons c text ih =>
      have others := ih (List.not_mem_of_not_mem_cons unbroken)
      have newline : c ≠ '\n' := Ne.symm (List.ne_of_not_mem_cons unbroken)
      rw [escape]
      split
      · next special =>
        have pair : ['\\', c] ∈ single (· == '\\') * single (fun c => c == '\\' || c == '"') :=
          mem_single_mul.2 ⟨'\\', [c], rfl, ⟨c, by simpa using special, rfl⟩, rfl⟩
        exact append_mem_kstar (.inr pair) others
      · next plain =>
        obtain ⟨backslash, quote⟩ := not_or.1 plain
        exact append_mem_kstar (.inl ⟨c, by simp [quote, backslash, newline], rfl⟩) others

theorem mem_language_iff (p : Pattern) : text ∈ p.language ↔ p.Matches text := by
  cases p with
  | name =>
    rw [language, mem_single_mul]
    constructor
    · rintro ⟨c, rest, hc, hr, rfl⟩
      exact ⟨c, rest, rfl, hc, mem_kstar_single.1 hr⟩
    · rintro ⟨c, rest, rfl, hc, hr⟩
      exact ⟨c, rest, hc, mem_kstar_single.2 hr, rfl⟩
  | number => exact Numeral.mem_language_iff
  | string =>
    rw [language, mul_assoc, mem_single_mul]
    constructor
    · rintro ⟨q, _, hq, hr, rfl⟩
      obtain ⟨_, hb, _, ⟨c, hc, rfl⟩, rfl⟩ := Language.mem_mul.1 hr
      obtain ⟨body, unbroken, rfl⟩ := mem_kstar_escape.1 hb
      obtain rfl := beq_iff_eq.1 hq
      obtain rfl := beq_iff_eq.1 hc
      exact ⟨body, unbroken, rfl⟩
    · rintro ⟨body, unbroken, rfl⟩
      have closed := Language.append_mem_mul (mem_kstar_escape.2 ⟨body, unbroken, rfl⟩)
        (show ['"'] ∈ single (· == '"') from ⟨'"', rfl, rfl⟩)
      exact ⟨'"', escape body ++ ['"'], rfl, closed, rfl⟩
  | comment =>
    have unbroken_iff (cs : List Char) : (∀ c ∈ cs, (c != '\n') = true) ↔ '\n' ∉ cs := by
      simp [List.forall_mem_ne']
    rw [language, mem_single_mul]
    constructor
    · rintro ⟨c, rest, hc, hr, rfl⟩
      obtain rfl := beq_iff_eq.1 hc
      exact ⟨rest, (unbroken_iff rest).1 (mem_kstar_single.1 hr), rfl⟩
    · rintro ⟨rest, unbroken, rfl⟩
      exact ⟨'#', rest, rfl, mem_kstar_single.2 ((unbroken_iff rest).2 unbroken), rfl⟩

def Fits : Pattern → List Char → List Char → Prop
  | comment, cs, text => ∃ line rest, line ++ rest = cs ∧ line ∈ comment.language ∧
      (rest = [] ∨ rest.head? = some '\n') ∧
      (line = text ++ ['\r'] ∨ line = text ∧ line.getLast? ≠ some '\r')
  | p, cs, text => text ∈ p.language ∧ text <+: cs

structure Longest (p : Pattern) (cs text : List Char) : Prop where
  fits : p.Fits cs text
  longest : ∀ other, p.Fits cs other → byteLength other ≤ byteLength text

theorem fits_iff {p : Pattern} (h : p ≠ .comment) : p.Fits cs text ↔ p.Matches text ∧ text <+: cs := by
  cases p with
  | comment => exact absurd rfl h
  | _ => exact and_congr_left fun _ => mem_language_iff _

theorem dropReturn_eq_iff {line : List Char} :
    dropReturn line = text ↔ line = text ++ ['\r'] ∨ line = text ∧ line.getLast? ≠ some '\r' := by
  rw [dropReturn]
  split
  · next last =>
    obtain ⟨front, rfl⟩ := List.getLast?_eq_some_iff.1 last
    simp [last]
  · next last =>
    constructor
    · rintro rfl
      exact .inr ⟨rfl, last⟩
    · rintro (rfl | ⟨rfl, -⟩)
      · exact absurd List.getLast?_concat last
      · rfl

theorem fits_comment_iff : comment.Fits cs text ↔ ∃ rest, comment.split? cs = some (text, rest) := by
  constructor
  · rintro ⟨line, rest, rfl, hl, ended, returned⟩
    obtain ⟨body, unbroken, rfl⟩ := (mem_language_iff comment).1 hl
    have stop : Stops (· != '\n') rest := by
      rcases ended with rfl | head
      · exact .nil
      · intro c hc
        obtain rfl := Option.some.inj (head.symm.trans hc)
        rfl
    have cut : '#' :: commentText (body ++ rest) = text := by
      rw [← dropReturn_eq_iff.2 returned, dropReturn_cons, commentText_eq unbroken stop]
    exact ⟨_, by rw [List.cons_append, split?, splitComment?, cut]⟩
  · rintro ⟨rest, h⟩
    rw [split?] at h
    unfold splitComment? at h
    split at h
    · next cs =>
      obtain ⟨rfl, -⟩ := Prod.mk.inj (Option.some.inj h)
      have unbroken : '\n' ∉ cs.takeWhile (· != '\n') := by
        intro hm
        simpa using List.all_eq_true.1 List.all_takeWhile _ hm
      refine ⟨'#' :: cs.takeWhile (· != '\n'), cs.dropWhile (· != '\n'), ?_, ?_, ?_, ?_⟩
      · rw [List.cons_append, List.takeWhile_append_dropWhile]
      · exact (mem_language_iff comment).2 ⟨_, unbroken, rfl⟩
      · have first := List.head?_dropWhile_not (· != '\n') cs
        cases hd : cs.dropWhile (· != '\n') with
        | nil => exact .inl rfl
        | cons c more =>
          rw [hd] at first
          exact .inr (congrArg some (by simpa using first))
      · exact dropReturn_eq_iff.1 (dropReturn_cons _)
    · cases h

theorem Matches.split?_self {p : Pattern} (h : p.Matches text) (hp : p ≠ .comment) : p.split? text = some (text, []) := by
  have alone := split?_bounded hp h .nil
  rwa [List.append_nil] at alone

theorem exists_split? {p : Pattern} (h : p.Matches text) (hp : p ≠ .comment) (rest : List Char) :
    ∃ q, p.split? (text ++ rest) = some q := by
  cases p with
  | name =>
    obtain ⟨c, cs, rfl, hc, -⟩ := h
    exact ⟨_, if_pos hc⟩
  | number =>
    obtain ⟨n, hn, rfl⟩ := h
    obtain ⟨q, hq⟩ := Numeral.exists_split? hn rest
    exact ⟨_, Option.map_eq_some_iff.2 ⟨q, hq, rfl⟩⟩
  | string =>
    obtain ⟨cs, hn, rfl⟩ := h
    exact ⟨_, splitString?_eq_some_iff.2 ⟨cs, hn, rfl, rfl⟩⟩
  | comment => exact absurd rfl hp

theorem split?_fits {p : Pattern} (h : p.split? cs = some (text, rest)) : p.Fits cs text := by
  by_cases hp : p = .comment
  · subst hp
    exact fits_comment_iff.2 ⟨rest, h⟩
  · exact (fits_iff hp).2 ⟨matches_of_split? h, ⟨rest, (split?_append h).1⟩⟩

theorem Fits.byteLength_le {p : Pattern} {other : List Char} (h : p.split? cs = some (text, rest))
    (ho : p.Fits cs other) : byteLength other ≤ byteLength text := by
  by_cases hp : p = .comment
  · subst hp
    obtain ⟨rest', h'⟩ := fits_comment_iff.1 ho
    obtain ⟨rfl, -⟩ := Prod.mk.inj (Option.some.inj (h'.symm.trans h))
    exact Nat.le_refl _
  · obtain ⟨matched, ⟨behind, whole⟩⟩ := (fits_iff hp).1 ho
    rcases List.append_eq_append_iff.1 (whole.trans (split?_append h).1.symm) with ⟨more, rfl, -⟩ | ⟨more, rfl, rfl⟩
    · rw [byteLength_append]
      exact Nat.le_add_right _ _
    · -- The longer text alone is taken whole, and what stands behind it makes no difference.
      have alone : p.split? (text ++ more) = some (text, more) := by
        apply split?_cut (fun hc => absurd hc hp)
        rw [whole]
        exact h
      rw [matched.split?_self hp] at alone
      obtain ⟨taken, -⟩ := Prod.mk.inj (Option.some.inj alone)
      rw [taken]

theorem Fits.unique {p : Pattern} {other : List Char} (hp : p = .string ∨ p = .comment) (h : p.Fits cs text)
    (ho : p.Fits cs other) : text = other := by
  have taken (text : List Char) (h : p.Fits cs text) : ∃ rest, p.split? cs = some (text, rest) := by
    rcases hp with rfl | rfl
    · obtain ⟨⟨body, unbroken, rfl⟩, rest, rfl⟩ := (fits_iff (p := .string) (by decide)).1 h
      exact ⟨rest, splitString?_eq_some_iff.2 ⟨body, unbroken, rfl, rfl⟩⟩
    · exact fits_comment_iff.1 h
  obtain ⟨rest, h⟩ := taken text h
  obtain ⟨rest', ho⟩ := taken other ho
  exact (Prod.mk.inj (Option.some.inj (h.symm.trans ho))).1

theorem Fits.exists_split? {p : Pattern} (h : p.Fits cs text) : ∃ q, p.split? cs = some q := by
  by_cases hp : p = .comment
  · subst hp
    obtain ⟨rest, h⟩ := fits_comment_iff.1 h
    exact ⟨_, h⟩
  · obtain ⟨matched, ⟨rest, rfl⟩⟩ := (fits_iff hp).1 h
    exact Pattern.exists_split? matched hp rest

theorem split?_longest {p : Pattern} (h : p.split? cs = some (text, rest)) : p.Longest cs text :=
  ⟨split?_fits h, fun _ ho => ho.byteLength_le h⟩

/-- What a pattern matches in bytes is the longest text that fits; if none does, it matches nothing. Of strings and
comments there is at most one. What is matched is not empty, and ends at the end of a character. -/
theorem matchLength?_longest (p : Pattern) (cs : List Char) :
    p.matchLength? cs = (p.split? cs).map (fun q => byteLength q.1) ∧
    (∀ n, p.matchLength? cs = some n ↔ ∃ text, p.Longest cs text ∧ byteLength text = n) ∧
    (p.matchLength? cs = none ↔ ∀ text, ¬p.Fits cs text) ∧
    (p = .string ∨ p = .comment → ∀ text other, p.Fits cs text → p.Fits cs other → text = other) ∧
    ∀ n, p.matchLength? cs = some n → 1 ≤ n ∧ n ≤ byteLength cs ∧
      ∃ before after, before ++ after = cs ∧ byteLength before = n := by
  refine ⟨matchLength?_eq p cs, ?_, ?_, fun hp _ _ h ho => h.unique hp ho, ?_⟩
  · intro n
    rw [matchLength?_eq]
    constructor
    · intro h
      obtain ⟨⟨text, rest⟩, hq, rfl⟩ := Option.map_eq_some_iff.1 h
      exact ⟨text, split?_longest hq, rfl⟩
    · rintro ⟨text, ⟨fits, longest⟩, rfl⟩
      obtain ⟨⟨taken, rest⟩, hq⟩ := fits.exists_split?
      have same := Nat.le_antisymm (longest taken (split?_fits hq)) (fits.byteLength_le hq)
      rw [hq, Option.map_some, same]
  · rw [matchLength?_eq, Option.map_eq_none_iff]
    constructor
    · intro none_taken text fits
      obtain ⟨q, hq⟩ := fits.exists_split?
      rw [none_taken] at hq
      cases hq
    · intro h
      cases hq : p.split? cs with
      | none => rfl
      | some q => exact absurd (split?_fits hq) (h q.1)
  · intro n h
    rw [matchLength?_eq] at h
    obtain ⟨⟨text, rest⟩, hq, rfl⟩ := Option.map_eq_some_iff.1 h
    obtain ⟨rfl, nonempty⟩ := split?_append hq
    refine ⟨byteLength_pos nonempty, ?_, text, rest, rfl, rfl⟩
    rw [byteLength_append]
    exact Nat.le_add_right _ _

example : number.matchLength? "-0.5e+é".toList = some 4 := by decide

end Pattern

end Schemata
