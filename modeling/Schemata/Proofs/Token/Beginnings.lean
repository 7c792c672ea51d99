import Schemata.Proofs.Token.Lines
import Schemata.Proofs.Token.Places

namespace Schemata

open Text

variable {p : Char → Bool} {x y a : List Char}

theorem dropWhile_cut (h : (x ++ y).dropWhile p = a ++ y) :
    x.takeWhile p = (x ++ y).takeWhile p ∧ x.dropWhile p = a := by
  induction x with
  | nil =>
    have whole : y.takeWhile p ++ a = [] := by
      have parts : y.takeWhile p ++ y.dropWhile p = y := List.takeWhile_append_dropWhile
      rw [List.nil_append] at h
      rw [h, ← List.append_assoc] at parts
      exact List.append_left_eq_self.1 parts
    obtain ⟨taken, rfl⟩ := List.append_eq_nil_iff.1 whole
    exact ⟨taken.symm, rfl⟩
  | cons c x ih =>
    rw [List.cons_append, List.dropWhile_cons] at h
    rw [List.cons_append, List.takeWhile_cons, List.takeWhile_cons, List.dropWhile_cons]
    split
    · next hc =>
      rw [if_pos hc] at h
      exact ⟨congrArg _ (ih h).1, (ih h).2⟩
    · next hc =>
      rw [if_neg hc, ← List.cons_append] at h
      exact ⟨rfl, List.append_cancel_right h⟩

theorem takeWhile_isEmpty_of_append (h : ((x ++ y).takeWhile p).isEmpty) : (x.takeWhile p).isEmpty := by
  cases x with
  | nil => rfl
  | cons c x =>
    rw [List.cons_append, List.takeWhile_cons] at h
    rw [List.takeWhile_cons]
    split
    · next hc =>
      rw [if_pos hc] at h
      cases h
    · rfl

namespace Numeral

theorem minus_cut (h : (minus (x ++ y)).2 = a ++ y) : minus x = ((minus (x ++ y)).1, a) := by
  have parts := minus_append (x ++ y)
  rw [h, ← List.append_assoc, List.append_cancel_right_eq] at parts
  cases x with
  | nil =>
    obtain ⟨unsigned, rfl⟩ := List.append_eq_nil_iff.1 parts
    have positive : (minus ([] ++ y)).1 = false := by simpa using unsigned
    rw [positive]
    rfl
  | cons c x =>
    by_cases hc : c = '-'
    · subst hc
      exact congrArg (true, ·) (List.append_cancel_right h)
    · rw [List.cons_append, minus_of_ne hc] at h ⊢
      rw [minus_of_ne hc]
      exact congrArg (false, ·) (List.append_cancel_right h)

theorem splitWhole?_cut {whole : List Char} (h : splitWhole? (x ++ y) = some (whole, a ++ y)) :
    splitWhole? x = some (whole, a) := by
  obtain ⟨parts, taken⟩ := splitWhole?_append h
  rw [← List.append_assoc, List.append_cancel_right_eq] at parts
  cases x with
  | nil => exact absurd (List.append_eq_nil_iff.1 parts).1 taken
  | cons c x =>
    rw [List.cons_append, splitWhole?] at h
    rw [splitWhole?]
    split at h
    · next hc =>
      obtain ⟨rfl, rest⟩ := Prod.mk.inj (Option.some.inj h)
      rw [if_pos hc, List.append_cancel_right rest]
    · next hc =>
      split at h
      · next hd =>
        obtain ⟨rfl, rest⟩ := Prod.mk.inj (Option.some.inj h)
        obtain ⟨digits, rest⟩ := dropWhile_cut rest
        rw [if_neg hc, if_pos hd, digits, rest]
      · cases h

theorem splitFraction_cut (h : (splitFraction (x ++ y)).2 = a ++ y) : splitFraction x = ((splitFraction (x ++ y)).1, a) := by
  have parts := splitFraction_append (x ++ y)
  rw [h, ← List.append_assoc, List.append_cancel_right_eq] at parts
  cases x with
  | nil =>
    obtain ⟨taken, rfl⟩ := List.append_eq_nil_iff.1 parts
    have whole : (splitFraction ([] ++ y)).1 = [] := by simpa using taken
    rw [whole]
    rfl
  | cons c x =>
    by_cases hc : c = '.'
    · subst hc
      simp only [List.cons_append, splitFraction] at h ⊢
      split at h
      · next he =>
        have rest : '.' :: x = a := List.append_cancel_right h
        rw [if_pos he, if_pos (takeWhile_isEmpty_of_append he), rest]
      · next he =>
        obtain ⟨digits, rest⟩ := dropWhile_cut h
        rw [if_neg he, digits, if_neg he, rest]
    · rw [List.cons_append, splitFraction_of_ne hc] at h ⊢
      rw [splitFraction_of_ne hc]
      exact congrArg ([], ·) (List.append_cancel_right h)

theorem splitSign_of_ne_nil (h : x ≠ []) (y : List Char) :
    splitSign (x ++ y) = ((splitSign x).1, (splitSign x).2 ++ y) := by
  obtain ⟨c, cs, rfl⟩ := List.exists_cons_of_ne_nil h
  rw [List.cons_append, splitSign, splitSign]
  split <;> rfl

theorem splitExponent_cut (h : (splitExponent (x ++ y)).2 = a ++ y) :
    splitExponent x = ((splitExponent (x ++ y)).1, a) := by
  have parts := splitExponent_append (x ++ y)
  rw [h, ← List.append_assoc, List.append_cancel_right_eq] at parts
  cases x with
  | nil =>
    obtain ⟨taken, rfl⟩ := List.append_eq_nil_iff.1 parts
    have none_read : (splitExponent ([] ++ y)).1 = none := by
      cases he : (splitExponent ([] ++ y)).1 with
      | none => rfl
      | some e =>
        rw [he] at taken
        cases taken
    rw [none_read]
    rfl
  | cons c x =>
    by_cases he : (c = 'e' ∨ c = 'E') ∧ ¬((splitSign (x ++ y)).2.takeWhile Char.isDigit).isEmpty
    · simp only [List.cons_append, splitExponent, if_pos he] at h parts ⊢
      have digits_before : x ≠ [] := by
        rintro rfl
        simp [Exponent.text] at parts
        simp [parts] at he
      rw [splitSign_of_ne_nil digits_before] at h he ⊢
      obtain ⟨digits, rest⟩ := dropWhile_cut h
      rw [digits, if_pos he, rest]
    · simp only [List.cons_append, splitExponent, if_neg he] at h ⊢
      have none_left : ¬((c = 'e' ∨ c = 'E') ∧ ¬((splitSign x).2.takeWhile Char.isDigit).isEmpty) := by
        rintro ⟨marker, digits⟩
        have digits_before : x ≠ [] := by
          rintro rfl
          exact digits rfl
        rw [splitSign_of_ne_nil digits_before] at he
        exact he ⟨marker, fun hn => digits (takeWhile_isEmpty_of_append hn)⟩
      have rest : c :: x = a := List.append_cancel_right h
      rw [if_neg none_left, rest]

theorem split?_cut {n : Numeral} (h : split? (x ++ y) = some (n, a ++ y)) : split? x = some (n, a) := by
  simp only [split?, Option.bind_eq_bind, Option.bind_eq_some_iff, Option.pure_def, Option.some.injEq,
    Prod.mk.injEq] at h
  obtain ⟨⟨whole, r₂⟩, hw, rfl, he⟩ := h
  -- The parts are cut from behind: what each of them leaves ends with what stands behind the text.
  obtain ⟨a₃, h₃⟩ : ∃ a₃, (splitFraction r₂).2 = a₃ ++ y := by
    have parts := splitExponent_append (splitFraction r₂).2
    rw [he, ← List.append_assoc] at parts
    exact ⟨_, parts.symm⟩
  obtain ⟨a₂, rfl⟩ : ∃ a₂, r₂ = a₂ ++ y := by
    have parts := splitFraction_append r₂
    rw [h₃, ← List.append_assoc] at parts
    exact ⟨_, parts.symm⟩
  obtain ⟨a₁, h₁⟩ : ∃ a₁, (minus (x ++ y)).2 = a₁ ++ y := by
    have parts := (splitWhole?_append hw).1
    rw [← List.append_assoc] at parts
    exact ⟨_, parts.symm⟩
  rw [h₁] at hw
  rw [h₃] at he ⊢
  simp only [split?, minus_cut h₁, splitWhole?_cut hw, splitFraction_cut h₃, splitExponent_cut he, Option.bind_eq_bind,
    Option.bind_some, Option.pure_def]

end Numeral

namespace Pattern

theorem commentText_append (hx : '\n' ∉ x) (z : List Char) : commentText (x ++ z) =
    if (x ++ z.takeWhile (· != '\n')).getLast? = some '\r' then (x ++ z.takeWhile (· != '\n')).dropLast
    else x ++ z.takeWhile (· != '\n') := by
  have unbroken : ∀ c ∈ x, (c != '\n') = true := by
    intro c hc
    have : c ≠ '\n' := by rintro rfl; exact hx hc
    simpa using this
  rw [commentText, List.takeWhile_append_of_pos unbroken]

theorem commentText_cut (hy : y.head? ≠ some '\r') (h : commentText (x ++ (a ++ y)) = x) : commentText (x ++ a) = x := by
  have unbroken : '\n' ∉ x := h ▸ commentText_no_break (x ++ (a ++ y))
  rw [commentText_append unbroken] at h ⊢
  split at h
  · next hl =>
    have line := List.dropLast_append_getLast? _ hl
    rw [h, List.append_cancel_left_eq] at line
    cases a with
    | nil =>
      cases y with
      | nil => cases line
      | cons c y =>
        rw [List.nil_append, List.takeWhile_cons] at line
        split at line
        · exact absurd (congrArg List.head? line).symm hy
        · cases line
    | cons c a =>
      rw [List.cons_append, List.takeWhile_cons] at line
      split at line
      · next hc =>
        obtain ⟨rfl, behind⟩ := List.cons.inj line
        have nothing : a.takeWhile (· != '\n') = [] :=
          List.isEmpty_iff.1 (takeWhile_isEmpty_of_append (List.isEmpty_iff.2 behind.symm))
        simp [nothing]
      · cases line
  · next hl =>
    have behind : (a ++ y).takeWhile (· != '\n') = [] := List.append_right_eq_self.1 h
    have nothing : a.takeWhile (· != '\n') = [] :=
      List.isEmpty_iff.1 (takeWhile_isEmpty_of_append (List.isEmpty_iff.2 behind))
    rw [behind] at hl
    rw [nothing, if_neg hl, List.append_nil]

theorem split?_cut {p : Pattern} {text : List Char} (hy : p = .comment → y.head? ≠ some '\r')
    (h : p.split? (x ++ y) = some (text, a ++ y)) : p.split? x = some (text, a) := by
  obtain ⟨parts, taken⟩ := split?_append h
  rw [← List.append_assoc, List.append_cancel_right_eq] at parts
  cases p with
  | name =>
    cases x with
    | nil => exact absurd (List.append_eq_nil_iff.1 parts).1 taken
    | cons c x =>
      rw [split?, List.cons_append, splitName?] at h
      split at h
      · next hc =>
        obtain ⟨rfl, rest⟩ := Prod.mk.inj (Option.some.inj h)
        obtain ⟨letters, rest⟩ := dropWhile_cut rest
        rw [split?, splitName?, if_pos hc, letters, rest]
      · cases h
  | number =>
    obtain ⟨⟨n, rest⟩, hn, he⟩ := Option.map_eq_some_iff.1 h
    obtain ⟨rfl, rfl⟩ := Prod.mk.inj he
    rw [split?, splitNumber?, Numeral.split?_cut hn]
    rfl
  | string =>
    obtain ⟨body, hn, rfl, -⟩ := splitString?_eq_some_iff.1 h
    exact splitString?_eq_some_iff.2 ⟨body, hn, rfl, parts.symm⟩
  | comment =>
    cases x with
    | nil => exact absurd (List.append_eq_nil_iff.1 parts).1 taken
    | cons c x =>
      by_cases hc : c = '#'
      · subst hc
        obtain ⟨rfl, -⟩ := Prod.mk.inj (Option.some.inj h)
        obtain ⟨content, hc⟩ : ∃ content, commentText (x ++ y) = content := ⟨_, rfl⟩
        obtain rfl : content ++ a = x := hc ▸ (List.cons.inj parts).2
        have whole : commentText (content ++ (a ++ y)) = content := by rwa [← List.append_assoc]
        have text : commentText ((content ++ a).append y) = content := hc
        rw [text, split?, splitComment?, commentText_cut (hy rfl) whole, List.drop_left]
      · rw [split?, List.cons_append, splitComment?_of_ne hc] at h
        cases h

end Pattern

namespace Token

theorem Starts.cut {t : Token} (hy : y.head? ≠ some '\r') (h : Starts (x ++ y) t (a ++ y)) : Starts x t a := by
  have parts := h.text_append
  rw [← List.append_assoc, List.append_cancel_right_eq] at parts
  generalize hi : x ++ y = input at h
  generalize hr : a ++ y = rest at h
  cases h with
  | punctuator rest hc =>
    subst hr
    rw [← parts, text, String.toList_singleton]
    exact .punctuator a hc
  | pattern hs =>
    subst hi hr
    exact .pattern (Pattern.split?_cut (fun _ => hy) hs)

end Token

theorem Reaches.stops {cs input : List Char} {ts : List Token} (h : Reaches cs ts input) : Stops isSeparator input := by
  have skipped := h.skip_eq
  cases input with
  | nil => exact .nil
  | cons c input =>
    have first := List.dropWhile_eq_self_iff.1 skipped (Nat.zero_lt_succ _)
    exact .cons (Bool.eq_false_iff.2 first) input

theorem Reaches.splits {cs before input : List Char} {ts : List Token} (h : Reaches cs ts input)
    (hb : before ++ input = cs) : Splits before ts := by
  induction h generalizing before with
  | here h hi =>
    rw [List.append_cancel_right hb]
    exact .done h
  | @token gap start rest after t ts h first others ih =>
    obtain ⟨a, rfl⟩ := others.suffix
    have no_return : after.head? ≠ some '\r' := fun hr => absurd (others.stops _ hr) (by decide)
    have text := first.text_append
    rw [← text, ← List.append_assoc, ← List.append_assoc, List.append_cancel_right_eq] at hb
    rw [hb, List.append_assoc]
    rw [← text, ← List.append_assoc] at first
    exact .token h (first.cut no_return) (ih rfl)

end Schemata
