import Mathlib.Tactic.ByContra
import Mathlib.Tactic.Tauto
import Schemata.Document.Value

namespace Schemata

structure Exponent.WellFormed (e : Exponent) : Prop where
  marker : e.marker = 'e' ∨ e.marker = 'E'
  sign : ∀ c ∈ e.sign, c = '+' ∨ c = '-'
  nonempty : e.digits ≠ []
  digits : ∀ c ∈ e.digits, c.isDigit

structure Numeral.WellFormed (n : Numeral) : Prop where
  nonempty : n.whole ≠ []
  leading : n.whole.head? = some '0' → n.whole = ['0']
  whole : ∀ c ∈ n.whole, c.isDigit
  fraction : ∀ c ∈ n.fraction, c.isDigit
  exponent : ∀ e ∈ n.exponent, e.WellFormed

def Stops (p : Char → Bool) (cs : List Char) : Prop := ∀ c ∈ cs.head?, p c = false

namespace Stops

variable {p q : Char → Bool} {ds rest : List Char} {c : Char}

theorem nil : Stops p [] := nofun

theorem cons (h : p c = false) (rest : List Char) : Stops p (c :: rest) := by
  intro d hd
  obtain rfl : c = d := by simpa using hd
  exact h

theorem mono (h : Stops p rest) (hq : ∀ c, q c → p c) : Stops q rest := by
  intro c hc
  by_contra hn
  have := hq c (by simpa using hn)
  simp [h c hc] at this

theorem takeWhile (hd : ∀ c ∈ ds, p c) (h : Stops p rest) : (ds ++ rest).takeWhile p = ds := by
  rw [List.takeWhile_append_of_pos hd]
  cases rest with
  | nil => simp
  | cons c rest => simp [h c rfl]

theorem dropWhile (hd : ∀ c ∈ ds, p c) (h : Stops p rest) : (ds ++ rest).dropWhile p = rest := by
  rw [List.dropWhile_append_of_pos hd]
  cases rest with
  | nil => rfl
  | cons c rest => simp [h c rfl]

theorem takeWhile_append (h : Stops p rest) (cs : List Char) : (cs ++ rest).takeWhile p = cs.takeWhile p := by
  induction cs with
  | nil =>
    have none : ([] ++ rest).takeWhile p = [] := h.takeWhile nofun
    exact none
  | cons c cs ih =>
    rw [List.cons_append, List.takeWhile_cons, List.takeWhile_cons, ih]

theorem dropWhile_append (h : Stops p rest) (cs : List Char) :
    (cs ++ rest).dropWhile p = cs.dropWhile p ++ rest := by
  induction cs with
  | nil =>
    have all : ([] ++ rest).dropWhile p = rest := h.dropWhile nofun
    exact all
  | cons c cs ih =>
    rw [List.cons_append, List.dropWhile_cons, List.dropWhile_cons, ih]
    split <;> rfl

theorem iff_takeWhile_eq_nil : Stops p rest ↔ rest.takeWhile p = [] := by
  constructor
  · intro h
    rw [← List.nil_append rest]
    exact h.takeWhile nofun
  · intro h
    cases rest with
    | nil => exact .nil
    | cons c rest =>
      apply Stops.cons
      by_contra hc
      rw [List.takeWhile_cons_of_pos (by simpa using hc)] at h
      cases h

end Stops

theorem digits_takeWhile (cs : List Char) : ∀ c ∈ cs.takeWhile Char.isDigit, c.isDigit :=
  fun c hc => List.all_eq_true.1 List.all_takeWhile c hc

namespace Numeral

variable {cs rest whole fraction : List Char} {n : Numeral}

/-! ### What is read is well-formed -/

theorem splitWhole?_wellFormed (h : splitWhole? cs = some (whole, rest)) :
    (whole.head? = some '0' → whole = ['0']) ∧ ∀ c ∈ whole, c.isDigit := by
  cases cs with
  | nil => simp [splitWhole?] at h
  | cons c cs =>
    simp only [splitWhole?] at h
    split at h
    · obtain ⟨rfl, rfl⟩ : ['0'] = whole ∧ cs = rest := by simpa using h
      simp
    · next hz =>
      split at h
      · next hd =>
        obtain ⟨rfl, rfl⟩ := Prod.mk.inj (Option.some.inj h)
        refine ⟨?_, List.forall_mem_cons.2 ⟨hd, digits_takeWhile cs⟩⟩
        intro h0
        exact absurd (Option.some.inj h0) hz
      · cases h

theorem splitFraction_wellFormed (cs : List Char) : ∀ c ∈ (splitFraction cs).1, c.isDigit := by
  fun_cases splitFraction cs with
  | case1 => simp
  | case2 cs _ => exact digits_takeWhile cs
  | case3 => simp

theorem splitSign_wellFormed (cs : List Char) : ∀ c ∈ (splitSign cs).1, c = '+' ∨ c = '-' := by
  fun_cases splitSign cs with
  | case1 => simp
  | case2 c cs h => simpa using h
  | case3 => simp

theorem splitExponent_wellFormed (cs : List Char) : ∀ e ∈ (splitExponent cs).1, e.WellFormed := by
  fun_cases splitExponent cs with
  | case1 => simp
  | case2 c cs sign ds hs h =>
    obtain ⟨marker, digits⟩ := h
    have sign : ∀ c ∈ sign, c = '+' ∨ c = '-' := by
      have := splitSign_wellFormed cs
      rwa [hs] at this
    intro e he
    obtain rfl := Option.some.inj he
    exact ⟨marker, sign, by simpa using digits, digits_takeWhile ds⟩
  | case3 => simp

theorem split?_wellFormed (h : split? cs = some (n, rest)) : n.WellFormed := by
  simp only [split?, Option.bind_eq_bind, Option.bind_eq_some_iff, Option.pure_def, Option.some.injEq,
    Prod.mk.injEq] at h
  obtain ⟨⟨whole, r⟩, hw, rfl, -⟩ := h
  obtain ⟨leading, digits⟩ := splitWhole?_wellFormed hw
  exact ⟨(splitWhole?_append hw).2, leading, digits, splitFraction_wellFormed r, splitExponent_wellFormed _⟩

/-! ### What is well-formed is read back -/

def goesOn (c : Char) : Bool := c.isDigit || c == '.' || c == 'e' || c == 'E'

theorem goesOn_of_isDigit (c : Char) (h : c.isDigit) : goesOn c := by simp [goesOn, h]

theorem minus_of_ne {c : Char} (h : c ≠ '-') (cs : List Char) : minus (c :: cs) = (false, c :: cs) := by
  unfold minus
  split
  · next he => exact absurd (List.cons.inj he).1 h
  · rfl

theorem minus_of_isDigit {c : Char} (h : c.isDigit) (cs : List Char) : minus (c :: cs) = (false, c :: cs) := by
  apply minus_of_ne
  rintro rfl
  cases h

theorem splitFraction_of_ne {c : Char} (h : c ≠ '.') (cs : List Char) : splitFraction (c :: cs) = ([], c :: cs) := by
  unfold splitFraction
  split
  · next he => exact absurd (List.cons.inj he).1 h
  · rfl

theorem splitWhole?_complete (hn : n.WellFormed) (h : Stops Char.isDigit rest) :
    splitWhole? (n.whole ++ rest) = some (n.whole, rest) := by
  obtain ⟨c, cs, hc⟩ := List.exists_cons_of_ne_nil hn.nonempty
  have digits := hn.whole
  rw [hc, List.forall_mem_cons] at digits
  rw [hc, List.cons_append, splitWhole?]
  by_cases hz : c = '0'
  · have zero := hn.leading (by rw [hc, hz]; rfl)
    obtain rfl : cs = [] := (List.cons.inj (hc.symm.trans zero)).2
    simp [hz]
  · rw [if_neg hz, if_pos digits.1, h.takeWhile digits.2, h.dropWhile digits.2]

theorem splitFraction_complete (hf : ∀ c ∈ fraction, c.isDigit) (hd : Stops Char.isDigit rest)
    (hp : Stops (· == '.') rest) :
    splitFraction ((if fraction.isEmpty then [] else '.' :: fraction) ++ rest) = (fraction, rest) := by
  cases fraction with
  | nil =>
    cases rest with
    | nil => rfl
    | cons c rest =>
      have hc : c ≠ '.' := by simpa using hp c rfl
      rw [List.isEmpty_nil, if_pos rfl, List.nil_append, splitFraction_of_ne hc]
  | cons c fraction =>
    have taken := hd.takeWhile hf
    have dropped := hd.dropWhile hf
    simp only [List.cons_append] at taken dropped
    simp [splitFraction, taken, dropped]

theorem splitSign_complete {sign : Option Char} (hs : ∀ c ∈ sign, c = '+' ∨ c = '-') {digits : List Char}
    (hn : digits ≠ []) (hd : ∀ c ∈ digits, c.isDigit) :
    splitSign (sign.toList ++ (digits ++ rest)) = (sign, digits ++ rest) := by
  cases sign with
  | none =>
    obtain ⟨d, ds, rfl⟩ := List.exists_cons_of_ne_nil hn
    have hc : ¬(d = '+' ∨ d = '-') := by
      rintro (rfl | rfl) <;> exact absurd (hd _ List.mem_cons_self) (by decide)
    simp [splitSign, hc]
  | some c => simp [splitSign, hs c rfl]

theorem splitExponent_complete {exponent : Option Exponent} (he : ∀ e ∈ exponent, e.WellFormed)
    (h : Stops goesOn rest) :
    splitExponent ((exponent.map Exponent.text).getD [] ++ rest) = (exponent, rest) := by
  cases exponent with
  | none =>
    cases rest with
    | nil => rfl
    | cons c rest =>
      have hc : ¬(c = 'e' ∨ c = 'E') := by
        have := h c rfl
        simp [goesOn] at this
        tauto
      simp [splitExponent, hc]
  | some e =>
    have hw := he e rfl
    have hd := h.mono goesOn_of_isDigit
    have sign : splitSign (e.sign.toList ++ (e.digits ++ rest)) = (e.sign, e.digits ++ rest) :=
      splitSign_complete hw.sign hw.nonempty hw.digits
    have text : ((some e).map Exponent.text).getD [] ++ rest = e.marker :: (e.sign.toList ++ (e.digits ++ rest)) := by
      simp [Exponent.text]
    rw [text, splitExponent, sign]
    simp [hd.takeWhile hw.digits, hd.dropWhile hw.digits, hw.marker, hw.nonempty]

theorem minus_complete (hn : n.WellFormed) (rest : List Char) :
    minus ((if n.negative then ['-'] else []) ++ (n.whole ++ rest)) = (n.negative, n.whole ++ rest) := by
  obtain ⟨c, cs, hc⟩ := List.exists_cons_of_ne_nil hn.nonempty
  have digit : c.isDigit := hn.whole c (hc ▸ List.mem_cons_self)
  cases hs : n.negative with
  | false => simp [hc, minus_of_isDigit digit]
  | true => simp [minus]

theorem stops_exponent {exponent : Option Exponent} (he : ∀ e ∈ exponent, e.WellFormed) (h : Stops goesOn rest) :
    Stops (fun c => c.isDigit || c == '.') ((exponent.map Exponent.text).getD [] ++ rest) := by
  cases exponent with
  | none => exact h.mono (by simp [goesOn]; tauto)
  | some e =>
    simp only [Option.map_some, Option.getD_some, Exponent.text, List.cons_append]
    apply Stops.cons
    rcases (he e rfl).marker with hm | hm <;> rw [hm] <;> decide

theorem stops_fraction (fraction : List Char) (h : Stops Char.isDigit rest) :
    Stops Char.isDigit ((if fraction.isEmpty then [] else '.' :: fraction) ++ rest) := by
  cases fraction with
  | nil => exact h
  | cons c fraction => exact .cons (by decide) _

theorem split?_complete (hn : n.WellFormed) (h : Stops goesOn rest) : split? (n.text ++ rest) = some (n, rest) := by
  have exponent := splitExponent_complete hn.exponent h
  have after_fraction := stops_exponent hn.exponent h
  have after_whole := stops_fraction n.fraction (after_fraction.mono (by simp; tauto))
  have fraction := splitFraction_complete hn.fraction (after_fraction.mono (by simp; tauto))
    (after_fraction.mono (by simp))
  have whole := splitWhole?_complete hn after_whole
  rw [text, split?]
  simp only [List.append_assoc]
  rw [minus_complete hn]
  simp only [whole, fraction, exponent, Option.bind_eq_bind, Option.bind_some, Option.pure_def]

theorem split?_eq_some_iff : split? cs = some (n, []) ↔ n.WellFormed ∧ n.text = cs := by
  constructor
  · intro h
    refine ⟨split?_wellFormed h, ?_⟩
    simpa using (split?_append h).1
  · rintro ⟨hn, rfl⟩
    have := split?_complete hn Stops.nil
    rwa [List.append_nil] at this

theorem eq_of_text {m : Numeral} (hn : n.WellFormed) (hm : m.WellFormed) (h : n.text = m.text) : n = m := by
  have one := split?_eq_some_iff.2 ⟨hn, h⟩
  have other := split?_eq_some_iff.2 ⟨hm, rfl⟩
  exact (Prod.mk.inj (Option.some.inj (one.symm.trans other))).1

theorem isIntegral_iff (hn : n.WellFormed) : n.isIntegral ↔ '.' ∉ n.text ∧ 'e' ∉ n.text ∧ 'E' ∉ n.text := by
  constructor
  · intro h
    obtain ⟨hf, he⟩ : n.fraction = [] ∧ n.exponent = none := by simpa [isIntegral] using h
    have absent {c : Char} (hc : c.isDigit = false) (hm : c ≠ '-') : c ∉ n.text := by
      have whole : c ∉ n.whole := by
        intro h
        simp [hn.whole c h] at hc
      have sign : c ∉ if n.negative then ['-'] else [] := by
        split <;> simp [hm]
      simp [text, hf, he, sign, whole]
    exact ⟨absent (by decide) (by decide), absent (by decide) (by decide), absent (by decide) (by decide)⟩
  · rintro ⟨hp, hl, hu⟩
    have fraction : n.fraction = [] := by
      by_contra hf
      exact hp (by simp [text, hf])
    have exponent : n.exponent = none := by
      cases he : n.exponent with
      | none => rfl
      | some e =>
        exfalso
        rcases (hn.exponent e he).marker with hm | hm
        · exact hl (by simp [text, he, Exponent.text, hm])
        · exact hu (by simp [text, he, Exponent.text, hm])
    simp [isIntegral, fraction, exponent]

/-! ### What follows a numeral -/

def isPart (c : Char) : Bool := goesOn c || c == '+' || c == '-'

theorem stops_ne_cons (h : Stops isPart rest) {c : Char} (hc : isPart c) (cs : List Char) : rest ≠ c :: cs := by
  rintro rfl
  rw [h c rfl] at hc
  cases hc

theorem stops_isDigit (h : Stops isPart rest) : Stops Char.isDigit rest :=
  h.mono fun c hc => by simp [isPart, goesOn_of_isDigit c hc]

theorem minus_stops (h : Stops isPart rest) (cs : List Char) :
    minus (cs ++ rest) = ((minus cs).1, (minus cs).2 ++ rest) := by
  cases cs with
  | nil =>
    cases rest with
    | nil => rfl
    | cons c rest =>
      have hc : c ≠ '-' := by
        rintro rfl
        exact stops_ne_cons h (by decide) rest rfl
      exact minus_of_ne hc rest
  | cons c cs =>
    by_cases hc : c = '-'
    · subst hc
      rfl
    · rw [List.cons_append, minus_of_ne hc, minus_of_ne hc, List.cons_append]

theorem splitWhole?_stops (h : Stops isPart rest) (cs : List Char) :
    splitWhole? (cs ++ rest) = (splitWhole? cs).map fun q => (q.1, q.2 ++ rest) := by
  have digits := stops_isDigit h
  cases cs with
  | nil =>
    cases rest with
    | nil => rfl
    | cons c rest =>
      have hz : c ≠ '0' := by
        rintro rfl
        exact stops_ne_cons h (by decide) rest rfl
      have hd : c.isDigit = false := digits c rfl
      simp [splitWhole?, hz, hd]
  | cons c cs =>
    rw [List.cons_append, splitWhole?, splitWhole?]
    split
    · rfl
    · split
      · rw [digits.takeWhile_append, digits.dropWhile_append]
        rfl
      · rfl

theorem splitFraction_stops (h : Stops isPart rest) (cs : List Char) :
    splitFraction (cs ++ rest) = ((splitFraction cs).1, (splitFraction cs).2 ++ rest) := by
  have digits := stops_isDigit h
  cases cs with
  | nil =>
    cases rest with
    | nil => rfl
    | cons c rest =>
      have hc : c ≠ '.' := by
        rintro rfl
        exact stops_ne_cons h (by decide) rest rfl
      exact splitFraction_of_ne hc rest
  | cons c cs =>
    by_cases hc : c = '.'
    · subst hc
      rw [List.cons_append, splitFraction, splitFraction, digits.takeWhile_append, digits.dropWhile_append]
      split <;> rfl
    · rw [List.cons_append, splitFraction_of_ne hc, splitFraction_of_ne hc, List.cons_append]

theorem splitSign_stops (h : Stops isPart rest) (cs : List Char) :
    splitSign (cs ++ rest) = ((splitSign cs).1, (splitSign cs).2 ++ rest) := by
  cases cs with
  | nil =>
    cases rest with
    | nil => rfl
    | cons c rest =>
      have hc : ¬(c = '+' ∨ c = '-') := by
        rintro (rfl | rfl) <;> exact stops_ne_cons h (by decide) rest rfl
      simp [splitSign, hc]
  | cons c cs =>
    rw [List.cons_append, splitSign, splitSign]
    split <;> rfl

theorem splitExponent_stops (h : Stops isPart rest) (cs : List Char) :
    splitExponent (cs ++ rest) = ((splitExponent cs).1, (splitExponent cs).2 ++ rest) := by
  have digits := stops_isDigit h
  cases cs with
  | nil =>
    cases rest with
    | nil => rfl
    | cons c rest =>
      have hc : ¬(c = 'e' ∨ c = 'E') := by
        rintro (rfl | rfl) <;> exact stops_ne_cons h (by decide) rest rfl
      simp [splitExponent, hc]
  | cons c cs =>
    rw [List.cons_append, splitExponent, splitExponent, splitSign_stops h]
    simp only [digits.takeWhile_append, digits.dropWhile_append]
    split <;> rfl

theorem split?_stops (h : Stops isPart rest) (cs : List Char) :
    split? (cs ++ rest) = (split? cs).map fun q => (q.1, q.2 ++ rest) := by
  rw [split?, split?, minus_stops h]
  simp only [splitWhole?_stops h]
  cases splitWhole? (minus cs).2 with
  | none => rfl
  | some q => simp [splitFraction_stops h, splitExponent_stops h]

/-! ### Whole numbers in decimal -/

def ofInt (i : Int) : Numeral := ⟨i < 0, Nat.toDigits 10 i.natAbs, [], none⟩

theorem toDigits_head {n : Nat} (h : (Nat.toDigits 10 n).head? = some '0') : n = 0 := by
  induction n using Nat.strongRecOn with
  | ind n ih =>
    by_cases hn : n < 10
    · rw [Nat.toDigits_of_lt_base hn] at h
      exact Nat.digitChar_eq_zero.1 (Option.some.inj h)
    · -- The first digit is that of the quotient.
      rw [Nat.toDigits_of_base_le (by decide) (Nat.le_of_not_lt hn), List.head?_append,
        List.head?_eq_some_head Nat.toDigits_ne_nil, Option.some_or, ← List.head?_eq_some_head] at h
      have := ih (n / 10) (by omega) h
      omega

theorem ofInt_wellFormed (i : Int) : (ofInt i).WellFormed where
  nonempty := Nat.toDigits_ne_nil
  leading h := by
    have zero : i.natAbs = 0 := toDigits_head h
    simp [ofInt, zero]
  whole _ hc := Nat.isDigit_of_mem_toDigits (by decide) (by decide) hc
  fraction := nofun
  exponent := nofun

theorem ofInt_wholeValue (i : Int) : (ofInt i).wholeValue = i := by
  have size : digitsValue (Nat.toDigits 10 i.natAbs) = i.natAbs := by
    have := Nat.ofDigitChars_ten_toDigits (n := i.natAbs)
    rwa [Nat.ofDigitChars_eq_foldl] at this
  simp only [wholeValue, ofInt, size, decide_eq_true_eq]
  omega

theorem toList_toString (i : Int) : (toString i).toList = (ofInt i).text := by
  rw [Int.toString_eq_repr]
  cases i with
  | ofNat m => simp [Int.repr, Nat.toList_repr, text, ofInt]
  | negSucc m => simp [Int.repr, Nat.toList_repr, text, ofInt]

end Numeral

namespace Number

theorem read?_eq_some_iff {text : String} {x : Number} :
    read? text = some x ↔ ∃ n : Numeral, n.WellFormed ∧ n.text = text.toList ∧ ofNumeral n = x := by
  constructor
  · intro h
    unfold read? at h
    split at h
    · next n hs =>
      obtain ⟨hn, ht⟩ := Numeral.split?_eq_some_iff.1 hs
      exact ⟨n, hn, ht, Option.some.inj h⟩
    · cases h
  · rintro ⟨n, hn, ht, rfl⟩
    simp only [read?, Numeral.split?_eq_some_iff.2 ⟨hn, ht⟩]

theorem ofNumeral_ofInt (i : Int64) : ofNumeral (.ofInt i.toInt) = .int i := by
  have hi := Numeral.ofInt_wholeValue i.toInt
  have low := i.le_toInt
  have high := i.toInt_le
  rw [ofNumeral, if_pos, hi, Int64.ofInt_toInt]
  rw [hi]
  exact ⟨rfl, low, high⟩

theorem read?_toString (i : Int64) : read? (toString i) = some (.int i) :=
  read?_eq_some_iff.2 ⟨_, Numeral.ofInt_wellFormed _, (Numeral.toList_toString i.toInt).symm, ofNumeral_ofInt i⟩

end Number

end Schemata
