import Schemata.Proofs.Number.Numerals
import Schemata.Proofs.Token.Quoting
import Schemata.Proofs.Token.Splitting

namespace Schemata

open Text

def Pattern.Matches : Pattern → List Char → Prop
  | .name, text => ∃ c cs, text = c :: cs ∧ isNameStart c ∧ ∀ d ∈ cs, isNameContinue d
  | .number, text => ∃ n : Numeral, n.WellFormed ∧ text = n.text
  | .string, text => ∃ cs, '\n' ∉ cs ∧ text = quote cs
  | .comment, text => ∃ cs, '\n' ∉ cs ∧ text = '#' :: cs

instance : (text : List Char) → Decidable (Pattern.name.Matches text)
  | [] => isFalse nofun
  | c :: cs => decidable_of_iff ((isNameStart c && cs.all isNameContinue) = true) <| by
    rw [Bool.and_eq_true, List.all_eq_true]
    constructor
    · intro h
      exact ⟨c, cs, rfl, h⟩
    · rintro ⟨_, _, he, h⟩
      cases he
      exact h

def Token.WellFormed : Token → Prop
  | .comment text => Pattern.comment.Matches text.toList
  | .name text => Pattern.name.Matches text.toList
  | .number text => Pattern.number.Matches text.toList
  | .string text => Pattern.string.Matches text.toList
  | .punctuator c => isPunctuator c

variable {t : Token} {ts : List Token} {cs text rest : List Char}

def isBoundary (c : Char) : Bool := isSeparator c || isPunctuator c

def Bounded (cs : List Char) : Prop := ∀ c ∈ cs.head?, isBoundary c

namespace Bounded

theorem nil : Bounded [] := nofun

theorem cons {c : Char} (h : isBoundary c) (cs : List Char) : Bounded (c :: cs) := by
  intro d hd
  exact Option.some.inj hd ▸ h

theorem append (h : Bounded cs) (hr : Bounded rest) : Bounded (cs ++ rest) := by
  cases cs with
  | nil => exact hr
  | cons c cs => exact cons (h c rfl) _

theorem stops {p : Char → Bool} (h : Bounded rest) (hp : ∀ c, p c → ¬isBoundary c) : Stops p rest := by
  intro c hc
  rw [← Bool.not_eq_true]
  exact fun hpc => hp c hpc (h c hc)

end Bounded

theorem isBoundary_code {c : Char} (h : isBoundary c) : c.toNat ≤ 32 ∨ c.toNat = 44 ∨ 160 ≤ c.toNat ∨
    c.toNat ∈ [123, 125, 40, 41, 91, 93, 58, 61, 124, 38, 33] := by
  rw [isBoundary, Bool.or_eq_true] at h
  rcases h with hs | hp
  · have := isSeparator_range hs
    omega
  · exact .inr (.inr (.inr (isPunctuator_code hp)))

theorem isDigit_not_boundary {c : Char} (h : c.isDigit) : ¬isBoundary c := by
  intro hb
  have digit : 48 ≤ c.toNat ∧ c.toNat ≤ 57 := Char.isDigit_iff_toNat.1 h
  have := isBoundary_code hb
  simp at this
  omega

theorem isNameContinue_not_boundary {c : Char} (h : isNameContinue c) : ¬isBoundary c := by
  intro hb
  rcases hd : c.isDigit with _ | _
  · have start : isNameStart c := by simpa [isNameContinue, isNameStart, Char.isAlphanum, hd] using h
    have := isNameStart_iff.1 start
    have := isBoundary_code hb
    simp at this
    omega
  · exact isDigit_not_boundary hd hb

theorem goesOn_not_boundary {c : Char} (h : Numeral.goesOn c) : ¬isBoundary c := by
  intro hb
  simp only [Numeral.goesOn, Bool.or_eq_true, beq_iff_eq] at h
  rcases h with ((hd | rfl) | rfl) | rfl
  · exact isDigit_not_boundary hd hb
  all_goals cases hb

namespace Pattern

theorem commentText_no_break (cs : List Char) : '\n' ∉ commentText cs := by
  have line : '\n' ∉ cs.takeWhile (· != '\n') := by
    intro h
    simpa using List.all_eq_true.1 List.all_takeWhile _ h
  rw [commentText]
  split
  · exact fun h => line (List.dropLast_subset _ h)
  · exact line

theorem matches_of_split? {p : Pattern} (h : p.split? cs = some (text, rest)) : p.Matches text := by
  cases p with
  | name =>
    cases cs with
    | nil => cases h
    | cons c cs =>
      simp only [split?, splitName?] at h
      split at h
      · next hc =>
        obtain ⟨rfl, rfl⟩ := Prod.mk.inj (Option.some.inj h)
        exact ⟨c, _, rfl, hc, fun d hd => List.all_eq_true.1 List.all_takeWhile d hd⟩
      · cases h
  | number =>
    obtain ⟨⟨n, after⟩, hs, he⟩ := Option.map_eq_some_iff.1 h
    obtain ⟨rfl, rfl⟩ := Prod.mk.inj he
    exact ⟨n, Numeral.split?_wellFormed hs, rfl⟩
  | string =>
    obtain ⟨body, hn, ht, -⟩ := splitString?_eq_some_iff.1 h
    exact ⟨body, hn, ht⟩
  | comment =>
    simp only [split?, splitComment?] at h
    split at h
    · obtain ⟨rfl, rfl⟩ := Prod.mk.inj (Option.some.inj h)
      exact ⟨_, commentText_no_break _, rfl⟩
    · cases h

theorem commentText_line (h : '\n' ∉ cs) (rest : List Char) : commentText (cs ++ '\r' :: '\n' :: rest) = cs := by
  have kept : ∀ c ∈ cs, (c != '\n') = true := by
    intro c hc
    have : c ≠ '\n' := by rintro rfl; exact h hc
    simpa using this
  have line : (cs ++ '\r' :: '\n' :: rest).takeWhile (· != '\n') = cs ++ ['\r'] := by
    rw [List.takeWhile_append_of_pos kept]
    rfl
  -- The carriage return that is cut off is the one that ends the line.
  simp [commentText, line]

theorem split?_bounded {p : Pattern} (hp : p ≠ .comment) (h : p.Matches text) (hr : Bounded rest) :
    p.split? (text ++ rest) = some (text, rest) := by
  cases p with
  | name =>
    obtain ⟨c, cs, rfl, hc, hcs⟩ := h
    have stop : Stops isNameContinue rest := hr.stops fun c hc hb => isNameContinue_not_boundary hc hb
    simp [split?, splitName?, hc, stop.takeWhile hcs, stop.dropWhile hcs]
  | number =>
    obtain ⟨n, hn, rfl⟩ := h
    have stop : Stops Numeral.goesOn rest := hr.stops fun c hc hb => goesOn_not_boundary hc hb
    simp [split?, splitNumber?, Numeral.split?_complete hn stop]
  | string =>
    obtain ⟨cs, hn, rfl⟩ := h
    exact splitString?_eq_some_iff.2 ⟨cs, hn, rfl, rfl⟩
  | comment => exact absurd rfl hp

theorem split?_line {p : Pattern} (h : p.Matches text) (rest : List Char) :
    p.split? (text ++ '\r' :: '\n' :: rest) = some (text, '\r' :: '\n' :: rest) := by
  by_cases hp : p = .comment
  · subst hp
    obtain ⟨cs, hn, rfl⟩ := h
    simp [split?, splitComment?, commentText_line hn]
  · exact split?_bounded hp h (.cons rfl _)

end Pattern

namespace Token

theorem Starts.wellFormed (h : Starts cs t rest) : t.WellFormed := by
  cases h with
  | punctuator rest hc => exact hc
  | @pattern p _ text _ h =>
    have matched := Pattern.matches_of_split? h
    cases p <;> simpa [ofPattern, WellFormed] using matched

theorem WellFormed.starts_bounded (h : t.WellFormed) (hn : ∀ text, t ≠ .comment text) (hr : Bounded rest) :
    Starts (t.text.toList ++ rest) t rest := by
  have pattern {p : Pattern} {text : String} (hp : p ≠ .comment) (h : p.Matches text.toList) :
      Starts (text.toList ++ rest) (ofPattern p text) rest := by
    have := Starts.pattern (Pattern.split?_bounded hp h hr)
    rwa [String.ofList_toList] at this
  cases t with
  | comment text => exact absurd rfl (hn text)
  | name text => exact pattern (p := .name) nofun h
  | number text => exact pattern (p := .number) nofun h
  | string text => exact pattern (p := .string) nofun h
  | punctuator c =>
    rw [text, String.toList_singleton]
    exact .punctuator _ h

theorem WellFormed.starts_line (h : t.WellFormed) (rest : List Char) :
    Starts (t.text.toList ++ '\r' :: '\n' :: rest) t ('\r' :: '\n' :: rest) := by
  by_cases hc : ∃ text, t = .comment text
  · obtain ⟨text, rfl⟩ := hc
    have := Starts.pattern (Pattern.split?_line (p := .comment) h rest)
    rwa [String.ofList_toList] at this
  · exact h.starts_bounded (not_exists.1 hc) (.cons rfl _)

theorem WellFormed.eq_of_text {t' : Token} (h : t.WellFormed) (h' : t'.WellFormed) (ht : t.text = t'.text) : t = t' := by
  have first := next?_of_starts (h.starts_line [])
  have second := next?_of_starts (h'.starts_line [])
  rw [ht, second] at first
  exact (Prod.mk.inj (Option.some.inj first)).1.symm

theorem eq_of_texts {ts' : List Token} (h : ∀ t ∈ ts, t.WellFormed) (h' : ∀ t ∈ ts', t.WellFormed)
    (ht : ts.map Token.text = ts'.map Token.text) : ts = ts' := by
  induction ts generalizing ts' with
  | nil => exact (List.map_eq_nil_iff.1 ht.symm).symm
  | cons t ts ih =>
    obtain ⟨t', us, rfl, hx, hxs⟩ := List.map_eq_cons_iff.1 ht.symm
    obtain ⟨hw, hws⟩ := List.forall_mem_cons.1 h
    obtain ⟨hw', hws'⟩ := List.forall_mem_cons.1 h'
    rw [hw.eq_of_text hw' hx.symm, ih hws hws' hxs.symm]

end Token

def layout (ts : List Token) : List Char := ts.flatMap fun t => t.text.toList ++ ['\r', '\n']

theorem Splits.gap {gap : List Char} (hg : ∀ c ∈ gap, isSeparator c) (h : Splits cs ts) : Splits (gap ++ cs) ts := by
  cases h with
  | @done cs h => exact .done (List.forall_mem_append.2 ⟨hg, h⟩)
  | @token gap' input rest t ts h first others =>
    rw [← List.append_assoc]
    exact .token (List.forall_mem_append.2 ⟨hg, h⟩) first others

theorem Splits.first (first : Token.Starts cs t rest) (others : Splits rest ts) : Splits cs (t :: ts) := by
  have no_gap : ∀ c ∈ ([] : List Char), isSeparator c := nofun
  exact List.nil_append cs ▸ .token no_gap first others

theorem splits_layout (h : ∀ t ∈ ts, t.WellFormed) : Splits (layout ts) ts := by
  induction ts with
  | nil => exact .done nofun
  | cons t ts ih =>
    obtain ⟨ht, hts⟩ := List.forall_mem_cons.1 h
    have line_end : ∀ c ∈ ['\r', '\n'], isSeparator c := List.all_eq_true.1 rfl
    have others : Splits ('\r' :: '\n' :: layout ts) ts := (ih hts).gap line_end
    have lines : layout (t :: ts) = t.text.toList ++ '\r' :: '\n' :: layout ts := by
      simp [layout, List.append_assoc]
    rw [lines]
    exact .first (ht.starts_line (layout ts)) others

theorem Splits.wellFormed (h : Splits cs ts) : ∀ t ∈ ts, t.WellFormed := by
  induction h with
  | done h => exact nofun
  | token h first others ih => exact List.forall_mem_cons.2 ⟨first.wellFormed, ih⟩

theorem exists_splits_iff : (∃ source : String, Splits source.toList ts) ↔ ∀ t ∈ ts, t.WellFormed := by
  constructor
  · rintro ⟨source, h⟩
    exact h.wellFormed
  · intro h
    refine ⟨String.ofList (layout ts), ?_⟩
    rw [String.toList_ofList]
    exact splits_layout h

end Schemata
