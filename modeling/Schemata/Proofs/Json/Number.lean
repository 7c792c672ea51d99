import Mathlib.Algebra.Ring.Int.Defs
import Schemata.Json.Number
import Schemata.Proofs.Number.Numerals

namespace Schemata

open Json (isBlank)

namespace Numeral

variable {n : Numeral} {text : String} {j : Json} {rest : List Char}

def Spells (n : Numeral) (text : String) : Prop :=
  n.WellFormed ∧ ∃ before after, (∀ c ∈ before, isBlank c) ∧ (∀ c ∈ after, isBlank c) ∧
    text.toList = before ++ n.text ++ after

def IsWhole64 (n : Numeral) : Prop :=
  n.isIntegral ∧ ¬(n.negative ∧ n.wholeValue = 0) ∧ -2 ^ 63 ≤ n.wholeValue ∧ n.wholeValue < 2 ^ 64

def InRange (n : Numeral) : Prop := n.IsWhole64 ∨ (Json.magnitude? n).isSome

theorem goesOn_of_isBlank {c : Char} (h : isBlank c) : goesOn c = false := by
  simp only [isBlank, Bool.or_eq_true, beq_iff_eq] at h
  rcases h with ((rfl | rfl) | rfl) | rfl <;> decide

theorem isBlank_of_isDigit {c : Char} (h : c.isDigit) : isBlank c = false := by
  by_contra hb
  have blank : isBlank c := by simpa using hb
  have goes := goesOn_of_isDigit c h
  rw [goesOn_of_isBlank blank] at goes
  cases goes

theorem stops_blank (hn : n.WellFormed) (rest : List Char) : Stops isBlank (n.text ++ rest) := by
  rw [text]
  cases n.negative with
  | true => exact .cons rfl _
  | false =>
    obtain ⟨c, cs, hc⟩ := List.exists_cons_of_ne_nil hn.nonempty
    have digit : c.isDigit := hn.whole c (hc ▸ List.mem_cons_self)
    rw [hc]
    exact .cons (isBlank_of_isDigit digit) _

theorem spells_iff : n.Spells text ↔
    ∃ rest, split? (text.toList.dropWhile isBlank) = some (n, rest) ∧ ∀ c ∈ rest, isBlank c := by
  constructor
  · rintro ⟨hn, before, after, hb, ha, ht⟩
    have stops : Stops goesOn after := by
      intro c hc
      exact goesOn_of_isBlank (ha c (List.mem_of_mem_head? hc))
    rw [ht, List.append_assoc, (stops_blank hn after).dropWhile hb]
    exact ⟨after, split?_complete hn stops, ha⟩
  · rintro ⟨rest, hs, hr⟩
    refine ⟨split?_wellFormed hs, text.toList.takeWhile isBlank, rest, fun c hc => ?_, hr, ?_⟩
    · exact List.all_eq_true.1 List.all_takeWhile c hc
    · rw [List.append_assoc, (split?_append hs).1, List.takeWhile_append_dropWhile]

end Numeral

open Numeral

variable {n : Numeral} {text : String} {j : Json}

theorem isWhole64_iff : n.IsWhole64 ↔ n.isIntegral ∧ Int64.minValue.toInt ≤ n.wholeValue ∧
    n.wholeValue < Json.significandLimit ∧ ¬(n.negative ∧ n.wholeValue = 0) := by
  have limit : (Json.significandLimit : Int) = 2 ^ 64 := rfl
  rw [IsWhole64, Int64.toInt_minValue, limit]
  tauto

theorem ofNumeral?_whole (h : n.IsWhole64) : Json.ofNumeral? n = some (.int n.wholeValue) := by
  rw [Json.ofNumeral?, if_pos (isWhole64_iff.1 h)]

theorem ofNumeral?_scaled (h : ¬n.IsWhole64) : Json.ofNumeral? n =
    (Json.magnitude? n).map fun x => .float (if n.negative then x.neg else x) := by
  rw [Json.ofNumeral?, if_neg (mt isWhole64_iff.2 h)]

theorem exists_ofNumeral?_iff : (∃ j, Json.ofNumeral? n = some j) ↔ n.InRange := by
  rw [InRange, ← Option.isSome_iff_exists]
  by_cases h : n.IsWhole64
  · simp [ofNumeral?_whole h, h]
  · simp [ofNumeral?_scaled h, h]

theorem readNumber?_of_spells (h : n.Spells text) : Json.readNumber? text = Json.ofNumeral? n := by
  obtain ⟨rest, hs, hr⟩ := spells_iff.1 h
  rw [Json.readNumber?, hs]
  exact if_pos (List.all_eq_true.2 hr)

theorem spells_of_readNumber? (h : Json.readNumber? text = some j) : ∃ n : Numeral, n.Spells text := by
  rw [Json.readNumber?] at h
  split at h
  · next n rest hs =>
    rw [Option.ite_none_right_eq_some, List.all_eq_true] at h
    exact ⟨n, spells_iff.2 ⟨rest, hs, h.1⟩⟩
  · cases h

theorem readNumber?_eq_some_iff :
    Json.readNumber? text = some j ↔ ∃ n : Numeral, n.Spells text ∧ Json.ofNumeral? n = some j := by
  constructor
  · intro h
    obtain ⟨n, hn⟩ := spells_of_readNumber? h
    exact ⟨n, hn, (readNumber?_of_spells hn).symm.trans h⟩
  · rintro ⟨n, hn, hj⟩
    exact (readNumber?_of_spells hn).trans hj

/-- A text is read as a number if it is one, and in range. -/
theorem exists_readNumber?_iff : (∃ j, Json.readNumber? text = some j) ↔ ∃ n : Numeral, n.Spells text ∧ n.InRange := by
  simp only [readNumber?_eq_some_iff, ← exists_ofNumeral?_iff, ← exists_and_left]
  exact exists_comm

end Schemata
