import Schemata.Proofs.Token.Bytes
import Schemata.Proofs.Token.Places
import Schemata.Token.Cursor

namespace Schemata

open Text

variable {α : Type}

/-- The operations on a cursor. A value that is required has been looked for before. -/
inductive Operation (α : Type)
  | literal (text : String)
  | keyword (word : String)
  | pattern (p : Pattern)
  | expect (text : String)
  | required (value : Option α) (what : String)
  | error (kind : SyntaxErrorKind) (message : String)
  | peek
  | isAtEnd

inductive Answer (α : Type)
  | matched (text : String)
  | missing
  | given (value : α)
  | failed (e : SyntaxError)
  | next (c : Option Char)
  | ended (b : Bool)
deriving DecidableEq

def slice? (source : List Char) (start stop : Nat) : Option (List Char) := do
  let (front, _) ← splitAtByte? stop source
  let (_, text) ← splitAtByte? start front
  return text

theorem slice?_append (before text rest : List Char) :
    slice? (before ++ text ++ rest) (byteLength before) (byteLength (before ++ text)) = some text := by
  simp only [slice?, splitAtByte?_byteLength, Option.bind_eq_bind, Option.bind_some]
  rfl

namespace Cursor

def afterMatch (c : Cursor) : Option (String × Cursor) → Answer α × Cursor
  | some (text, c') => (.matched text, c')
  | none => (.missing, c)

def perform (c : Cursor) : Operation α → Answer α × Cursor
  | .literal text => c.afterMatch (c.literal? text)
  | .keyword word => c.afterMatch (c.keyword? word)
  | .pattern p => c.afterMatch (c.pattern? p)
  | .expect text =>
    match c.expect text with
    | .ok (text, c') => (.matched text, c')
    | .error e => (.failed e, c)
  | .required value what =>
    match c.required value what with
    | .ok a => (.given a, c)
    | .error e => (.failed e, c)
  | .error kind message => (.failed (c.error kind message), c)
  | .peek => (.next c.peek?, c)
  | .isAtEnd => (.ended c.isAtEnd, c)

def performAll (c : Cursor) : List (Operation α) → List (Answer α) × Cursor
  | [] => ([], c)
  | op :: ops =>
    let (answer, c) := c.perform op
    let (answers, c) := c.performAll ops
    (answer :: answers, c)

variable {c c' : Cursor} {text rest : List Char}

theorem advance_append (h : text ++ rest = c.rest) : c.advance text.length = ⟨c.consumed ++ text, rest⟩ := by
  rw [advance, ← h, List.take_left, List.drop_left]

theorem significant_eq_behind (c : Cursor) :
    c.significant = ⟨c.consumed ++ c.rest.takeWhile isSeparator, skipSeparators c.rest⟩ :=
  advance_append List.takeWhile_append_dropWhile

theorem significant_rest (c : Cursor) : c.significant.rest = skipSeparators c.rest := by
  rw [significant_eq_behind]

theorem significant_source (c : Cursor) : c.significant.source = c.source := by
  have whole : c.rest.takeWhile isSeparator ++ skipSeparators c.rest = c.rest := List.takeWhile_append_dropWhile
  rw [significant_eq_behind, source, List.append_assoc, whole, source]

theorem significant_eq (h : skipSeparators c.rest = c.rest) : c.significant = c := by
  have whole : c.rest.takeWhile isSeparator ++ skipSeparators c.rest = c.rest := List.takeWhile_append_dropWhile
  have none_skipped : c.rest.takeWhile isSeparator = [] := by
    rw [h] at whole
    exact List.append_left_eq_self.1 whole
  rw [significant_eq_behind, none_skipped, h, List.append_nil]

theorem significant_idem (c : Cursor) : c.significant.significant = c.significant := by
  apply significant_eq
  rw [significant_rest, skipSeparators_idem]

theorem peek?_eq (h : skipSeparators c.rest = c.rest) : c.peek? = c.rest.head? := by
  rw [peek?, significant_eq h]

theorem offset_le (c : Cursor) : c.offset ≤ byteLength c.source := by
  rw [offset, source, byteLength_append]
  exact Nat.le_add_right _ _

theorem offset_eq_iff (c : Cursor) : c.offset = byteLength c.source ↔ c.rest = [] := by
  rw [offset, source, byteLength_append_eq_iff]

theorem isAtEnd_iff (c : Cursor) : c.isAtEnd ↔ c.peek? = none := by
  rw [isAtEnd, peek?, List.isEmpty_iff, List.head?_eq_none_iff]

theorem peek?_eq_none_iff (c : Cursor) : c.peek? = none ↔ c.significant.offset = byteLength c.source := by
  rw [peek?, List.head?_eq_none_iff, ← significant_source, offset_eq_iff]

/-- A match brings `c` to `c'`: between the next significant character and the new place stands `text`, and before it
separators alone. -/
structure Takes (c : Cursor) (text : List Char) (c' : Cursor) : Prop where
  source : c'.source = c.source
  skipped : ∃ gap, slice? c.source c.offset c.significant.offset = some gap ∧ ∀ x ∈ gap, isSeparator x
  taken : slice? c.source c.significant.offset c'.offset = some text
  forward : c.offset ≤ c.significant.offset ∧ c.significant.offset ≤ c'.offset

theorem take_eq (h : text ++ rest = c.significant.rest) :
    c.take text = (String.ofList text, ⟨c.significant.consumed ++ text, rest⟩) := by
  rw [take, advance_append h]

theorem take_takes (h : text <+: c.significant.rest) : c.Takes text (c.take text).2 := by
  obtain ⟨rest, hr⟩ := h
  have gap_before : c.significant.consumed = c.consumed ++ c.rest.takeWhile isSeparator := by
    rw [significant_eq_behind]
  have whole : c.significant.consumed ++ text ++ rest = c.source := by
    rw [List.append_assoc, hr, ← significant_source, source]
  rw [take_eq hr]
  refine ⟨whole, ⟨c.rest.takeWhile isSeparator, ?_, fun x hx => List.mem_takeWhile_imp hx⟩, ?_, ?_, ?_⟩
  · rw [← significant_source, source, offset, offset, gap_before]
    exact slice?_append _ _ _
  · rw [← whole]
    exact slice?_append _ _ _
  · rw [offset, offset, gap_before, byteLength_append]
    exact Nat.le_add_right _ _
  · rw [offset, offset, byteLength_append]
    exact Nat.le_add_right _ _

structure Search where
  find? : List Char → Option (List Char)
  found : ∀ input, ∀ text ∈ find? input, text <+: input

namespace Search

def literal (text : String) : Search where
  find? input := if text.toList <+: input then some text.toList else none
  found input found h := by
    obtain ⟨inside, he⟩ := Option.ite_none_right_eq_some.1 h
    exact Option.some.inj he ▸ inside

def keyword (word : String) : Search where
  find? input :=
    if word.toList <+: input ∧ ¬((input.drop word.toList.length).head?.any isNameContinue) then some word.toList
    else none
  found input text h := by
    obtain ⟨⟨inside, -⟩, he⟩ := Option.ite_none_right_eq_some.1 h
    exact Option.some.inj he ▸ inside

def pattern (p : Pattern) : Search where
  find? input := (p.split? input).map Prod.fst
  found input text h := by
    obtain ⟨⟨text, rest⟩, hq, rfl⟩ := Option.map_eq_some_iff.1 h
    exact ⟨rest, (Pattern.split?_append hq).1⟩

end Search

def search? (c : Cursor) (search : Search) : Option (String × Cursor) := (search.find? c.significant.rest).map c.take

theorem literal?_eq (c : Cursor) (text : String) : c.literal? text = c.search? (.literal text) := by
  simp only [literal?, search?, Search.literal, Option.map_if]

theorem keyword?_eq (c : Cursor) (word : String) : c.keyword? word = c.search? (.keyword word) := by
  simp only [keyword?, search?, Search.keyword, Option.map_if]

theorem pattern?_eq (c : Cursor) (p : Pattern) : c.pattern? p = c.search? (.pattern p) := by
  rw [pattern?, search?, Search.pattern, Option.map_map]
  rfl

theorem search?_takes {search : Search} {text : String} (h : c.search? search = some (text, c')) :
    c.Takes text.toList c' := by
  obtain ⟨found, hf, ht⟩ := Option.map_eq_some_iff.1 h
  have taken := take_takes (search.found _ _ hf)
  rw [ht] at taken
  have same : found = text.toList := by
    rw [← (Prod.mk.inj ht).1, String.toList_ofList]
  rwa [same] at taken

inductive Moves (c : Cursor) : Answer α × Cursor → Prop
  | matched {text : String} {c' : Cursor} (h : c.Takes text.toList c') : Moves c (.matched text, c')
  | stays {answer : Answer α} (h : ∀ text, answer ≠ .matched text) : Moves c (answer, c)

theorem afterMatch_moves (search : Search) : c.Moves (α := α) (c.afterMatch (c.search? search)) := by
  cases h : c.search? search with
  | none => exact .stays nofun
  | some r => exact .matched (search?_takes h)

theorem perform_moves (c : Cursor) (op : Operation α) : c.Moves (c.perform op) := by
  cases op with
  | literal text =>
    rw [perform, literal?_eq]
    exact afterMatch_moves _
  | keyword word =>
    rw [perform, keyword?_eq]
    exact afterMatch_moves _
  | pattern p =>
    rw [perform, pattern?_eq]
    exact afterMatch_moves _
  | expect text =>
    rw [perform, expect, literal?_eq]
    cases h : c.search? (.literal text) with
    | none => exact .stays nofun
    | some r => exact .matched (search?_takes h)
  | required value what =>
    rw [perform]
    cases value with
    | none => exact .stays nofun
    | some a => exact .stays nofun
  | error kind message => exact .stays nofun
  | peek => exact .stays nofun
  | isAtEnd => exact .stays nofun

theorem Moves.offset_le {y : Answer α × Cursor} (h : c.Moves y) : c.offset ≤ y.2.offset := by
  cases h with
  | matched h => exact h.forward.1.trans h.forward.2
  | stays h => exact Nat.le_refl _

theorem performAll_offset_le (c : Cursor) (ops : List (Operation α)) : c.offset ≤ (c.performAll ops).2.offset := by
  induction ops generalizing c with
  | nil => exact Nat.le_refl _
  | cons op ops ih => exact (c.perform_moves op).offset_le.trans (ih _)

end Cursor

end Schemata
