import Mathlib.Data.List.DropRight
import Schemata.Proofs.Text.Position
import Schemata.Text.Excerpt

namespace Schemata

open Text

structure ExcerptRows (source : List Char) (p : Position) (shown caret : List Char) : Prop where
  rows : ∃ before after, pieces '\n' (excerpt source p).toList =
    [[], [], before, "    ".toList ++ shown, caret, after, []]
  caret : caret = List.replicate (4 + p.col) ' ' ++ ['^']

namespace Text

theorem trimReturns_append (a b : List Char) :
    trimReturns (a ++ b) = if b.all (· == '\r') then trimReturns a else a ++ trimReturns b := by
  have nothing : (b.reverse.dropWhile (· == '\r')).isEmpty ↔ b.all (· == '\r') := by simp
  rw [trimReturns, List.reverse_append, List.dropWhile_append]
  split
  · next h => rw [if_pos (nothing.1 h), trimReturns]
  · next h =>
    rw [if_neg (mt nothing.2 h), List.reverse_append, List.reverse_reverse, trimReturns]

theorem exists_trimReturns (line : List Char) :
    ∃ returns, line = trimReturns line ++ returns ∧ (∀ c ∈ returns, c = '\r') := by
  refine ⟨line.rtakeWhile (· == '\r'), (List.rdropWhile_append_rtakeWhile).symm, ?_⟩
  intro c hc
  simpa using List.mem_rtakeWhile_imp hc

theorem trimReturns_getLast? (line : List Char) : (trimReturns line).getLast? ≠ some '\r' := by
  intro h
  have nonempty : trimReturns line ≠ [] := List.ne_nil_of_mem (List.mem_of_getLast? h)
  have last := List.rdropWhile_last_not (· == '\r') line nonempty
  rw [List.getLast?_eq_some_getLast nonempty] at h
  exact last (beq_iff_eq.2 (Option.some.inj h))

theorem trimReturns_length_le (line : List Char) : (trimReturns line).length ≤ line.length :=
  (List.rdropWhile_prefix _ line).length_le

theorem newline_not_mem_lineText (source : List Char) (n : Nat) : '\n' ∉ (lineText source n).toList := by
  rw [lineText, String.toList_ofList]
  intro h
  have whole : '\n' ∈ (pieces '\n' source)[n]?.getD [] := (List.rdropWhile_prefix _ _).subset h
  cases hp : (pieces '\n' source)[n]? with
  | none =>
    rw [hp] at whole
    cases whole
  | some piece =>
    rw [hp] at whole
    exact not_mem_pieces source piece (List.mem_of_getElem? hp) whole

end Text

theorem excerpt_rows (source : List Char) (p : Position) :
    ExcerptRows source p (lineText source p.line).toList (List.replicate (4 + p.col) ' ' ++ ['^']) := by
  refine ⟨⟨"    ".toList ++ (if p.line = 0 then [] else (lineText source (p.line - 1)).toList),
    "    ".toList ++ (lineText source (p.line + 1)).toList, ?_⟩, rfl⟩
  have text : (excerpt source p).toList = endedBy [[], [],
      "    ".toList ++ (if p.line = 0 then [] else (lineText source (p.line - 1)).toList),
      "    ".toList ++ (lineText source p.line).toList, List.replicate (4 + p.col) ' ' ++ ['^'],
      "    ".toList ++ (lineText source (p.line + 1)).toList] ++ [] := by
    simp only [excerpt]
    split <;> simp [endedBy, spaces, String.toList_append]
  rw [text, pieces_endedBy]
  · rfl
  · have indented {line : List Char} (h : '\n' ∉ line) : '\n' ∉ "    ".toList ++ line := by simp [h]
    have unbroken := newline_not_mem_lineText source
    simp only [List.forall_mem_cons]
    refine ⟨nofun, nofun, indented ?_, indented (unbroken _), ?_, indented (unbroken _), nofun⟩
    · split
      · exact nofun
      · exact unbroken _
    · simp

theorem head?_trimReturns {line : List Char} (h : trimReturns line ≠ []) : (trimReturns line).head? = line.head? := by
  obtain ⟨returns, hr, -⟩ := exists_trimReturns line
  conv_rhs => rw [hr, List.head?_append_of_ne_nil _ h]

def overCaret (rest : List Char) : Option Char :=
  if (rest.takeWhile (· != '\n')).all (· == '\r') then none else rest.head?

theorem trimReturns_getElem? (last rest : List Char) :
    (trimReturns (last ++ rest.takeWhile (· != '\n')))[last.length]? = overCaret rest := by
  rw [trimReturns_append, overCaret]
  split
  · exact List.getElem?_eq_none (trimReturns_length_le last)
  · next h =>
    have whole : rest.takeWhile (· != '\n') ++ rest.dropWhile (· != '\n') = rest := List.takeWhile_append_dropWhile
    have shown : trimReturns (rest.takeWhile (· != '\n')) ≠ [] := by
      intro hn
      exact h (List.all_eq_true.2 (List.rdropWhile_eq_nil_iff.1 hn))
    have nonempty : rest.takeWhile (· != '\n') ≠ [] := by
      intro hn
      rw [hn] at shown
      exact shown rfl
    rw [List.getElem?_append_right (Nat.le_refl _), Nat.sub_self, ← List.head?_eq_getElem?, head?_trimReturns shown]
    conv_rhs => rw [← whole, List.head?_append_of_ne_nil _ nonempty]

theorem idxOf_caret (n : Nat) : (List.replicate n ' ' ++ ['^']).idxOf '^' = n := by
  rw [List.idxOf_append_of_notMem (by simp)]
  simp

/-- The place between two characters lies in a line of the text, at the column that its bytes make; the excerpt shows
that line, up to the carriage returns at its end, and the next character over its caret. Line and column tell places
apart, in their order. -/
theorem excerpt_position (source : List Char) :
    (∀ before rest, before ++ rest = source → ∃ p piece shown caret returns,
      Position.ofOffset? source (byteLength before) = some p ∧ p.offset = byteLength before ∧
      p.InLine source piece ∧ ExcerptRows source p shown caret ∧
      piece = shown ++ returns ∧ (∀ c ∈ returns, c = '\r') ∧ shown.getLast? ≠ some '\r' ∧
      ("    ".toList ++ shown)[caret.idxOf '^']? = overCaret rest) ∧
    ∀ (m n : Nat) (p q : Position), Position.ofOffset? source m = some p → Position.ofOffset? source n = some q →
      m ≤ byteLength source → n ≤ byteLength source →
      (m < n → Prod.Lex (· < ·) (· < ·) (p.line, p.col) (q.line, q.col)) ∧
      (p.line = q.line → p.col = q.col → m = n) := by
  constructor
  · rintro before rest rfl
    obtain ⟨last, col, place⟩ := Position.after_inLine before rest
    have shown : (lineText (before ++ rest) (Position.after before).line).toList =
        trimReturns (last ++ rest.takeWhile (· != '\n')) := by
      rw [lineText, String.toList_ofList, place.line, Option.getD_some]
    obtain ⟨returns, line, only⟩ := exists_trimReturns (last ++ rest.takeWhile (· != '\n'))
    have rows := excerpt_rows (before ++ rest) (Position.after before)
    rw [shown] at rows
    refine ⟨_, _, _, _, returns, Position.ofOffset?_byteLength before rest, rfl, place, rows, line, only,
      trimReturns_getLast? _, ?_⟩
    have indent : "    ".toList.length = 4 := rfl
    rw [idxOf_caret, List.getElem?_append_right (by omega), indent, Nat.add_sub_cancel_left, col, trimReturns_getElem?]
  · intro m n p q hp hq hm hn
    exact ⟨fun h => Position.ofOffset?_lt hp hq h hn, Position.ofOffset?_inj hp hq hm hn⟩

theorem excerpt_position_returns :
    let before := "é\r\na".toList
    let rest := "ö^\r\r\n".toList
    ∃ p piece shown caret, Position.ofOffset? (before ++ rest) (byteLength before) = some p ∧
      p.InLine (before ++ rest) piece ∧ ExcerptRows (before ++ rest) p shown caret ∧
      ("    ".toList ++ shown)[caret.idxOf '^']? = some 'ö' := by
  intro before rest
  obtain ⟨p, piece, shown, caret, -, place, -, line, rows, -, -, -, next⟩ :=
    (excerpt_position (before ++ rest)).1 before rest rfl
  have found : overCaret rest = some 'ö' := by decide
  exact ⟨p, piece, shown, caret, place, line, rows, next.trans found⟩

end Schemata
