import Schemata.Proofs.Number.Numerals
import Schemata.Proofs.Text.Pieces
import Schemata.Proofs.Token.Bytes

namespace Schemata

open Text

def endedBy (lines : List (List Char)) : List Char := lines.flatMap (· ++ ['\n'])

variable {lines : List (List Char)} {last middle : List Char}

theorem exists_lines (cs : List Char) : ∃ lines last, (∀ line ∈ lines, '\n' ∉ line) ∧ '\n' ∉ last ∧
    endedBy lines ++ last = cs := by
  induction cs with
  | nil => exact ⟨[], [], nofun, nofun, rfl⟩
  | cons c cs ih =>
    obtain ⟨lines, last, ended, begun, rfl⟩ := ih
    by_cases hc : c = '\n'
    · subst hc
      exact ⟨[] :: lines, last, List.forall_mem_cons.2 ⟨nofun, ended⟩, begun, rfl⟩
    · cases lines with
      | nil => exact ⟨[], c :: last, nofun, List.not_mem_cons_of_ne_of_not_mem (Ne.symm hc) begun, rfl⟩
      | cons line lines =>
        obtain ⟨first, others⟩ := List.forall_mem_cons.1 ended
        have longer : '\n' ∉ c :: line := List.not_mem_cons_of_ne_of_not_mem (Ne.symm hc) first
        exact ⟨(c :: line) :: lines, last, List.forall_mem_cons.2 ⟨longer, others⟩, begun, rfl⟩

theorem endedBy_cons_append (line : List Char) (lines : List (List Char)) (rest : List Char) :
    endedBy (line :: lines) ++ rest = line ++ '\n' :: (endedBy lines ++ rest) := by
  simp [endedBy]

namespace Text

theorem pieces_head? (separator : Char) (cs : List Char) :
    (pieces separator cs).head? = some (cs.takeWhile (· != separator)) := by
  induction cs with
  | nil => rfl
  | cons c cs ih =>
    by_cases hc : c = separator
    · subst hc
      simp [pieces_separator]
    · obtain ⟨piece, others, hp, hs⟩ := pieces_cons_of_ne hc cs
      rw [hp] at ih
      obtain rfl := Option.some.inj ih
      simp [hs, hc]

theorem takeWhile_unbroken (h : '\n' ∉ last) (rest : List Char) :
    (last ++ rest).takeWhile (· != '\n') = last ++ rest.takeWhile (· != '\n') := by
  apply List.takeWhile_append_of_pos
  intro c hc
  have : c ≠ '\n' := by rintro rfl; exact h hc
  simpa using this

theorem pieces_unbroken (h : '\n' ∉ last) : pieces '\n' last = [last] := by
  induction last with
  | nil => rfl
  | cons c last ih =>
    have other : c ≠ '\n' := Ne.symm (List.ne_of_not_mem_cons h)
    rw [pieces, if_neg other, ih (List.not_mem_of_not_mem_cons h)]

theorem pieces_endedBy (h : ∀ line ∈ lines, '\n' ∉ line) (rest : List Char) :
    pieces '\n' (endedBy lines ++ rest) = lines ++ pieces '\n' rest := by
  induction lines with
  | nil => rfl
  | cons line lines ih =>
    obtain ⟨first, others⟩ := List.forall_mem_cons.1 h
    rw [endedBy_cons_append, pieces_append, pieces_unbroken first, ih others, List.cons_append, List.nil_append,
      List.cons_append]

theorem byteLength_of_splitAtByte? {n : Nat} {cs before rest : List Char}
    (h : splitAtByte? n cs = some (before, rest)) (hn : n ≤ byteLength cs) : byteLength before = n := by
  fun_induction splitAtByte? n cs generalizing before rest with
  | case1 n =>
    obtain ⟨rfl, -⟩ := Prod.mk.inj (Option.some.inj h)
    exact (Nat.le_zero.1 hn).symm
  | case2 =>
    obtain ⟨rfl, -⟩ := Prod.mk.inj (Option.some.inj h)
    rfl
  | case3 n c cs hc ih =>
    obtain ⟨⟨front, back⟩, cut, he⟩ := Option.map_eq_some_iff.1 h
    obtain ⟨rfl, rfl⟩ := Prod.mk.inj he
    rw [byteLength] at hn ⊢
    have cut_there := ih cut (by omega)
    dsimp only
    omega
  | case4 => cases h

theorem prefix_of_byteLength_lt {a b c d : List Char} (h : a ++ b = c ++ d) (hl : byteLength a < byteLength c) :
    ∃ middle, middle ≠ [] ∧ a ++ middle = c := by
  rcases List.append_eq_append_iff.1 h with ⟨middle, rfl, -⟩ | ⟨middle, rfl, -⟩
  · refine ⟨middle, ?_, rfl⟩
    rintro rfl
    rw [List.append_nil] at hl
    exact Nat.lt_irrefl _ hl
  · rw [byteLength_append] at hl
    omega

theorem byteLength_newline (before more : List Char) :
    byteLength (before ++ '\n' :: more) = byteLength before + 1 + byteLength more := by
  have size : byteLength ('\n' :: more) = 1 + byteLength more := rfl
  rw [byteLength_append, size, Nat.add_assoc]

end Text

namespace Position

theorem after_newline (before more : List Char) :
    after (before ++ '\n' :: more) = ⟨before.count '\n' + 1 + (after more).line, (after more).col,
      byteLength before + 1 + (after more).offset⟩ := by
  have stop : Stops (· != '\n') ('\n' :: before.reverse) := .cons rfl before.reverse
  simp only [after, mk.injEq]
  refine ⟨?_, ?_, byteLength_newline before more⟩
  · rw [List.count_append, List.count_cons_self]
    omega
  · rw [List.reverse_append, List.reverse_cons, List.append_assoc, List.singleton_append, stop.takeWhile_append]

theorem after_append (h : '\n' ∉ middle) (before : List Char) :
    (after (before ++ middle)).line = (after before).line ∧
      (after (before ++ middle)).col = (after before).col + middle.length := by
  constructor
  · simp [after, List.count_eq_zero.2 h]
  · have reversed : '\n' ∉ middle.reverse := fun hm => h (List.mem_reverse.1 hm)
    simp only [after]
    rw [List.reverse_append, takeWhile_unbroken reversed, List.length_append, List.length_reverse, Nat.add_comm]

theorem after_endedBy (h : ∀ line ∈ lines, '\n' ∉ line) (hl : '\n' ∉ last) :
    after (endedBy lines ++ last) = ⟨lines.length, last.length, byteLength (endedBy lines ++ last)⟩ := by
  induction lines with
  | nil =>
    obtain ⟨line, col⟩ := after_append hl []
    have start : after [] = ⟨0, 0, 0⟩ := rfl
    simp only [start, List.nil_append, Nat.zero_add] at line col
    change Position.mk (after last).line (after last).col (byteLength last) = _
    rw [line, col]
    rfl
  | cons line lines ih =>
    obtain ⟨first, others⟩ := List.forall_mem_cons.1 h
    rw [endedBy_cons_append, after_newline, ih others, List.count_eq_zero.2 first, byteLength_newline, Nat.zero_add,
      Nat.add_comm 1, List.length_cons]

theorem after_lt (h : middle ≠ []) (before : List Char) :
    Prod.Lex (· < ·) (· < ·) ((after before).line, (after before).col)
      ((after (before ++ middle)).line, (after (before ++ middle)).col) := by
  by_cases hn : '\n' ∈ middle
  · apply Prod.Lex.left
    have more : 0 < middle.count '\n' := List.count_pos_iff.2 hn
    simp only [after, List.count_append]
    omega
  · obtain ⟨line, col⟩ := after_append hn before
    rw [line, col]
    exact .right _ (Nat.lt_add_of_pos_right (List.length_pos_iff.2 h))

theorem ofOffset?_byteLength (before rest : List Char) :
    ofOffset? (before ++ rest) (byteLength before) = some (after before) := by
  rw [ofOffset?, splitAtByte?_byteLength]
  rfl

theorem exists_of_ofOffset? {source : List Char} {n : Nat} {p : Position} (h : ofOffset? source n = some p)
    (hn : n ≤ byteLength source) :
    ∃ before rest, before ++ rest = source ∧ byteLength before = n ∧ p = .after before := by
  obtain ⟨⟨before, rest⟩, cut, rfl⟩ := Option.map_eq_some_iff.1 h
  exact ⟨before, rest, splitAtByte?_append cut, byteLength_of_splitAtByte? cut hn, rfl⟩

theorem ofOffset?_lt {source : List Char} {m n : Nat} {p q : Position} (hp : ofOffset? source m = some p)
    (hq : ofOffset? source n = some q) (h : m < n) (hn : n ≤ byteLength source) :
    Prod.Lex (· < ·) (· < ·) (p.line, p.col) (q.line, q.col) := by
  obtain ⟨before, rest, whole, rfl, rfl⟩ := exists_of_ofOffset? hp (Nat.le_trans (Nat.le_of_lt h) hn)
  obtain ⟨before', rest', whole', rfl, rfl⟩ := exists_of_ofOffset? hq hn
  obtain ⟨middle, nonempty, rfl⟩ := prefix_of_byteLength_lt (whole.trans whole'.symm) h
  exact after_lt nonempty before

theorem ofOffset?_inj {source : List Char} {m n : Nat} {p q : Position} (hp : ofOffset? source m = some p)
    (hq : ofOffset? source n = some q) (hm : m ≤ byteLength source) (hn : n ≤ byteLength source)
    (line : p.line = q.line) (col : p.col = q.col) : m = n := by
  rcases Nat.lt_trichotomy m n with h | h | h
  · have further := Prod.lex_def.1 (ofOffset?_lt hp hq h hn)
    dsimp only at further
    omega
  · exact h
  · have further := Prod.lex_def.1 (ofOffset?_lt hq hp h hm)
    dsimp only at further
    omega

structure InLine (source : List Char) (p : Position) (piece : List Char) : Prop where
  inside : p.line < (pieces '\n' source).length
  line : (pieces '\n' source)[p.line]? = some piece
  col : p.col ≤ piece.length
  offset : byteLength (endedBy ((pieces '\n' source).take p.line)) + byteLength (piece.take p.col) = p.offset

theorem after_inLine (before rest : List Char) : ∃ last, (after before).col = last.length ∧
    (after before).InLine (before ++ rest) (last ++ rest.takeWhile (· != '\n')) := by
  obtain ⟨lines, last, ended, begun, rfl⟩ := exists_lines before
  have split : pieces '\n' (endedBy lines ++ last ++ rest) = lines ++ pieces '\n' (last ++ rest) := by
    rw [List.append_assoc, pieces_endedBy ended]
  have line : (pieces '\n' (last ++ rest)).head? = some (last ++ rest.takeWhile (· != '\n')) := by
    rw [pieces_head?, takeWhile_unbroken begun]
  have nth : (pieces '\n' (endedBy lines ++ last ++ rest))[lines.length]? =
      some (last ++ rest.takeWhile (· != '\n')) := by
    rw [split, List.getElem?_append_right (Nat.le_refl _), Nat.sub_self, ← List.head?_eq_getElem?, line]
  rw [after_endedBy ended begun]
  refine ⟨last, rfl, ?_, nth, ?_, ?_⟩
  · exact (List.getElem?_eq_some_iff.1 nth).1
  · rw [List.length_append]
    exact Nat.le_add_right _ _
  · simp only [split, List.take_left, byteLength_append]

end Position

end Schemata
