import Schemata.Text.Position

namespace Schemata.Text

theorem pieces_ne_nil (separator : Char) (cs : List Char) : pieces separator cs ≠ [] := by
  fun_cases pieces separator cs <;> simp

theorem not_mem_pieces {c : Char} (cs : List Char) : ∀ piece ∈ pieces c cs, c ∉ piece := by
  fun_induction pieces c cs with
  | case1 => simp
  | case2 cs ih => simpa using ih
  | case3 d cs hd hp ih => simpa using Ne.symm hd
  | case4 d cs hd p ps hp ih =>
    rw [hp, List.forall_mem_cons] at ih
    rw [List.forall_mem_cons, List.mem_cons, not_or]
    exact ⟨⟨Ne.symm hd, ih.1⟩, ih.2⟩

theorem pieces_cons_of_ne {separator c : Char} (h : c ≠ separator) (cs : List Char) :
    ∃ piece others, pieces separator cs = piece :: others ∧ pieces separator (c :: cs) = (c :: piece) :: others := by
  obtain ⟨piece, others, hp⟩ := List.exists_cons_of_ne_nil (pieces_ne_nil separator cs)
  exact ⟨piece, others, hp, by rw [pieces, if_neg h, hp]⟩

theorem pieces_separator (separator : Char) (cs : List Char) :
    pieces separator (separator :: cs) = [] :: pieces separator cs := if_pos rfl

theorem pieces_append (separator : Char) (a b : List Char) :
    pieces separator (a ++ separator :: b) = pieces separator a ++ pieces separator b := by
  induction a with
  | nil => exact pieces_separator separator b
  | cons c a ih =>
    by_cases hc : c = separator
    · subst hc
      rw [List.cons_append, pieces_separator, pieces_separator, ih, List.cons_append]
    · obtain ⟨piece, others, hp, hs⟩ := pieces_cons_of_ne hc a
      rw [hp, List.cons_append] at ih
      rw [List.cons_append, pieces, if_neg hc, ih, hs, List.cons_append]

theorem pieces_intercalate (separator : Char) (text : List Char) (texts : List (List Char)) :
    pieces separator ([separator].intercalate (text :: texts)) = (text :: texts).flatMap (pieces separator) := by
  induction texts generalizing text with
  | nil => simp
  | cons next texts ih =>
    rw [List.intercalate_cons_cons, List.append_assoc, List.singleton_append, pieces_append, ih, ← List.flatMap_cons]

theorem pieces_lines {lines : List String} (h : lines ≠ []) :
    pieces '\n' ("\n".intercalate lines).toList = lines.flatMap fun line => pieces '\n' line.toList := by
  obtain ⟨first, others, rfl⟩ := List.exists_cons_of_ne_nil h
  have newline : "\n".toList = ['\n'] := rfl
  rw [String.toList_intercalate, newline, List.map_cons, pieces_intercalate, ← List.map_cons, List.flatMap_map]

end Schemata.Text
