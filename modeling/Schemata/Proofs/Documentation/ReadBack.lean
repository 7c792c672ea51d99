import Mathlib.Data.List.Forall2
import Schemata.Describe
import Schemata.Proofs.Documentation.Dedent
import Schemata.Proofs.Text.Position
import Schemata.Proofs.Token.Cursor

namespace Schemata

namespace Text

theorem mem_of_mem_pieces {separator : Char} {cs : List Char} :
    ∀ piece ∈ pieces separator cs, ∀ c ∈ piece, c ∈ cs := by
  fun_induction pieces separator cs with
  | case1 => simp
  | case2 cs ih =>
    rw [List.forall_mem_cons]
    exact ⟨List.forall_mem_nil _, fun piece hp c hc => List.mem_cons_of_mem _ (ih piece hp c hc)⟩
  | case3 d cs hd hp ih => simp
  | case4 d cs hd p ps hp ih =>
    rw [hp, List.forall_mem_cons] at ih
    rw [List.forall_mem_cons, List.forall_mem_cons]
    refine ⟨⟨List.mem_cons_self, fun c hc => List.mem_cons_of_mem _ (ih.1 c hc)⟩, fun piece hp c hc => ?_⟩
    exact List.mem_cons_of_mem _ (ih.2 piece hp c hc)

theorem pieces_getLast? {separator : Char} {cs : List Char} (h : (pieces separator cs).getLast? = some []) :
    cs = [] ∨ cs.getLast? = some separator := by
  induction cs with
  | nil => exact .inl rfl
  | cons c cs ih =>
    right
    by_cases hc : c = separator
    · subst hc
      rw [pieces_separator, List.getLast?_cons_of_ne_nil (pieces_ne_nil _ _)] at h
      rcases ih h with rfl | last
      · rfl
      · rw [List.getLast?_cons_of_ne_nil (by rintro rfl; cases last), last]
    · obtain ⟨piece, others, hp, hs⟩ := pieces_cons_of_ne hc cs
      rw [hs] at h
      cases others with
      | nil => cases h
      | cons next others =>
        rw [List.getLast?_cons_of_ne_nil (List.cons_ne_nil _ _), ← List.getLast?_cons_of_ne_nil (List.cons_ne_nil _ _),
          ← hp] at h
        rcases ih h with rfl | last
        · cases hp
        · rw [List.getLast?_cons_of_ne_nil (by rintro rfl; cases last), last]

theorem dropReturn_eq {line : List Char} (h : '\r' ∉ line) : dropReturn line = line := by
  apply if_neg
  intro last
  exact h (List.mem_of_getLast? last)

theorem endedLines_eq {ls : List (List Char)} (hr : ∀ l ∈ ls, '\r' ∉ l) (hl : ls.getLast? ≠ some []) :
    endedLines ls = ls := by
  induction ls with
  | nil => rfl
  | cons line rest ih =>
    obtain ⟨first, others⟩ := List.forall_mem_cons.1 hr
    cases rest with
    | nil =>
      have filled : ¬line.isEmpty := by
        intro nothing
        simp [List.isEmpty_iff.1 nothing] at hl
      exact if_neg filled
    | cons next rest =>
      rw [List.getLast?_cons_of_ne_nil (List.cons_ne_nil _ _)] at hl
      rw [endedLines, dropReturn_eq first, ih others hl]
      exact List.cons_ne_nil _ _

theorem lines_eq_pieces {text : String} (hr : '\r' ∉ text.toList) (hl : text.toList.getLast? ≠ some '\n')
    (hn : text ≠ "") : lines text = (pieces '\n' text.toList).map String.ofList := by
  rw [lines, endedLines_eq]
  · exact fun piece hp hc => hr (mem_of_mem_pieces piece hp _ hc)
  · intro last
    rcases pieces_getLast? last with nothing | newline
    · exact hn (String.toList_eq_nil_iff.1 nothing)
    · exact hl newline

theorem pieces_joined {ls : List String} (h : ∀ l ∈ ls, '\n' ∉ l.toList) (hn : ls ≠ []) :
    pieces '\n' ("\n".intercalate ls).toList = ls.map String.toList := by
  rw [pieces_lines hn]
  clear hn
  induction ls with
  | nil => rfl
  | cons l ls ih =>
    obtain ⟨first, others⟩ := List.forall_mem_cons.1 h
    rw [List.flatMap_cons, pieces_unbroken first, ih others, List.map_cons, List.singleton_append]

end Text

open Text

namespace DocLines

structure Flush (lines : List String) : Prop where
  unindented : ∃ line ∈ lines, Indented 0 line
  blank : ∀ line ∈ lines, Blank line → line = ""

theorem Flush.ne_nil {lines : List String} (h : Flush lines) : lines ≠ [] := by
  obtain ⟨line, own, -⟩ := h.unindented
  exact List.ne_nil_of_mem own

theorem Flush.description? {lines : List String} (h : Flush lines) :
    (DocLines.mk lines).description? = some ("\n".intercalate lines) := by
  have shared : Shares 0 (DocLines.mk lines).lines := ⟨h.unindented, fun n _ => Nat.zero_le n⟩
  have kept : lines.map (dedentLine 0) = lines := by
    rw [List.map_congr_left, List.map_id]
    intro line hl
    rw [dedentLine, id_eq]
    split
    · next hb => exact (h.blank line hl (isBlank_iff.1 hb)).symm
    · rw [List.drop_zero, String.ofList_toList]
  rw [DocLines.description?, sharedIndentation?_eq_some_iff.2 shared, Option.map_some, kept]

theorem flush_cut {lines : List String} {m : Nat} {cut : String → String} (hm : Shares m lines)
    (hc : ∀ line ∈ lines, Dedented m line (cut line)) : Flush (lines.map cut) where
  unindented := by
    obtain ⟨line, hl, least⟩ := hm.1
    refine ⟨cut line, List.mem_map_of_mem hl, ?_⟩
    rcases hc line hl with ⟨blank, -⟩ | ⟨k, own, kept, -⟩
    · exact absurd blank (indented_iff.1 least).1
    · have same := (indented_iff.1 own).2.symm.trans (indented_iff.1 least).2
      obtain rfl : k = 0 := by omega
      exact kept
  blank := by
    intro _ hl hb
    obtain ⟨line, own, rfl⟩ := List.mem_map.1 hl
    rcases hc line own with ⟨-, empty⟩ | ⟨k, -, kept, -⟩
    · exact empty
    · exact absurd hb (indented_iff.1 kept).1

theorem exists_flush {d : DocLines} {t : String} (hn : ∀ line ∈ d.lines, '\n' ∉ line.toList)
    (ht : d.description? = some t) : ∃ lines, Flush lines ∧ (∀ line ∈ lines, '\n' ∉ line.toList) ∧
      t = "\n".intercalate lines := by
  obtain ⟨m, cut, shared, dedented, rfl⟩ := description?_eq_some ht
  refine ⟨d.lines.map cut, flush_cut shared dedented, fun _ hl => ?_, rfl⟩
  obtain ⟨line, own, rfl⟩ := List.mem_map.1 hl
  rcases dedented line own with ⟨-, empty⟩ | ⟨k, -, -, kept⟩
  · simp [empty]
  · rw [kept]
    exact fun hc => hn line own (List.mem_of_mem_drop hc)

theorem Flush.lines_joined {lines : List String} (h : Flush lines) (hn : ∀ line ∈ lines, '\n' ∉ line.toList)
    (hr : '\r' ∉ ("\n".intercalate lines).toList) (hl : ("\n".intercalate lines).toList.getLast? ≠ some '\n') :
    Text.lines ("\n".intercalate lines) = lines := by
  obtain ⟨line, own, gap, c, rest, text, -⟩ := h.unindented
  have pieces := pieces_joined hn h.ne_nil
  have some_text : "\n".intercalate lines ≠ "" := by
    intro nothing
    rw [nothing] at pieces
    have only : line.toList ∈ lines.map String.toList := List.mem_map_of_mem own
    rw [← pieces, text] at only
    simp [Text.pieces] at only
  rw [lines_eq_pieces hr hl some_text, pieces, List.map_map]
  simp

theorem pushed_pushes (comments : List Comment) : pushed (comments.map .push) = comments := by
  have all : ∀ s ∈ comments.map Step.push, s.comment?.isSome := by
    rw [List.forall_mem_map]
    exact fun _ _ => rfl
  rw [pushed, List.rtakeWhile_eq_self_iff.2 all, List.filterMap_map]
  exact List.filterMap_some

theorem run_pushes (comments : List Comment) : run (comments.map .push) = ⟨comments.map Comment.content⟩ := by
  have lines := run_lines (comments.map .push)
  rw [pushed_pushes] at lines
  exact congrArg DocLines.mk lines

def ScansAs (indent line : String) (comment : Comment) : Prop :=
  line = indent ++ comment.text ∧
    (Cursor.ofSource line.toList).pattern? .comment = some (comment.text, ⟨line.toList, []⟩)

theorem commentText_eq {cs : List Char} (hn : '\n' ∉ cs) (hr : '\r' ∉ cs) : Pattern.commentText cs = cs := by
  have whole : cs.takeWhile (· != '\n') = cs := by
    have := takeWhile_unbroken hn []
    simpa using this
  rw [Pattern.commentText, whole]
  exact if_neg fun last => hr (List.mem_of_getLast? last)

theorem scansAs_comment {indent text : String} (hi : ∀ c ∈ indent.toList, isSeparator c) (hn : '\n' ∉ text.toList)
    (hr : '\r' ∉ text.toList) : ScansAs indent (indent ++ "# " ++ text) ⟨"# " ++ text⟩ := by
  refine ⟨String.append_assoc, ?_⟩
  have body : ("# " ++ text).toList = '#' :: ' ' :: text.toList := by simp
  have line : (indent ++ "# " ++ text).toList = indent.toList ++ '#' :: ' ' :: text.toList := by simp
  have stop : skipSeparators ('#' :: ' ' :: text.toList) = '#' :: ' ' :: text.toList := rfl
  have rest : (Cursor.ofSource (indent ++ "# " ++ text).toList).significant =
      ⟨indent.toList, '#' :: ' ' :: text.toList⟩ := by
    rw [Cursor.significant_eq_behind, Cursor.ofSource, line, skipSeparators_gap hi, stop]
    congr 1
    rw [List.takeWhile_append_of_pos hi, List.nil_append, List.takeWhile_cons_of_neg (by decide), List.append_nil]
  have own : Pattern.commentText (' ' :: text.toList) = ' ' :: text.toList :=
    commentText_eq (by simpa using hn) (by simpa using hr)
  have split : Pattern.comment.split? ('#' :: ' ' :: text.toList) = some ('#' :: ' ' :: text.toList, []) := by
    simp [Pattern.split?, Pattern.splitComment?, own]
  have taken : '#' :: ' ' :: text.toList ++ [] = (Cursor.ofSource (indent ++ "# " ++ text).toList).significant.rest := by
    rw [rest, List.append_nil]
  rw [Cursor.pattern?, rest, split, Option.map_some, Cursor.take_eq taken, rest, line, ← body, String.ofList_toList]

theorem content_subset (comment : Comment) : comment.content.toList ⊆ comment.text.toList := by
  rw [Comment.content]
  split
  · next cs h => simp [h]
  · exact List.Subset.refl _

theorem content_written (text : String) : (Comment.mk ("# " ++ text)).content = " " ++ text := by
  have body : ("# " ++ text).toList = '#' :: ' ' :: text.toList := by simp
  rw [Comment.content, body, ← String.toList_inj]
  simp

/-- A description is written as comments that make it up again, whatever the indent: leading and inner blank lines and
the indentation of its lines against each other are kept. -/
theorem description_readBack {steps : List Step} {t indent : String}
    (hn : ∀ comment ∈ pushed steps, '\n' ∉ comment.text.toList) (ht : (run steps).take.1 = some t)
    (hr : '\r' ∉ t.toList) (hl : t.toList.getLast? ≠ some '\n') (hi : ∀ c ∈ indent.toList, c = ' ') :
    ∃ comments, List.Forall₂ (ScansAs indent) (Describe.descriptionLines indent (some t)) comments ∧
      (run (comments.map .push)).take = (some t, .empty) := by
  have unbroken : ∀ line ∈ (run steps).lines, '\n' ∉ line.toList := by
    rw [run_lines]
    intro _ hline hc
    obtain ⟨comment, hp, rfl⟩ := List.mem_map.1 hline
    exact hn comment hp (content_subset comment hc)
  obtain ⟨lines, flush, single, rfl⟩ := exists_flush unbroken ht
  have clean : ∀ line ∈ lines, '\r' ∉ line.toList := by
    intro line own hc
    have piece : line.toList ∈ pieces '\n' ("\n".intercalate lines).toList := by
      rw [pieces_joined single flush.ne_nil]
      exact List.mem_map_of_mem own
    exact hr (mem_of_mem_pieces _ piece _ hc)
  have separators : ∀ c ∈ indent.toList, isSeparator c := fun c hc => hi c hc ▸ rfl
  refine ⟨lines.map fun line => ⟨"# " ++ line⟩, ?_, ?_⟩
  · rw [Describe.descriptionLines, flush.lines_joined single hr hl, List.forall₂_map_left_iff,
      List.forall₂_map_right_iff, List.forall₂_same]
    exact fun line own => scansAs_comment separators (single line own) (clean line own)
  · have pushed_lines : (lines.map fun line => Comment.mk ("# " ++ line)).map Comment.content = lines.map (" " ++ ·) := by
      rw [List.map_map]
      exact List.map_congr_left fun line _ => content_written line
    have space : ∀ c ∈ " ".toList, isWhiteSpace c := List.all_eq_true.1 rfl
    rw [run_pushes, pushed_lines, take, description?_indent space, flush.description?]

theorem description_readBack_blanks :
    let steps : List Step := [.push ⟨"# dropped"⟩, .discard, .push ⟨"#"⟩, .push ⟨"#  \u3000\ta"⟩, .push ⟨"# "⟩, .push ⟨"#  #b"⟩]
    let t := "\n\u3000\ta\n\n#b"
    (∀ comment ∈ pushed steps, '\n' ∉ comment.text.toList) ∧ (run steps).take.1 = some t ∧ '\r' ∉ t.toList ∧
      t.toList.getLast? ≠ some '\n' ∧ (∀ c ∈ "  ".toList, c = ' ') ∧
      ∃ comments, List.Forall₂ (ScansAs "  ") ["  # ", "  # \u3000\ta", "  # ", "  # #b"] comments ∧
        (run (comments.map .push)).take = (some t, .empty) := by
  intro steps t
  have comments : pushed steps = [⟨"#"⟩, ⟨"#  \u3000\ta"⟩, ⟨"# "⟩, ⟨"#  #b"⟩] := rfl
  have unbroken : ∀ comment ∈ pushed steps, '\n' ∉ comment.text.toList := by simp [comments]
  have shared : (run steps).sharedIndentation? = some 2 := rfl
  have kept : (run steps).lines.map (dedentLine 2) = ["", "\u3000\ta", "", "#b"] := rfl
  have joined : "\n".intercalate ["", "\u3000\ta", "", "#b"] = t := rfl
  have taken : (run steps).take.1 = some t := by rw [take, description?, shared, Option.map_some, kept, joined]
  have characters : t.toList = ['\n', '\u3000', '\t', 'a', '\n', '\n', '#', 'b'] := by simp [t]
  have clean : '\r' ∉ t.toList := by simp [characters]
  have last : t.toList.getLast? ≠ some '\n' := by simp [characters]
  have spaces : ∀ c ∈ "  ".toList, c = ' ' := by simp
  have written : Describe.descriptionLines "  " (some t) = ["  # ", "  # \u3000\ta", "  # ", "  # #b"] := by
    rw [Describe.descriptionLines, Text.lines, characters]
    rfl
  rw [← written]
  exact ⟨unbroken, taken, clean, last, spaces, description_readBack unbroken taken clean last spaces⟩

end DocLines

end Schemata
