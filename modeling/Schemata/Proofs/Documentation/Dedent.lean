import Mathlib.Data.List.DropRight
import Mathlib.Order.Bounds.Basic
import Schemata.Documentation
import Schemata.Proofs.Text.Pieces

namespace Schemata

open Text

def Blank (line : String) : Prop := ∀ c ∈ line.toList, isWhiteSpace c

def Indented (n : Nat) (line : String) : Prop :=
  ∃ gap c rest, line.toList = gap ++ c :: rest ∧ gap.length = n ∧ (∀ g ∈ gap, isWhiteSpace g) ∧ isWhiteSpace c = false

/-- A blank line becomes empty. Any other loses its first `m` characters, all of them white space, and keeps the
indentation that it has beyond them. -/
def Dedented (m : Nat) (line cut : String) : Prop :=
  Blank line ∧ cut = "" ∨ ∃ k, Indented (m + k) line ∧ Indented k cut ∧ cut.toList = line.toList.drop m

def Shares (m : Nat) (lines : List String) : Prop := IsLeast {n | ∃ line ∈ lines, Indented n line} m

namespace DocLines

theorem isBlank_iff {line : String} : isBlank line = true ↔ Blank line := List.all_eq_true

theorem indented_iff {n : Nat} {line : String} : Indented n line ↔ ¬Blank line ∧ indentation line = n := by
  constructor
  · rintro ⟨gap, c, rest, hl, rfl, hg, hc⟩
    refine ⟨fun hb => ?_, ?_⟩
    · have white : isWhiteSpace c = true := hb c (by simp [hl])
      rw [hc] at white
      cases white
    · rw [indentation, hl, List.takeWhile_append_of_pos hg, List.takeWhile_cons_of_neg (by simp [hc]), List.append_nil]
  · rintro ⟨hb, rfl⟩
    have parts : line.toList.takeWhile isWhiteSpace ++ line.toList.dropWhile isWhiteSpace = line.toList :=
      List.takeWhile_append_dropWhile
    have white : ∀ g ∈ line.toList.takeWhile isWhiteSpace, isWhiteSpace g :=
      fun g hg => List.all_eq_true.1 List.all_takeWhile g hg
    cases hd : line.toList.dropWhile isWhiteSpace with
    | nil =>
      rw [hd, List.append_nil] at parts
      rw [parts] at white
      exact absurd white hb
    | cons c rest =>
      have first : line.toList.dropWhile isWhiteSpace ≠ [] := by simp [hd]
      have other : isWhiteSpace c = false := by
        have head := List.head_dropWhile_not isWhiteSpace first
        simpa only [hd, List.head_cons] using head
      exact ⟨_, c, rest, by rw [← hd, parts], rfl, white, other⟩

theorem sharedIndentation?_eq_none_iff {d : DocLines} : d.sharedIndentation? = none ↔ ∀ line ∈ d.lines, Blank line := by
  simp [sharedIndentation?, List.min?_eq_none_iff, List.filter_eq_nil_iff, isBlank_iff]

theorem sharedIndentation?_eq_some_iff {d : DocLines} {m : Nat} :
    d.sharedIndentation? = some m ↔ Shares m d.lines := by
  have mem {n : Nat} : n ∈ (d.lines.filter fun line => !isBlank line).map indentation ↔
      n ∈ {n | ∃ line ∈ d.lines, Indented n line} := by
    simp [indented_iff, ← isBlank_iff, and_assoc]
  rw [sharedIndentation?, List.min?_eq_some_iff, mem]
  exact and_congr_right fun _ => forall_congr' fun n => imp_congr_left mem

theorem dedentLine_dedented {m : Nat} {line : String} (h : ∀ n, Indented n line → m ≤ n) :
    Dedented m line (dedentLine m line) := by
  by_cases hb : Blank line
  · exact .inl ⟨hb, if_pos (isBlank_iff.2 hb)⟩
  · right
    have own : Indented (indentation line) line := indented_iff.2 ⟨hb, rfl⟩
    obtain ⟨k, hk⟩ := Nat.exists_eq_add_of_le (h _ own)
    obtain ⟨gap, c, rest, hl, hn, hg, hc⟩ := own
    have kept : (dedentLine m line).toList = line.toList.drop m := by
      rw [dedentLine, if_neg (mt isBlank_iff.1 hb), String.toList_ofList]
    have short : m ≤ gap.length := by omega
    refine ⟨k, ⟨gap, c, rest, hl, hn.trans hk, hg, hc⟩, ⟨gap.drop m, c, rest, ?_, ?_, ?_, hc⟩, kept⟩
    · rw [kept, hl, List.drop_append_of_le_length short]
    · rw [List.length_drop]
      omega
    · exact fun g h => hg g (List.mem_of_mem_drop h)

theorem description?_eq_some {d : DocLines} {text : String} (h : d.description? = some text) :
    ∃ m cut, Shares m d.lines ∧ (∀ line ∈ d.lines, Dedented m line (cut line)) ∧
      text = "\n".intercalate (d.lines.map cut) := by
  obtain ⟨m, hm, rfl⟩ := Option.map_eq_some_iff.1 h
  have shared := sharedIndentation?_eq_some_iff.1 hm
  exact ⟨m, dedentLine m, shared, fun line hl => dedentLine_dedented fun n hn => shared.2 ⟨line, hl, hn⟩, rfl⟩

section

variable {w line : String} (hw : ∀ c ∈ w.toList, isWhiteSpace c)
include hw

theorem isBlank_indent : isBlank (w ++ line) = isBlank line := by
  rw [isBlank, isBlank, String.toList_append, List.all_append, List.all_eq_true.2 hw, Bool.true_and]

theorem indentation_indent : indentation (w ++ line) = w.toList.length + indentation line := by
  rw [indentation, indentation, String.toList_append, List.takeWhile_append_of_pos hw, List.length_append]

theorem dedentLine_indent (m : Nat) : dedentLine (w.toList.length + m) (w ++ line) = dedentLine m line := by
  rw [dedentLine, dedentLine, isBlank_indent hw, String.toList_append, List.drop_length_add_append]

theorem indented_indent {n : Nat} : Indented n (w ++ line) ↔ ∃ k, Indented k line ∧ n = w.toList.length + k := by
  simp only [indented_iff, ← isBlank_iff, isBlank_indent hw, indentation_indent hw]
  constructor
  · rintro ⟨hb, rfl⟩
    exact ⟨_, ⟨hb, rfl⟩, rfl⟩
  · rintro ⟨k, ⟨hb, rfl⟩, rfl⟩
    exact ⟨hb, rfl⟩

theorem shares_indent {m : Nat} {lines : List String} (hm : Shares m lines) :
    Shares (w.toList.length + m) (lines.map (w ++ ·)) := by
  constructor
  · obtain ⟨line, hl, least⟩ := hm.1
    exact ⟨w ++ line, List.mem_map_of_mem hl, (indented_indent hw).2 ⟨m, least, rfl⟩⟩
  · rintro n ⟨_, hl, hn⟩
    obtain ⟨line, own, rfl⟩ := List.mem_map.1 hl
    obtain ⟨k, hk, rfl⟩ := (indented_indent hw).1 hn
    exact Nat.add_le_add_left (hm.2 ⟨line, own, hk⟩) _

theorem description?_indent (lines : List String) :
    (DocLines.mk (lines.map (w ++ ·))).description? = (DocLines.mk lines).description? := by
  rw [description?, description?]
  cases hs : (DocLines.mk lines).sharedIndentation? with
  | none =>
    have blank : ∀ line ∈ lines.map (w ++ ·), Blank line := by
      intro _ hl
      obtain ⟨line, own, rfl⟩ := List.mem_map.1 hl
      rw [← isBlank_iff, isBlank_indent hw, isBlank_iff]
      exact sharedIndentation?_eq_none_iff.1 hs line own
    rw [sharedIndentation?_eq_none_iff.2 blank]
    rfl
  | some m =>
    have shared := shares_indent hw (sharedIndentation?_eq_some_iff.1 hs)
    rw [sharedIndentation?_eq_some_iff.2 shared, Option.map_some, Option.map_some, List.map_map]
    simp only [Function.comp_def, dedentLine_indent hw]

end

inductive Step
  | push (comment : Comment)
  | take
  | discard

def Step.comment? : Step → Option Comment
  | push comment => some comment
  | take | discard => none

def step (d : DocLines) : Step → DocLines
  | .push comment => d.push comment
  | .take => d.take.2
  | .discard => d.discard

def run (steps : List Step) : DocLines := steps.foldl step .empty

def pushed (steps : List Step) : List Comment := (steps.rtakeWhile fun s => s.comment?.isSome).filterMap Step.comment?

theorem run_lines (steps : List Step) : (run steps).lines = (pushed steps).map Comment.content := by
  induction steps using List.reverseRecOn with
  | nil => rfl
  | append_singleton steps s ih =>
    rw [run, List.foldl_append, pushed, List.rtakeWhile_concat]
    cases s with
    | push comment =>
      have more : (run steps).lines ++ [comment.content] = (pushed steps ++ [comment]).map Comment.content := by
        rw [ih, List.map_append, List.map_singleton]
      rw [pushed] at more
      rw [if_pos (show (Step.push comment).comment?.isSome by rfl), List.filterMap_append]
      exact more
    | take => rfl
    | discard => rfl

end DocLines

end Schemata
