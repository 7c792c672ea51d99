import Schemata.Proofs.Reading.Scanning
import Schemata.Proofs.Text.Position
import Schemata.Proofs.Token.Cursor

namespace Schemata

open Text

variable {α β : Type} {source : List Char} {c c' : Cursor} {s s' : MachineState}

theorem stops_iff {p : Char → Bool} {cs : List Char} : Stops p cs ↔ ¬cs.head?.any p := by
  rw [Stops]
  cases cs.head? <;> simp

namespace Answer

def ofMatch : Option String → Answer α
  | some text => .matched text
  | none => .missing

def ofResult (answer : β → Answer α) : Except SyntaxError β → Answer α
  | .ok b => answer b
  | .error e => .failed e

end Answer

namespace Machine

def attempt (m : Machine β) : Machine (Except SyntaxError β) := fun source s =>
  match m source s with
  | (.ok b, s) => (.ok (.ok b), s)
  | (.error (.failed e), s) => (.ok (.error e), s)
  | (.error (.crashed crash), s) => (.error (.crashed crash), s)

def literalText (text : String) : Machine (Option String) :=
  scan fun rest => if text.toList <+: rest then some (byteLength text.toList) else none

def syntaxError (kind : SyntaxErrorKind) (message : String) : Machine SyntaxError := do
  let here ← significantOffset
  match SyntaxError.atOffset? (← sourceText) here kind message with
  | some e => return e
  | none => crash (.badCut here)

def perform : Operation α → Machine (Answer α)
  | .literal text => do return .ofMatch (← literalText text)
  | .keyword word => do return .ofMatch (← keyword word)
  | .pattern p => do return .ofMatch (← pattern p)
  | .expect text => do
    return .ofResult .matched (← attempt (require ("\"" ++ text ++ "\"") (literalText text)))
  | .required value what => do return .ofResult .given (← attempt (required what value))
  | .error kind message => do return .failed (← syntaxError kind message)
  | .peek => do return .next (← remaining).head?
  | .isAtEnd => do return .ended (← remaining).isEmpty

def performAll : List (Operation α) → Machine (List (Answer α))
  | [] => return []
  | op :: ops => do
    let answer ← perform op
    return answer :: (← performAll ops)

end Machine

structure Cursor.At (source : List Char) (c : Cursor) (s : MachineState) : Prop where
  whole : c.source = source
  stands : Stands source c.rest s

def Agrees (source : List Char) (x : Except Stop β × MachineState) (y : β × Cursor) : Prop :=
  ∃ s, x = (.ok y.1, s) ∧ y.2.At source s

theorem Cursor.ofSource_at (source : List Char) : (ofSource source).At source ⟨0, 0, [(0, 0)]⟩ := by
  have mark : SoundMark source (0, 0) := ⟨Nat.zero_le _, ⟨[], source, rfl, rfl⟩, Nat.zero_le _⟩
  exact ⟨rfl, ⟨[], rfl, rfl⟩, Nat.zero_le _, List.forall_mem_singleton.2 mark⟩

theorem Agrees.bind {γ : Type} {m : Machine β} {f : β → Machine γ} {y : β × Cursor} {z : γ × Cursor}
    (h : Agrees source (m source s) y) (hf : ∀ s, y.2.At source s → Agrees source (f y.1 source s) z) :
    Agrees source ((m >>= f) source s) z := by
  obtain ⟨s', hx, hs⟩ := h
  rw [Machine.bind_of_ok hx]
  exact hf s' hs

theorem Agrees.map {γ : Type} {m : Machine β} {y : β × Cursor} (h : Agrees source (m source s) y) (f : β → γ) :
    Agrees source ((do return f (← m) : Machine γ) source s) (f y.1, y.2) :=
  h.bind fun s hs => ⟨s, rfl, hs⟩

namespace Machine

section

variable (h : c.At source s)
include h

theorem offset_at : s.offset = c.offset := by
  have sizes := h.stands.offset_add
  rw [← h.whole, Cursor.source, byteLength_append] at sizes
  exact Nat.add_right_cancel sizes

theorem significantOffset_at : significantOffset source s = (.ok c.significant.offset, s) := by
  obtain ⟨before, hb, hx⟩ := significantOffset_eq h.stands
  have same : before = c.significant.consumed := by
    rw [← h.whole, ← c.significant_source, Cursor.source, c.significant_rest] at hb
    exact List.append_cancel_right hb
  rw [hx, same, Cursor.offset]

theorem remaining_at : Agrees source (remaining source s) (c.significant.rest, c) := by
  rw [remaining_eq h.stands, c.significant_rest]
  exact ⟨s, rfl, h⟩

theorem syntaxError_at (kind : SyntaxErrorKind) (message : String) :
    Agrees source (syntaxError kind message source s) (c.error kind message, c) := by
  have text : sourceText source s = (.ok source, s) := rfl
  have cut : Position.ofOffset? source c.significant.offset = some c.significant.position := by
    rw [← h.whole, ← c.significant_source]
    exact Position.ofOffset?_byteLength _ _
  refine ⟨s, ?_, h⟩
  rw [syntaxError, bind_of_ok (significantOffset_at h), bind_of_ok text, SyntaxError.atOffset?, cut, ← h.whole]
  rfl

theorem fail_at (what : String) : 
    (fail (.expected what) : Machine β) source s = (.error (.failed (c.expectedError what)), s) := by
  have place : cursorBefore source (skipSeparators c.rest) = c.significant := by
    rw [← h.whole, ← c.significant_source, Cursor.source, c.significant_rest, cursorBefore, List.length_append,
      Nat.add_sub_cancel, List.take_left, ← c.significant_rest]
  rw [fail_eq h.stands, place, Cause.error, Cursor.expectedError, Cursor.expectedError, Cursor.error, Cursor.error,
    Cursor.peek?, Cursor.peek?, c.significant_idem, c.significant_source]

theorem attempt_required (value : Option β) (what : String) :
    Agrees source (attempt (required what value) source s) (c.required value what, c) := by
  cases value with
  | some a => exact ⟨s, rfl, h⟩
  | none =>
    rw [attempt, required, fail_at h]
    exact ⟨s, rfl, h⟩

variable {search : Cursor.Search} {measure : List Char → Option Nat}
  (hm : ∀ input, measure input = (search.find? input).map byteLength)
include hm

theorem scan_of_none (hn : c.search? search = none) : Agrees source (scan measure source s) (none, c) := by
  have nothing := Option.map_eq_none_iff.1 hn
  rw [c.significant_rest] at nothing
  refine ⟨s, scan_none h.stands ?_, h⟩
  rw [hm, nothing, Option.map_none]

theorem scan_of_some {text : String} (hs : c.search? search = some (text, c')) :
    Agrees source (scan measure source s) (some text, c') := by
  obtain ⟨found, hf, ht⟩ := Option.map_eq_some_iff.1 hs
  obtain ⟨rest, hr⟩ := search.found _ _ hf
  have takes := Cursor.search?_takes hs
  rw [Cursor.take_eq hr] at ht
  obtain ⟨rfl, rfl⟩ := Prod.mk.inj ht
  rw [c.significant_rest] at hf hr
  have measured : measure (skipSeparators c.rest) = some (byteLength found) := by rw [hm, hf, Option.map_some]
  obtain ⟨s', hx, stands, -⟩ := scan_text h.stands hr measured
  exact ⟨s', hx, takes.source.trans h.whole, stands⟩

theorem scan_agrees : Agrees source ((do return .ofMatch (← scan measure) : Machine (Answer α)) source s)
    (c.afterMatch (c.search? search)) := by
  cases hs : c.search? search with
  | none => exact (scan_of_none h hm hs).map _
  | some r => exact (scan_of_some h hm hs).map _

end

theorem attempt_require {read : Machine (Option β)} {found : Option β} (hr : Agrees source (read source s) (found, c'))
    (what : String) : Agrees source (attempt (require what read) source s) (c'.required found what, c') := by
  obtain ⟨s', hx, hs⟩ := hr
  rw [attempt, require, bind_of_ok hx]
  exact attempt_required hs found what

theorem literal_measure (text : String) (input : List Char) :
    (if text.toList <+: input then some (byteLength text.toList) else none) =
      ((Cursor.Search.literal text).find? input).map byteLength := by
  rw [Cursor.Search.literal]
  exact (Option.map_if ..).symm

theorem keyword_measure (word : String) (input : List Char) :
    (if word.toList <+: input ∧ (bytes input)[byteLength word.toList]?.all (!isNameContinue ·) then
      some (byteLength word.toList) else none) = ((Cursor.Search.keyword word).find? input).map byteLength := by
  have same : (word.toList <+: input ∧ (bytes input)[byteLength word.toList]?.all (!isNameContinue ·)) ↔
      (word.toList <+: input ∧ ¬((input.drop word.toList.length).head?.any isNameContinue)) := by
    apply and_congr_right
    rintro ⟨rest, rfl⟩
    rw [keyword_boundary, List.drop_left, stops_iff]
  rw [Cursor.Search.keyword]
  dsimp only
  rw [Option.map_if]
  exact if_congr same rfl rfl

theorem pattern_measure (p : Pattern) (input : List Char) :
    p.matchLength? input = ((Cursor.Search.pattern p).find? input).map byteLength := by
  rw [Pattern.matchLength?_eq, Cursor.Search.pattern, Option.map_map]
  rfl

theorem perform_agrees (h : c.At source s) (op : Operation α) :
    Agrees source (perform op source s) (c.perform op) := by
  cases op with
  | literal text =>
    rw [Cursor.perform, Cursor.literal?_eq]
    exact scan_agrees h (literal_measure text)
  | keyword word =>
    rw [Cursor.perform, Cursor.keyword?_eq]
    exact scan_agrees h (keyword_measure word)
  | pattern p =>
    rw [Cursor.perform, Cursor.pattern?_eq]
    exact scan_agrees h (pattern_measure p)
  | expect text =>
    rw [Cursor.perform, Cursor.expect, Cursor.literal?_eq]
    cases hs : c.search? (.literal text) with
    | none => exact (attempt_require (scan_of_none h (literal_measure text) hs) _).map _
    | some r => exact (attempt_require (scan_of_some h (literal_measure text) hs) _).map _
  | required value what =>
    rw [Cursor.perform]
    cases value with
    | none => exact (attempt_required h none what).map _
    | some a => exact (attempt_required h (some a) what).map _
  | error kind message => exact (syntaxError_at h kind message).map _
  | peek => exact (remaining_at h).map _
  | isAtEnd => exact (remaining_at h).map _

theorem performAll_agrees (h : c.At source s) (ops : List (Operation α)) :
    Agrees source (performAll ops source s) (c.performAll ops) := by
  induction ops generalizing c s with
  | nil => exact ⟨s, rfl, h⟩
  | cons op ops ih => exact (perform_agrees h op).bind fun s hs => (ih hs).map _

end Machine

theorem Cursor.keyword?_eq_some_iff {word : String} (hw : Pattern.name.Matches word.toList) {r : String × Cursor} :
    c.keyword? word = some r ↔ r.1 = word ∧ c.pattern? .name = some r := by
  constructor
  · intro h
    obtain ⟨⟨⟨rest, hr⟩, boundary⟩, he⟩ := Option.ite_none_right_eq_some.1 h
    obtain rfl := Option.some.inj he
    rw [← hr, List.drop_left, ← stops_iff] at boundary
    have split : Pattern.name.split? c.significant.rest = some (word.toList, rest) := by
      rw [← hr]
      exact (Pattern.splitName?_iff hw).2 boundary
    refine ⟨String.ofList_toList, ?_⟩
    rw [pattern?, split, Option.map_some]
  · rintro ⟨rfl, h⟩
    obtain ⟨⟨text, rest⟩, split, rfl⟩ := Option.map_eq_some_iff.1 h
    obtain ⟨hr, -⟩ := Pattern.split?_append split
    dsimp only [take] at hw ⊢
    rw [String.toList_ofList] at hw
    rw [← hr] at split
    have boundary := stops_iff.1 ((Pattern.splitName?_iff hw).1 split)
    rw [keyword?, String.toList_ofList, ← hr, List.drop_left, if_pos ⟨List.prefix_append text rest, boundary⟩]
    rfl

/-- Whatever the operations are, they bring a cursor to a place between two characters of the source, and moving through
its bytes leads to the same place with the same answers. From there on no operation goes back, and those that do not
match stay. -/
theorem performAll_disciplined (source : String) (ops : List (Operation α)) :
    ∃ answers c, (Cursor.ofSource source.toList).performAll ops = (answers, c) ∧
      (∃ s, Machine.performAll ops source.toList ⟨0, 0, [(0, 0)]⟩ = (.ok answers, s) ∧ s.offset = c.offset) ∧
      c.source = source.toList ∧ c.offset ≤ byteLength source.toList ∧
      splitAtByte? c.offset source.toList = some (c.consumed, c.rest) ∧
      (∀ op : Operation α, c.Moves (c.perform op)) ∧
      (∀ more : List (Operation α), c.offset ≤ (c.performAll more).2.offset) ∧
      (c.isAtEnd ↔ c.peek? = none) ∧
      (c.peek? = none ↔ c.significant.offset = byteLength source.toList) ∧
      ∀ word : String, Pattern.name.Matches word.toList →
        ∀ r, c.keyword? word = some r ↔ r.1 = word ∧ c.pattern? .name = some r := by
  obtain ⟨s, hx, hs⟩ := Machine.performAll_agrees (Cursor.ofSource_at source.toList) ops
  refine ⟨_, _, rfl, ⟨s, hx, Machine.offset_at hs⟩, hs.whole, ?_, ?_, ?_, ?_, ?_, ?_, ?_⟩
  all_goals generalize ((Cursor.ofSource source.toList).performAll ops).2 = c at hs ⊢
  · exact hs.whole ▸ c.offset_le
  · rw [← hs.whole]
    exact splitAtByte?_byteLength c.consumed c.rest
  · exact c.perform_moves
  · exact c.performAll_offset_le
  · exact c.isAtEnd_iff
  · exact hs.whole ▸ c.peek?_eq_none_iff
  · exact fun word hw r => Cursor.keyword?_eq_some_iff hw

theorem performAll_disciplined_name :
    let source := "é, typeA"
    let ops : List (Operation Unit) := [.literal "é", .keyword "type", .peek]
    let answers : List (Answer Unit) := [.matched "é", .missing, .next (some 't')]
    ∃ c s c', (Cursor.ofSource source.toList).performAll ops = (answers, c) ∧
      Machine.performAll ops source.toList ⟨0, 0, [(0, 0)]⟩ = (.ok answers, s) ∧ s.offset = 2 ∧
      c.keyword? "typeA" = some ("typeA", c') ∧ c.pattern? .name = some ("typeA", c') := by
  intro source ops answers
  have performed : (Cursor.ofSource source.toList).performAll ops = (answers, ⟨['é'], ", typeA".toList⟩) := by
    decide
  have word : (⟨['é'], ", typeA".toList⟩ : Cursor).keyword? "typeA" = some ("typeA", ⟨source.toList, []⟩) := by
    decide
  obtain ⟨_, c, hc, ⟨s, hs, offset⟩, -, -, -, -, -, -, -, keywords⟩ := performAll_disciplined source ops
  rw [performed] at hc
  obtain ⟨rfl, rfl⟩ := Prod.mk.inj hc
  exact ⟨_, s, _, performed, hs, offset, word, ((keywords "typeA" (by decide) _).1 word).2⟩

end Schemata
