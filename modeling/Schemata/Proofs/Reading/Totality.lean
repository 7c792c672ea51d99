import Schemata.Proofs.Reading.Definitions
/-!
Totality. Every source is read to an end, with a document or a syntax error, and nothing crashes on the way: texts are
cut at the ends of characters only, the rounds of loops go forward, and what is opened is closed again.
-/

namespace Schemata

open Text Machine

variable {α : Type} {source cs : List Char} {s : MachineState} {d : Nat}

structure MachineState.Sound (source : List Char) (s : MachineState) : Prop where
  mark : SoundMark source (s.offset, s.depth)
  visited : ∀ mark ∈ s.visited, SoundMark source mark

theorem Stands.sound (h : Stands source cs s) : s.Sound source := ⟨h.mark, h.visited⟩

theorem MachineState.Sound.stands (h : s.Sound source) : ∃ cs, Stands source cs s := by
  obtain ⟨before, after, place⟩ := h.mark.boundary
  exact ⟨after, ⟨before, place⟩, h.mark.depth, h.visited⟩

structure Orderly (source : List Char) (x : Except Stop α × MachineState) : Prop where
  noCrash : ∀ c, x.1 ≠ .error (.crashed c)
  sound : x.2.Sound source

structure Restores (source : List Char) (s : MachineState) (x : Except Stop α × MachineState) : Prop
    extends Orderly source x where
  depth : x.2.depth = s.depth

structure Advances (source : List Char) (s : MachineState) (x : Except Stop (Option α) × MachineState) : Prop
    extends Orderly source x where
  further : ∀ a, x.1 = .ok (some a) → s.offset < x.2.offset ∧ x.2.offset ≤ byteLength source

inductive Round : Nat → {α : Type} → Machine (Option α) → Prop
  | definition : Round 0 (member definition)
  | field : Round 0 (member field)
  | inputValue : Round 0 (member inputValue)
  | enumValue : Round 0 (member name)
  | interface (found : List String) : Round 0 (anotherInterface found)
  | unionMember : Round 0 anotherMember
  | listItem {d calls : Nat} (h : maxLevels < d + calls) : Round d (member (value calls))
  | objectField {d calls : Nat} (h : maxLevels < d + calls) : Round d (member (objectField (value calls)))

theorem Tracks.restores {β γ : Type} {fit : β → γ → List Char → Prop} {r : Reading β} {x : Except Stop γ × MachineState}
    (h : Tracks source cs s fit r x) : Restores source s x := by
  cases h with
  | ok reached h => exact ⟨⟨nofun, reached.stands.sound⟩, reached.depth⟩
  | error h => exact ⟨⟨nofun, h.reached.stands.sound⟩, h.reached.depth⟩

theorem MayFollow.advances {m : Machine (Option α)} {read : OptionalReader α} (h : MayFollow d m read)
    (shrinks : Shrinks read) (hs : Stands source cs s) (hd : s.depth = d) : Advances source s (m source s) := by
  have tracks := h hs hd
  refine ⟨tracks.restores.toOrderly, fun a ha => ?_⟩
  generalize m source s = x at tracks ha
  generalize hr : read (lex cs).tokens = r at tracks
  cases tracks with
  | ok reached fits =>
    obtain rfl := Except.ok.inj ha
    cases fits
    exact ⟨reached.offset_lt hs (shrinks hr), reached.offset_le⟩
  | error h => cases ha

theorem Round.follows {round : Machine (Option α)} (h : Round d round) (hd : d ≤ maxLevels) :
    ∃ read, MayFollow d round read ∧ Shrinks read := by
  cases h with
  | definition => exact ⟨_, member_follows definition_follows, shrinks_definition.member⟩
  | field => exact ⟨_, member_follows field_follows, shrinks_field.member⟩
  | inputValue => exact ⟨_, member_follows inputValue_follows, shrinks_inputValue.member⟩
  | enumValue => exact ⟨_, member_follows name_follows, shrinks_name.member⟩
  | interface found => exact ⟨_, anotherInterface_follows found, shrinks_interface found⟩
  | unionMember => exact ⟨_, anotherMember_follows, shrinks_anotherMember⟩
  | listItem hc => exact ⟨_, member_follows (value_follows hd hc), (shrinks_value _).member⟩
  | objectField hc =>
    exact ⟨_, member_follows (objectField_follows (value_follows hd hc)), (shrinks_objectField _).member⟩

theorem Round.advances {round : Machine (Option α)} (h : Round s.depth round) (hs : s.Sound source) :
    Advances source s (round source s) := by
  obtain ⟨cs, stands⟩ := hs.stands
  obtain ⟨read, follows, shrinks⟩ := h.follows stands.depth
  exact follows.advances shrinks stands rfl

theorem type_restores {calls : Nat} (hs : s.Sound source) (hc : maxLevels < s.depth + calls) :
    Restores source s (type calls source s) := by
  obtain ⟨cs, stands⟩ := hs.stands
  exact (type_follows stands.depth hc stands rfl).restores

theorem value_restores {calls : Nat} (hs : s.Sound source) (hc : maxLevels < s.depth + calls) :
    Restores source s (value calls source s) := by
  obtain ⟨cs, stands⟩ := hs.stands
  exact (value_follows stands.depth hc stands rfl).restores

theorem Cause.error_kind_ne {cause : Cause} (h : cause ≠ .expected Pattern.number.description) (c : Cursor)
    (found : Option String) : (cause.error c).kind ≠ .expectedToken Pattern.number.description found := by
  cases cause with
  | expected what => exact fun hk => h (congrArg Cause.expected (SyntaxErrorKind.expectedToken.inj hk).1)
  | notExtendable =>
    intro hk
    exact absurd (SyntaxErrorKind.expectedToken.inj hk).1 (by decide)
  | invalidDefinition => exact nofun
  | nestedTooDeep => exact nofun

theorem run_tracks (source : List Char) :
    Tracks source source ⟨0, 0, [(0, 0)]⟩ (fun d d' _ => d = d') (Document.ofLexed (lex source)) (run source) := by
  have start : SoundMark source (0, 0) := ⟨Nat.zero_le _, ⟨[], source, rfl, rfl⟩, Nat.zero_le _⟩
  exact document_tracks ⟨⟨[], rfl, rfl⟩, Nat.zero_le _, List.forall_mem_singleton.2 start⟩ rfl

theorem run_result (source : String) : (run source.toList).1 = (parse source).mapError .failed := by
  have tracks := run_tracks source.toList
  rw [parse]
  generalize run source.toList = x at tracks
  generalize Document.ofLexed (lex source.toList) = r at tracks
  cases tracks with
  | ok reached h => exact congrArg Except.ok h.symm
  | error h =>
    dsimp only [Except.mapError]
    rw [← h.input, h.reached.onward.inputBefore]
    rfl

/-- The depth of a failure is the number of types and values that are open when its error is built. -/
theorem run_fails_at {f : Failure} (hf : Document.ofLexed (lex source) = .error f) :
    ∃ t : MachineState, t.Sound source ∧ t.depth = f.depth ∧
      ((Machine.fail f.cause : Machine Document) source t).1 = (run source).1 ∧
      unwind f.depth source t = (.ok (), (run source).2) := by
  have tracks := run_tracks source
  rw [hf] at tracks
  generalize run source = x at tracks ⊢
  cases tracks with
  | error h =>
    obtain ⟨t, ht, depth, unwound⟩ := h.unwound
    exact ⟨t, ht.sound, depth.trans (Nat.zero_add _), by rw [fail_eq ht], unwound⟩

theorem parse_error_kind {source : String} {e : SyntaxError} (he : parse source = .error e) (found : Option String) :
    e.kind ≠ .expectedToken Pattern.number.description found := by
  have ended := run_result source
  rw [he] at ended
  have tracks := run_tracks source.toList
  generalize run source.toList = x at tracks ended
  generalize Document.ofLexed (lex source.toList) = r at tracks
  cases tracks with
  | ok reached h => cases ended
  | error h =>
    cases ended
    exact Cause.error_kind_ne h.cause _ found

/-- Reading a source ends as `parse` says, without a crash; nothing is open then. All the way its place is inside the
source, between two characters, and no more is open than may be. Types and values are closed again whatever has come
of them, and so that loops end, each of their rounds brings the place forward or is the last. -/
theorem parse_total (source : String) :
    (run source.toList).1 = (parse source).mapError .failed ∧
    (run source.toList).2.depth = 0 ∧
    (∀ mark ∈ (run source.toList).2.visited, SoundMark source.toList mark) ∧
    (∀ (s : MachineState) (calls : Nat), s.Sound source.toList → maxLevels < s.depth + calls →
      Restores source.toList s (type calls source.toList s) ∧ Restores source.toList s (value calls source.toList s)) ∧
    (∀ (s : MachineState) (α : Type) (round : Machine (Option α)), s.Sound source.toList → Round s.depth round →
      Advances source.toList s (round source.toList s)) ∧
    ∀ e found, parse source = .error e → e.kind ≠ .expectedToken Pattern.number.description found := by
  have restores := (run_tracks source.toList).restores
  refine ⟨run_result source, restores.depth, restores.sound.visited, ?_, ?_, ?_⟩
  · exact fun s calls hs hc => ⟨type_restores hs hc, value_restores hs hc⟩
  · exact fun s α round hs hr => hr.advances hs
  · exact fun e found he => parse_error_kind he found

end Schemata
