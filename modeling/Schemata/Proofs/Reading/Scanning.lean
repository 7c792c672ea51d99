import Schemata.Proofs.Reading.Machine
import Schemata.Proofs.Token.Places
import Schemata.Proofs.Token.Writing

namespace Schemata

open Text

variable {α β : Type} {source cs cs' cs'' : List Char}

structure Onward (cs cs' : List Char) : Prop where
  suffix : cs' <:+ cs
  lexemes : (lex cs').lexemes <:+ (lex cs).lexemes
  rest : (lex cs').rest = (lex cs).rest

namespace Onward

theorem refl (cs : List Char) : Onward cs cs := ⟨List.suffix_refl _, List.suffix_refl _, rfl⟩

theorem trans (h : Onward cs cs') (h' : Onward cs' cs'') : Onward cs cs'' :=
  ⟨h'.suffix.trans h.suffix, h'.lexemes.trans h.lexemes, h'.rest.trans h.rest⟩

theorem token {rest : List Char} {t : Token} (h : Token.Starts (skipSeparators cs) t rest) : Onward cs rest := by
  have first := lex_eq_cons rfl (Token.next?_of_starts h)
  refine ⟨?_, ?_, ?_⟩
  · have skipped : skipSeparators cs <:+ cs := List.dropWhile_suffix _
    rw [← h.text_append] at skipped
    exact (List.suffix_append _ rest).trans skipped
  · rw [first]
    exact List.suffix_cons _ _
  · rw [first]

theorem byteLength_lt (h : Onward cs cs') (ht : (lex cs').tokens.length < (lex cs).tokens.length) :
    byteLength cs' < byteLength cs := by
  obtain ⟨before, rfl⟩ := h.suffix
  have taken : before ≠ [] := by
    rintro rfl
    exact Nat.lt_irrefl _ ht
  rw [byteLength_append]
  exact Nat.lt_add_of_pos_left (byteLength_pos taken)

theorem inputBefore_self (cs : List Char) : (lex cs).inputBefore (lex cs).tokens.length = skipSeparators cs := by
  rw [Lexed.inputBefore, Lexed.tokens, List.length_map, Nat.sub_self]
  cases hn : Token.next? (skipSeparators cs) with
  | none => rw [lex_of_none hn]; rfl
  | some p => rw [lex_eq_cons rfl hn]; rfl

theorem inputBefore (h : Onward cs cs') : (lex cs).inputBefore (lex cs').tokens.length = skipSeparators cs' := by
  obtain ⟨before, hb⟩ := h.lexemes
  have place : (lex cs).lexemes[(lex cs).lexemes.length - (lex cs').lexemes.length]? = (lex cs').lexemes[0]? := by
    rw [← hb, List.length_append, Nat.add_sub_cancel, List.getElem?_append_right (Nat.le_refl _), Nat.sub_self]
  rw [← inputBefore_self cs', Lexed.inputBefore, Lexed.inputBefore, Lexed.tokens, List.length_map, place, h.rest,
    Nat.sub_self]

end Onward

theorem Token.ofPattern_text (p : Pattern) (text : String) : (Token.ofPattern p text).text = text := by cases p <;> rfl

theorem Token.starts_ofPattern_iff {input rest : List Char} {p : Pattern} {text : String} :
    Token.Starts input (.ofPattern p text) rest ↔ p.split? input = some (text.toList, rest) := by
  constructor
  · intro h
    generalize ht : Token.ofPattern p text = t at h
    cases h with
    | punctuator rest hc => cases p <;> cases ht
    | @pattern q _ text' _ hq =>
      obtain ⟨rfl, rfl⟩ : p = q ∧ text = String.ofList text' := by cases p <;> cases q <;> simp_all [Token.ofPattern]
      rwa [String.toList_ofList]
  · intro h
    have first := Token.Starts.pattern h
    rwa [String.ofList_toList] at first

theorem Pattern.splitName?_iff {word rest : List Char} (hw : Pattern.name.Matches word) :
    splitName? (word ++ rest) = some (word, rest) ↔ Stops isNameContinue rest := by
  obtain ⟨c, cs, rfl, hc, hcs⟩ := hw
  constructor
  · intro h
    rw [List.cons_append, splitName?, if_pos hc] at h
    obtain ⟨-, hr⟩ := Prod.mk.inj (Option.some.inj h)
    intro d hd
    have stopped := List.head?_dropWhile_not isNameContinue (cs ++ rest)
    rwa [hr, Option.mem_def.1 hd] at stopped
  · intro stop
    simp [splitName?, hc, stop.takeWhile hcs, stop.dropWhile hcs]

theorem stops_bytes {p : Char → Bool} (hp : ∀ c : Char, 128 ≤ c.toNat → p c = false) {cs : List Char} :
    Stops p (bytes cs) ↔ Stops p cs := by
  cases cs with
  | nil => rfl
  | cons c cs =>
    rcases bytes_cons_cases c cs with ⟨-, he⟩ | ⟨wide, b, bs, he, hb⟩
    · rw [he]
      simp [Stops]
    · rw [he]
      simp [Stops, hp b hb, hp c wide]

structure SoundMark (source : List Char) (mark : Nat × Nat) : Prop where
  inside : mark.1 ≤ byteLength source
  boundary : ∃ before after, before ++ after = source ∧ byteLength before = mark.1
  depth : mark.2 ≤ maxLevels

structure Stands (source cs : List Char) (s : MachineState) : Prop where
  place : ∃ before, before ++ cs = source ∧ byteLength before = s.offset
  depth : s.depth ≤ maxLevels
  visited : ∀ mark ∈ s.visited, SoundMark source mark

/-- The state `s'` before `cs'` can follow on the state before `cs`, all that has been opened between them being
closed again. -/
structure Reached (source cs : List Char) (s : MachineState) (cs' : List Char) (s' : MachineState) : Prop where
  onward : Onward cs cs'
  stands : Stands source cs' s'
  depth : s'.depth = s.depth

section

variable {s s' s'' : MachineState}

theorem Stands.offset_add (h : Stands source cs s) : s.offset + byteLength cs = byteLength source := by
  obtain ⟨before, rfl, hb⟩ := h.place
  rw [byteLength_append, hb]

theorem Stands.mark (h : Stands source cs s) : SoundMark source (s.offset, s.depth) := by
  obtain ⟨before, hb, ho⟩ := h.place
  exact ⟨Nat.le.intro h.offset_add, ⟨before, cs, hb, ho⟩, h.depth⟩

theorem Reached.refl (h : Stands source cs s) : Reached source cs s cs s := ⟨.refl cs, h, rfl⟩

theorem Reached.trans (h : Reached source cs s cs' s') (h' : Reached source cs' s' cs'' s'') :
    Reached source cs s cs'' s'' :=
  ⟨h.onward.trans h'.onward, h'.stands, h'.depth.trans h.depth⟩

theorem Reached.offset_lt (h : Reached source cs s cs' s') (hs : Stands source cs s)
    (ht : (lex cs').tokens.length < (lex cs).tokens.length) : s.offset < s'.offset := by
  have fewer := h.onward.byteLength_lt ht
  have before := hs.offset_add
  have after := h.stands.offset_add
  omega

theorem Reached.offset_le (h : Reached source cs s cs' s') : s'.offset ≤ byteLength source :=
  Nat.le.intro h.stands.offset_add

theorem Stands.goTo (h : Stands source cs s) {before rest : List Char} (hb : before ++ rest = source) {depth : Nat}
    (hd : depth ≤ maxLevels) :
    Stands source rest ⟨byteLength before, depth, (byteLength before, depth) :: s.visited⟩ where
  place := ⟨before, hb, rfl⟩
  depth := hd
  visited := List.forall_mem_cons.2
    ⟨⟨by rw [← hb, byteLength_append]; exact Nat.le_add_right _ _, ⟨before, rest, hb, rfl⟩, hd⟩, h.visited⟩

end

namespace Machine

variable {s s' : MachineState} {m : Machine α} {f : α → Machine β} {a : α} {stop : Stop}

theorem bind_of_ok (h : m source s = (.ok a, s')) : (m >>= f) source s = f a source s' := by
  change Machine.bind m f source s = _
  rw [Machine.bind, h]

theorem bind_of_error (h : m source s = (.error stop, s')) : (m >>= f) source s = (.error stop, s') := by
  change Machine.bind m f source s = _
  rw [Machine.bind, h]

theorem cut_append (before after : List Char) (source : List Char) (s : MachineState) :
    cut (before ++ after) (byteLength before) source s = (.ok (before, after), s) := by
  rw [cut, splitAtByte?_byteLength, byteLength_append]
  simp only [Nat.le_add_right, if_true]
  rfl

def cursorBefore (source input : List Char) : Cursor := ⟨source.take (source.length - input.length), input⟩

section

variable (h : Stands source cs s)
include h

theorem significantOffset_eq :
    ∃ before, before ++ skipSeparators cs = source ∧ significantOffset source s = (.ok (byteLength before), s) := by
  obtain ⟨before, hb, ho⟩ := h.place
  refine ⟨before ++ cs.takeWhile isSeparator, ?_, ?_⟩
  · have whole : cs.takeWhile isSeparator ++ skipSeparators cs = cs := List.takeWhile_append_dropWhile
    rw [List.append_assoc, whole, hb]
  · have here : cut source s.offset source s = (.ok (before, cs), s) := by
      rw [← hb, ← ho]
      exact cut_append before cs _ s
    rw [byteLength_append, ho]
    exact bind_of_ok here

theorem remaining_eq : remaining source s = (.ok (skipSeparators cs), s) := by
  obtain ⟨before, hb, hx⟩ := significantOffset_eq h
  have there : cut source (byteLength before) source s = (.ok (before, skipSeparators cs), s) := by
    rw [← hb]
    exact cut_append before _ _ s
  exact (bind_of_ok hx).trans (bind_of_ok there)

theorem fail_eq (cause : Cause) :
    (fail cause : Machine α) source s =
      (.error (.failed (cause.error (cursorBefore source (skipSeparators cs)))), s) := by
  obtain ⟨before, hb, hx⟩ := significantOffset_eq h
  have there : cut source (byteLength before) source s = (.ok (before, skipSeparators cs), s) := by
    rw [← hb]
    exact cut_append before _ _ s
  have cursor : cursorBefore source (skipSeparators cs) = ⟨before, skipSeparators cs⟩ := by
    rw [cursorBefore, ← hb, List.length_append, Nat.add_sub_cancel, List.take_left]
  have text : sourceText source s = (.ok source, s) := rfl
  rw [cursor, fail, bind_of_ok text, bind_of_ok hx, bind_of_ok there]
  rfl

theorem scan_none {measure : List Char → Option Nat} (hm : measure (skipSeparators cs) = none) :
    scan measure source s = (.ok none, s) := by
  rw [scan, bind_of_ok (remaining_eq h), hm]
  rfl

theorem scan_text {measure : List Char → Option Nat} {text rest : List Char} (ht : text ++ rest = skipSeparators cs)
    (hm : measure (skipSeparators cs) = some (byteLength text)) :
    ∃ s', scan measure source s = (.ok (some (String.ofList text)), s') ∧ Stands source rest s' ∧ s'.depth = s.depth := by
  obtain ⟨before, hb, hx⟩ := significantOffset_eq h
  have taken := cut_append text rest source s
  rw [ht] at taken
  have place : (before ++ text) ++ rest = source := by rw [List.append_assoc, ht, hb]
  refine ⟨_, ?_, h.goTo place h.depth, rfl⟩
  rw [scan, bind_of_ok (remaining_eq h), hm]
  dsimp only
  rw [bind_of_ok taken]
  dsimp only
  rw [bind_of_ok hx, byteLength_append]
  rfl

theorem scan_some {measure : List Char → Option Nat} {t : Token} {rest : List Char}
    (ht : Token.Starts (skipSeparators cs) t rest)
    (hm : measure (skipSeparators cs) = some (byteLength t.text.toList)) :
    ∃ s', scan measure source s = (.ok (some t.text), s') ∧ Reached source cs s rest s' := by
  obtain ⟨s', hx, stands, depth⟩ := scan_text h ht.text_append hm
  rw [String.ofList_toList] at hx
  exact ⟨s', hx, .token ht, stands, depth⟩

end

structure Measures (measure : List Char → Option Nat) (wanted : Token → Prop) : Prop where
  finds : ∀ input t rest, Token.Starts input t rest → wanted t → measure input = some (byteLength t.text.toList)
  found : ∀ input n, measure input = some n → ∃ t rest, Token.Starts input t rest ∧ wanted t

inductive Scanned (source cs : List Char) (s : MachineState) (wanted : Token → Prop)
    (x : Except Stop (Option String) × MachineState) : Prop
  | taken {t : Token} {rest : List Char} {s' : MachineState} (ht : wanted t)
      (first : Token.Starts (skipSeparators cs) t rest) (tokens : (lex cs).tokens = t :: (lex rest).tokens)
      (hx : x = (.ok (some t.text), s')) (reached : Reached source cs s rest s')
  | missing (other : ∀ t ts, (lex cs).tokens = t :: ts → ¬wanted t) (hx : x = (.ok none, s))

theorem Measures.scanned {measure : List Char → Option Nat} {wanted : Token → Prop} (hm : Measures measure wanted)
    (h : Stands source cs s) : Scanned source cs s wanted (scan measure source s) := by
  cases hn : measure (skipSeparators cs) with
  | some n =>
    obtain ⟨t, rest, first, ht⟩ := hm.found _ n hn
    obtain ⟨s', hx, hr⟩ := scan_some h first (hm.finds _ t rest first ht)
    exact .taken ht first (lex_of_next? rfl (Token.next?_of_starts first)).1 hx hr
  | none =>
    refine .missing ?_ (scan_none h hn)
    intro t ts he ht
    cases hx : Token.next? (skipSeparators cs) with
    | none =>
      rw [lex_of_none hx] at he
      cases he
    | some p =>
      rw [(lex_of_next? rfl hx).1] at he
      obtain ⟨rfl, -⟩ := List.cons.inj he
      have found := hm.finds _ p.1 p.2 (Token.starts_of_next? hx) ht
      rw [hn] at found
      cases found

theorem pattern_measures (p : Pattern) : Measures p.matchLength? fun t => ∃ text, t = .ofPattern p text where
  finds input t rest first := by
    rintro ⟨text, rfl⟩
    rw [Pattern.matchLength?_eq, Token.starts_ofPattern_iff.1 first, Token.ofPattern_text]
    rfl
  found input n h := by
    rw [Pattern.matchLength?_eq] at h
    obtain ⟨⟨text, rest⟩, hp, -⟩ := Option.map_eq_some_iff.1 h
    exact ⟨_, rest, .pattern hp, _, rfl⟩

theorem literal_measures {c : Char} (hc : isPunctuator c) :
    Measures (fun rest => if rest.head? = some c then some c.utf8Size else none) fun t => t = .punctuator c where
  finds input t rest first := by
    rintro rfl
    rw [← first.text_append, Token.text, String.toList_singleton]
    exact if_pos rfl
  found input n h := by
    split at h
    · next head =>
      obtain ⟨rest, rfl⟩ := List.head?_eq_some_iff.1 head
      exact ⟨_, rest, .punctuator rest hc, rfl⟩
    · cases h

theorem keyword_boundary (word rest : List Char) :
    (bytes (word ++ rest))[byteLength word]?.all (!isNameContinue ·) ↔ Stops isNameContinue rest := by
  have next : (bytes (word ++ rest))[byteLength word]? = (bytes rest).head? := by
    rw [bytes_append, ← bytes_length, List.getElem?_append_right (Nat.le_refl _), Nat.sub_self, List.head?_eq_getElem?]
  rw [next, ← stops_bytes isNameContinue_wide, Stops]
  cases (bytes rest).head? <;> simp

theorem keyword_measures {word : String} (hw : Pattern.name.Matches word.toList) :
    Measures (fun rest => if word.toList <+: rest ∧ (bytes rest)[byteLength word.toList]?.all (!isNameContinue ·) then
      some (byteLength word.toList) else none) fun t => t = .name word where
  finds input t rest first := by
    rintro rfl
    have split : Pattern.splitName? input = some (word.toList, rest) := Token.starts_ofPattern_iff (p := .name).1 first
    obtain ⟨rfl, -⟩ := Pattern.splitName?_append split
    exact if_pos ⟨List.prefix_append _ _, (keyword_boundary _ rest).2 ((Pattern.splitName?_iff hw).1 split)⟩
  found input n h := by
    split at h
    · next cut =>
      obtain ⟨⟨rest, rfl⟩, next⟩ := cut
      have split := (Pattern.splitName?_iff hw).2 ((keyword_boundary _ rest).1 next)
      exact ⟨_, rest, Token.starts_ofPattern_iff (p := .name).2 split, rfl⟩
    · cases h

end Machine

end Schemata
