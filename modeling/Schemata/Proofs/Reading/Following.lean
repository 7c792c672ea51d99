import Schemata.Proofs.Grammar.Viability
import Schemata.Proofs.Reading.Scanning
/-!
Following the reader of tokens. The machine, part by part, comes to what the reader of tokens comes to on the tokens
from the same place on: it finds the same, or stops with the error that the reader's failure stands for. What it has
opened on the way it has closed, in either case.
-/

namespace Schemata

open Text Grammar Machine

variable {α β γ δ : Type} {source cs cs' : List Char} {s s' : MachineState}

def unwind : Nat → Machine Unit
  | 0 => pure ()
  | n + 1 => do
    unwind n
    leave

/-- A failure before `cs'`: its error is built where `f.depth` types and values more are open than in `s`, and all that
is done after that is to close them. -/
structure Fails (source cs : List Char) (s : MachineState) (f : Failure) (cs' : List Char) (s' : MachineState) :
    Prop where
  reached : Reached source cs s cs' s'
  input : (lex cs').tokens = f.input
  cause : f.cause ≠ .expected Pattern.number.description
  unwound : ∃ t, Stands source cs' t ∧ t.depth = s.depth + f.depth ∧ unwind f.depth source t = (.ok (), s')

theorem Fails.after {cs₁ : List Char} {s₁ : MachineState} {f : Failure} (hr : Reached source cs s cs₁ s₁)
    (h : Fails source cs₁ s₁ f cs' s') : Fails source cs s f cs' s' :=
  ⟨hr.trans h.reached, h.input, h.cause, hr.depth ▸ h.unwound⟩

/-- What a part of a run has come to: what reading tokens comes to, at the place where that has left off. -/
inductive Tracks (source cs : List Char) (s : MachineState) (fit : α → β → List Char → Prop) :
    Reading α → Except Stop β × MachineState → Prop
  | ok {a : α} {b : β} {cs' : List Char} {s' : MachineState} (reached : Reached source cs s cs' s') (h : fit a b cs') :
      Tracks source cs s fit (.ok a) (.ok b, s')
  | error {f : Failure} {cs' : List Char} {s' : MachineState} (h : Fails source cs s f cs' s') :
      Tracks source cs s fit (.error f) (.error (.failed (f.cause.error (cursorBefore source (skipSeparators cs')))), s')

inductive Fits : α × List Token → α → List Char → Prop
  | mk (a : α) (cs : List Char) : Fits (a, (lex cs).tokens) a cs

inductive MayFit (cs : List Char) : Option (α × List Token) → Option α → List Char → Prop
  | missing : MayFit cs none none cs
  | found (a : α) (cs' : List Char) : MayFit cs (some (a, (lex cs').tokens)) (some a) cs'

inductive IsFound : Option (α × List Token) → α → List Char → Prop
  | mk (a : α) (cs : List Char) : IsFound (some (a, (lex cs).tokens)) a cs

inductive Collected (found : List α) : List α × List Token → List α → List Char → Prop
  | mk (as : List α) (cs : List Char) : Collected found (as, (lex cs).tokens) (found ++ as) cs

inductive FitsRest : List Token → α → List Char → Prop
  | mk (a : α) (cs : List Char) : FitsRest (lex cs).tokens a cs

def Follow (d : Nat) (m : Machine α) (read : Reader α) : Prop :=
  ∀ ⦃source cs s⦄, Stands source cs s → s.depth = d → Tracks source cs s Fits (read (lex cs).tokens) (m source s)

def MayFollow (d : Nat) (m : Machine (Option α)) (read : OptionalReader α) : Prop :=
  ∀ ⦃source cs s⦄, Stands source cs s → s.depth = d →
    Tracks source cs s (MayFit cs) (read (lex cs).tokens) (m source s)

namespace Tracks

variable {fit : α → β → List Char → Prop} {fit' : γ → δ → List Char → Prop} {r : Reading α} {m : Machine β}

theorem after {x : Except Stop β × MachineState} (hr : Reached source cs s cs' s') (h : Tracks source cs' s' fit r x) :
    Tracks source cs s fit r x := by
  cases h with
  | ok reached h => exact .ok (hr.trans reached) h
  | error h => exact .error (h.after hr)

theorem mono {x : Except Stop β × MachineState} {fit' : α → β → List Char → Prop} (h : Tracks source cs s fit r x)
    (hf : ∀ a b cs', fit a b cs' → fit' a b cs') : Tracks source cs s fit' r x := by
  cases h with
  | ok reached h => exact .ok reached (hf _ _ _ h)
  | error h => exact .error h

theorem bind {g : α → Reading γ} {f : β → Machine δ} (h : Tracks source cs s fit r (m source s))
    (hf : ∀ a b cs' s', Reached source cs s cs' s' → fit a b cs' → Tracks source cs' s' fit' (g a) (f b source s')) :
    Tracks source cs s fit' (r >>= g) ((m >>= f) source s) := by
  generalize hx : m source s = x at h
  cases h with
  | ok reached h =>
    rw [bind_of_ok hx]
    exact (hf _ _ _ _ reached h).after reached
  | error h =>
    rw [bind_of_error hx]
    exact .error h

theorem map {f : β → δ} {fit' : α → δ → List Char → Prop} (h : Tracks source cs s fit r (m source s))
    (hf : ∀ a b cs', fit a b cs' → fit' a (f b) cs') : Tracks source cs s fit' r ((do return f (← m)) source s) := by
  generalize hx : m source s = x at h
  cases h with
  | ok reached h =>
    rw [bind_of_ok hx]
    exact .ok reached (hf _ _ _ h)
  | error h =>
    rw [bind_of_error hx]
    exact .error h

theorem found {r : Reading (Option (α × List Token))} {m : Machine α} (h : Tracks source cs s IsFound r (m source s)) :
    Tracks source cs s (MayFit cs') r ((do return some (← m)) source s) :=
  h.map fun _ _ _ ⟨a, cs⟩ => .found a cs

theorem reading {x : Except Stop β × MachineState} {g : α → γ} {fit' : γ → β → List Char → Prop}
    (h : Tracks source cs s fit r x) (hf : ∀ a b cs', fit a b cs' → fit' (g a) b cs') :
    Tracks source cs s fit' (do return g (← r)) x := by
  cases h with
  | ok reached h => exact .ok reached (hf _ _ _ h)
  | error h => exact .error h

theorem some {r : Reading (α × List Token)} {x : Except Stop α × MachineState} (h : Tracks source cs s Fits r x) :
    Tracks source cs s IsFound (do return some (← r)) x :=
  h.reading fun _ _ _ ⟨a, cs⟩ => .mk a cs

theorem fail {cause : Cause} (hs : Stands source cs s) (hc : cause ≠ .expected Pattern.number.description) :
    Tracks source cs s fit (Parser.fail cause (lex cs).tokens) ((Machine.fail cause : Machine β) source s) := by
  rw [fail_eq hs]
  exact .error ⟨.refl hs, rfl, hc, s, hs, rfl, rfl⟩

end Tracks

section

variable (hs : Stands source cs s)
include hs

theorem name_scanned : Scanned source cs s (fun t => ∃ text, t = .name text) (name source s) :=
  (pattern_measures .name).scanned hs

theorem literal_scanned {c : Char} (hc : isPunctuator c) :
    Scanned source cs s (fun t => t = .punctuator c) (literal c source s) :=
  (literal_measures hc).scanned hs

theorem keyword_scanned {word : String} (hw : Pattern.name.Matches word.toList) :
    Scanned source cs s (fun t => t = .name word) (keyword word source s) :=
  (keyword_measures hw).scanned hs

end

theorem name?_eq_none {input : List Token} (h : ∀ t ts, input = t :: ts → ¬∃ text, t = .name text) :
    Parser.name? input = none := by
  unfold Parser.name?
  split
  · next text rest => exact absurd ⟨text, rfl⟩ (h _ _ rfl)
  · rfl

theorem punctuator?_eq_none {input : List Token} {c : Char} (h : ∀ t ts, input = t :: ts → ¬t = .punctuator c) :
    Parser.punctuator? c input = none := by
  unfold Parser.punctuator?
  split
  · next d rest =>
    split
    · next hd => exact absurd (hd ▸ rfl) (h _ _ rfl)
    · rfl
  · rfl

theorem punctuator?_cons (c : Char) (rest : List Token) :
    Parser.punctuator? c (.punctuator c :: rest) = some rest := if_pos rfl

theorem quoted_ne_number (c : Char) :
    Cause.expected ("\"" ++ String.singleton c ++ "\"") ≠ .expected Pattern.number.description := by
  intro h
  have text := congrArg String.toList (Cause.expected.inj h)
  rw [String.toList_append, String.toList_append] at text
  exact absurd (List.cons.inj text).1 (by decide)

theorem expect_tracks {c : Char} (hc : isPunctuator c) (hs : Stands source cs s) :
    Tracks source cs s FitsRest (Parser.expect c (lex cs).tokens) (expect c source s) := by
  rw [Parser.expect, expect, require]
  cases literal_scanned hs hc with
  | taken ht first tokens hx reached =>
    subst ht
    rw [bind_of_ok hx, tokens, punctuator?_cons]
    exact .ok reached (.mk _ _)
  | missing other hx =>
    rw [bind_of_ok hx, punctuator?_eq_none other]
    exact .fail hs (quoted_ne_number c)

theorem expectName_tracks {what : String} (hw : what ≠ Pattern.number.description) (hs : Stands source cs s) :
    Tracks source cs s Fits (Parser.expectName what (lex cs).tokens) (expectName what source s) := by
  rw [Parser.expectName, expectName, require]
  cases name_scanned hs with
  | taken ht first tokens hx reached =>
    obtain ⟨text, rfl⟩ := ht
    rw [bind_of_ok hx, tokens]
    exact .ok reached (.mk _ _)
  | missing other hx =>
    rw [bind_of_ok hx, name?_eq_none other]
    exact .fail hs fun h => hw (Cause.expected.inj h)

section

variable {m : Machine (Option α)} {f : α → Machine β} {n : Machine α} {others : List (Machine (Option α))} {a : α}

theorem whenFound_of_none (hx : m source s = (.ok none, s')) : whenFound m f source s = (.ok none, s') := by
  rw [whenFound, bind_of_ok hx]
  rfl

theorem whenFound_of_some (hx : m source s = (.ok (some a), s')) :
    whenFound m f source s = (do return some (← f a)) source s' := by rw [whenFound, bind_of_ok hx]

theorem whenFound_bind {g : Option β → Machine γ} (hx : m source s = (.ok (some a), s')) :
    (whenFound m f >>= g) source s = (f a >>= fun b => g (some b)) source s' := by
  have some_found := whenFound_of_some (f := f) hx
  cases hf : f a source s' with
  | mk result s'' =>
    cases result with
    | ok b =>
      rw [bind_of_ok hf] at some_found
      rw [bind_of_ok hf, bind_of_ok some_found]
    | error stop =>
      rw [bind_of_error hf] at some_found
      rw [bind_of_error hf, bind_of_error some_found]

theorem firstOf_of_none (hx : m source s = (.ok none, s')) :
    firstOf (m :: others) source s = firstOf others source s' := by
  rw [firstOf, bind_of_ok hx]

theorem firstOf_of_found (hx : m source s = (do return some (← n)) source s') :
    firstOf (m :: others) source s = (do return some (← n)) source s' := by
  generalize hn : n source s' = x at hx
  obtain ⟨result, s''⟩ := x
  cases result with
  | ok a =>
    rw [bind_of_ok hn] at hx ⊢
    rw [firstOf, bind_of_ok hx]
  | error stop =>
    rw [bind_of_error hn] at hx ⊢
    rw [firstOf, bind_of_error hx]

end

section

variable {wanted : Token → Prop} {m : Machine (Option String)} {f : String → Machine α}
  {r : Reading (Option (α × List Token))}

theorem whenFound_tracks (h : Scanned source cs s wanted (m source s))
    (found : ∀ t rest s', wanted t → Token.Starts (skipSeparators cs) t rest → (lex cs).tokens = t :: (lex rest).tokens →
      Reached source cs s rest s' → Tracks source rest s' IsFound r (f t.text source s'))
    (missing : (∀ t ts, (lex cs).tokens = t :: ts → ¬wanted t) → r = .ok none) (hs : Stands source cs s) :
    Tracks source cs s (MayFit cs) r (whenFound m f source s) := by
  cases h with
  | taken ht first tokens hx reached =>
    rw [whenFound_of_some hx]
    exact .after reached (.found (found _ _ _ ht first tokens reached))
  | missing other hx =>
    rw [whenFound_of_none hx, missing other]
    exact .ok (.refl hs) .missing

theorem firstOf_tracks {others : List (Machine (Option α))} (h : Scanned source cs s wanted (m source s))
    (found : ∀ t rest s', wanted t → Token.Starts (skipSeparators cs) t rest → (lex cs).tokens = t :: (lex rest).tokens →
      Reached source cs s rest s' → Tracks source rest s' IsFound r (f t.text source s'))
    (missing : (∀ t ts, (lex cs).tokens = t :: ts → ¬wanted t) →
      Tracks source cs s (MayFit cs) r (firstOf others source s)) :
    Tracks source cs s (MayFit cs) r (firstOf (whenFound m f :: others) source s) := by
  cases h with
  | taken ht first tokens hx reached =>
    rw [firstOf_of_found (whenFound_of_some hx)]
    exact .after reached (.found (found _ _ _ ht first tokens reached))
  | missing other hx =>
    rw [firstOf_of_none (whenFound_of_none hx)]
    exact missing other

end

theorem require_tracks {what : String} (hw : what ≠ Pattern.number.description) {read : OptionalReader α}
    {m : Machine (Option α)} (h : Tracks source cs s (MayFit cs) (read (lex cs).tokens) (m source s)) :
    Tracks source cs s Fits (Parser.require (.expected what) read (lex cs).tokens) (require what m source s) := by
  rw [Parser.require, require]
  apply h.bind
  rintro _ _ cs' s' hr (_ | ⟨a, _⟩)
  · exact .fail hr.stands fun h => hw (Cause.expected.inj h)
  · exact .ok (.refl hr.stands) (.mk a cs')

theorem member_follows {d : Nat} {m : Machine (Option α)} {item : OptionalReader α} (h : MayFollow d m item) :
    MayFollow d (member m) (Parser.member item) := by
  intro source cs s hs hd
  rw [member]
  cases (pattern_measures .comment).scanned hs with
  | taken ht first tokens hx reached =>
    obtain ⟨text, rfl⟩ := ht
    rw [pattern, bind_of_ok hx, tokens]
    exact .ok reached (.found _ _)
  | missing other hx =>
    rw [pattern, bind_of_ok hx, Parser.member]
    · apply (h hs hd).bind
      rintro _ _ cs' s' hr (_ | ⟨a, _⟩)
      · exact .ok (.refl hr.stands) .missing
      · exact .ok (.refl hr.stands) (.found _ _)
    · exact fun text rest ht => other _ _ ht ⟨text, rfl⟩

def Shrinks (item : OptionalReader α) : Prop :=
  ∀ ⦃input a rest⦄, item input = .ok (some (a, rest)) → rest.length < input.length

theorem Shrinks.of_sound {item : OptionalReader α} {p : Form α} (h : Sound (finds item) p)
    (hp : ∀ ts a, p ts a → ts ≠ []) : Shrinks item := by
  intro input a rest ht
  obtain ⟨ts, rfl, hts⟩ := h ht
  have taken := List.length_pos_of_ne_nil (hp ts a hts)
  rw [List.length_append]
  exact Nat.lt_add_of_pos_left taken

theorem Shrinks.of_opened {item : OptionalReader α} {p : Form α} (h : Sound (finds item) p) (ho : Opened p) :
    Shrinks item := by
  apply Shrinks.of_sound h
  intro ts a hts
  obtain ⟨t, us, rfl, -⟩ := ho hts
  exact List.cons_ne_nil t us

inductive FirstRound (source cs : List Char) (s : MachineState) (round : List α → Machine (Option α))
    (found : List α) : Reading (Option (α × List Token)) → Prop
  | stopped {f : Failure} {cs' : List Char} {s' : MachineState} (h : Fails source cs s f cs' s')
      (hx : gather round found source s =
        (.error (.failed (f.cause.error (cursorBefore source (skipSeparators cs')))), s')) :
      FirstRound source cs s round found (.error f)
  | ended {s' : MachineState} (reached : Reached source cs s cs s') (hx : gather round found source s = (.ok found, s')) :
      FirstRound source cs s round found (.ok none)
  | another {a : α} {cs' : List Char} {s' : MachineState} (reached : Reached source cs s cs' s')
      (hx : gather round found source s = gather round (found ++ [a]) source s') :
      FirstRound source cs s round found (.ok (some (a, (lex cs').tokens)))

theorem firstRound {d : Nat} {round : List α → Machine (Option α)} {found : List α} {item : OptionalReader α}
    (h : MayFollow d (round found) item) (shrinks : Shrinks item) (hs : Stands source cs s) (hd : s.depth = d) :
    FirstRound source cs s round found (item (lex cs).tokens) := by
  have step := h hs hd
  generalize hx : round found source s = x at step
  generalize hr : item (lex cs).tokens = r at step
  cases step with
  | error h =>
    refine .stopped h ?_
    rw [gather, hx]
  | @ok _ _ _ s' reached fits =>
    cases fits with
    | missing =>
      refine .ended reached ?_
      rw [gather, hx]
    | found a cs' =>
      have further : s.offset < s'.offset := reached.offset_lt hs (shrinks hr)
      refine .another reached ?_
      rw [gather, hx]
      exact if_pos ⟨further, reached.offset_le⟩

theorem gather_tracks {d : Nat} {round : List α → Machine (Option α)} {item : OptionalReader α} {p : List α → Prop}
    (hp : ∀ found a, p (found ++ [a])) (h : ∀ found, p found → MayFollow d (round found) item) (shrinks : Shrinks item)
    (found : List α) (hf : p found) (hs : Stands source cs s) (hd : s.depth = d) :
    Tracks source cs s (Collected found) (Parser.many item (lex cs).tokens) (gather round found source s) := by
  generalize hi : (lex cs).tokens = input
  fun_induction Parser.many item input generalizing cs s found with
  | case1 input f hx =>
    have first := firstRound (h found hf) shrinks hs hd
    rw [hi, hx] at first
    cases first with
    | stopped h hg =>
      rw [hg]
      exact .error h
  | case2 input hx =>
    have first := firstRound (h found hf) shrinks hs hd
    rw [hi, hx] at first
    cases first with
    | ended reached hg =>
      have none_more : Collected found _ (found ++ []) cs := .mk [] cs
      rw [hg, ← hi]
      rw [List.append_nil] at none_more
      exact .ok reached none_more
  | case3 input a rest hx hl ih =>
    have first := firstRound (h found hf) shrinks hs hd
    rw [hi, hx] at first
    cases first with
    | another reached hg =>
      -- The rounds that are left collect what the reader finds behind this item.
      have others := ih (found ++ [a]) (hp found a) reached.stands (reached.depth.trans hd) rfl
      rw [hg]
      apply Tracks.after reached
      apply others.reading
      rintro _ _ cs'' ⟨as, _⟩
      rw [List.append_assoc]
      exact .mk (a :: as) cs''
  | case4 input a rest hx hl => exact absurd (shrinks hx) hl

theorem Shrinks.member {item : OptionalReader α} (h : Shrinks item) : Shrinks (Parser.member item) := by
  intro input a rest ht
  unfold Parser.member at ht
  split at ht
  · obtain ⟨-, rfl⟩ := Prod.mk.inj (Option.some.inj (Except.ok.inj ht))
    exact Nat.lt_succ_self _
  · obtain ⟨r, hr, ht⟩ := Except.bind_eq_ok_iff.1 ht
    obtain ⟨⟨b, rest'⟩, rfl, he⟩ := Option.map_eq_some_iff.1 (Except.ok.inj ht)
    obtain ⟨-, rfl⟩ := Prod.mk.inj he
    exact h hr

theorem members_follow {d : Nat} {m : Machine (Option α)} {item : OptionalReader α} (h : MayFollow d m item)
    (shrinks : Shrinks item) : Follow d (members m) (Parser.many (Parser.member item)) := by
  intro source cs s hs hd
  have rounds := gather_tracks (p := fun _ => True) (fun _ _ => trivial) (fun _ _ => member_follows h) shrinks.member
    [] trivial hs hd
  exact rounds.mono fun _ _ _ ⟨as, cs'⟩ => .mk as cs'

theorem body_follows {d : Nat} {m : Machine (Option α)} {item : OptionalReader α} (h : MayFollow d m item)
    (shrinks : Shrinks item) : Follow d (body m) (Parser.body item) := by
  intro source cs s hs hd
  rw [body, Parser.body]
  apply (expect_tracks (by decide) hs).bind
  rintro _ _ cs₁ s₁ hr ⟨⟩
  apply (members_follow h shrinks hr.stands (hr.depth.trans hd)).bind
  rintro _ _ cs₂ s₂ hr ⟨⟩
  apply (expect_tracks (by decide) hr.stands).bind
  rintro _ _ cs₃ s₃ hr ⟨⟩
  exact .ok (.refl hr.stands) (.mk _ _)

theorem block_tracks {d : Nat} {m : Machine (Option α)} {item : OptionalReader α} (h : MayFollow d m item)
    (shrinks : Shrinks item) {c : Char} (hc : isPunctuator c) {f : List (Member α) → β}
    {g : List (Member α) → List Token → γ} {fit : γ → β → List Char → Prop}
    (fits : ∀ found cs', fit (g found (lex cs').tokens) (f found) cs') (hs : Stands source cs s) (hd : s.depth = d) :
    Tracks source cs s fit
      (do let (found, rest) ← Parser.many (Parser.member item) (lex cs).tokens
          return g found (← Parser.expect c rest))
      ((do let found ← members m
           let _ ← expect c
           return f found) source s) := by
  apply (members_follow h shrinks hs hd).bind
  rintro _ _ cs₁ s₁ hr ⟨⟩
  apply (expect_tracks hc hr.stands).bind
  rintro _ _ cs₂ s₂ hr ⟨⟩
  exact .ok (.refl hr.stands) (fits _ _)

end Schemata
