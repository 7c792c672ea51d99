import Schemata.Proofs.Document.Limit
import Schemata.Proofs.Grammar.Soundness
import Schemata.Proofs.Token.Writing
/-!
Failures are noticed at once. Whatever the reason, nesting apart, the tokens before the place of a failure are the
beginning of a document: what is still open there can be closed.
-/

namespace Schemata.Grammar

open Schemata.Parser

variable {α β : Type} {p q : Form α} {n : Nat} {input rest : List Token} {f : Failure}

/-- Punctuators, and two words. A form that is open at some place can be completed with these. -/
def isFiller : Token → Bool
  | .name text => text == "A" || text == "type"
  | .punctuator c => isPunctuator c
  | _ => false

theorem wellFormed_of_isFiller {t : Token} (h : isFiller t) : t.WellFormed := by
  cases t with
  | name text =>
    have words : text = "A" ∨ text = "type" := by simpa [isFiller] using h
    rcases words with rfl | rfl
    · exact ⟨'A', [], rfl, by decide, nofun⟩
    · exact ⟨'t', ['y', 'p', 'e'], rfl, by decide, List.all_eq_true.1 rfl⟩
  | punctuator c => exact h
  | _ => cases h

/-- The tokens before the place of a failure, with fillers behind them, have a form. -/
structure Viable (p : Form α) (input : List Token) (f : Failure) : Prop where
  cause : f.cause ≠ .invalidDefinition
  completes : ∃ before fillers a, before ++ f.input = input ∧ fillers.all isFiller ∧ p (before ++ fillers) a

structure Breaks (n : Nat) (input : List Token) (x : Reading β) (f : Failure) : Prop where
  failed : x = .error f
  written : ∀ t ∈ input, t.WellFormed
  cause : f.cause ≠ .nestedTooDeep
  depth : f.depth < n

structure Missing (input : List Token) (f : Failure) : Prop where
  cause : f.cause ≠ .invalidDefinition
  place : f.input = input

def FailsViably (n : Nat) (read : List Token → Reading β) (p : Form α) : Prop :=
  ∀ ⦃input : List Token⦄ ⦃f : Failure⦄, Breaks n input (read input) f → Viable p input f

/-! ### Places of failures -/

namespace Breaks

variable {x : Reading β}

theorem pos (h : Breaks n input x f) : 0 < n := Nat.zero_lt_of_lt h.depth

theorem behind (ts : List Token) (h : Breaks n (ts ++ rest) x f) : Breaks n rest x f :=
  ⟨h.failed, fun t ht => h.written t (List.mem_append_right ts ht), h.cause, h.depth⟩

theorem bind {γ : Type} {x : Reading γ} {g : γ → Reading β} (h : Breaks n input (x >>= g) f) :
    Breaks n input x f ∨ ∃ a, x = .ok a ∧ Breaks n input (g a) f := by
  obtain ⟨failed, written, cause, depth⟩ := h
  cases x with
  | error e =>
    obtain rfl : e = f := Except.error.inj failed
    exact .inl ⟨rfl, written, cause, depth⟩
  | ok a => exact .inr ⟨a, rfl, failed, written, cause, depth⟩

theorem of_eq {y : Reading α} (h : Breaks n input x f) (hy : y = .error f) : Breaks n input y f :=
  ⟨hy, h.written, h.cause, h.depth⟩

theorem not_ok {a : β} (h : Breaks n input (.ok a) f) : False := by cases h.failed

theorem expect {c : Char} {x : List Token} (h : Breaks n input (expect c x) f) : Missing x f := by
  have failed := h.failed
  unfold Parser.expect at failed
  split at failed
  · cases failed
  · cases failed
    exact ⟨nofun, rfl⟩

theorem expectName {what : String} {x : List Token} (h : Breaks n input (expectName what x) f) : Missing x f := by
  have failed := h.failed
  unfold Parser.expectName at failed
  split at failed
  · cases failed
  · cases failed
    exact ⟨nofun, rfl⟩

theorem require {what : String} {read : OptionalReader β} {x : List Token}
    (h : Breaks n input (require (.expected what) read x) f) : Breaks n input (read x) f ∨ Missing x f := by
  rcases h.bind with h | ⟨r, -, h⟩
  · exact .inl h
  · cases r with
    | none =>
      cases h.failed
      exact .inr ⟨nofun, rfl⟩
    | some r => cases h.failed

theorem nested {read : OptionalReader β} (h : Breaks (n + 1) input (nested read input) f) :
    ∃ g : Failure, Breaks n input (read input) g ∧ g.cause = f.cause ∧ g.input = f.input := by
  obtain ⟨failed, written, cause, depth⟩ := h
  unfold Parser.nested at failed
  cases hr : read input with
  | ok r =>
    rw [hr] at failed
    cases failed
  | error g =>
    rw [hr] at failed
    cases failed
    exact ⟨g, ⟨rfl, written, cause, Nat.lt_of_succ_lt_succ depth⟩, rfl, rfl⟩

theorem member {item : OptionalReader β} (h : Breaks n input (member item input) f) : Breaks n input (item input) f := by
  have failed := h.failed
  unfold Parser.member at failed
  split at failed
  · cases failed
  · rcases (h.of_eq failed).bind with h | ⟨r, -, h⟩
    · exact h
    · cases h.failed

theorem many {item : OptionalReader β} {r : Form β} (hs : Sound (finds item) r) (h : Breaks n input (many item input) f) :
    ∃ ts as rest, ts ++ rest = input ∧ Many r ts as ∧ Breaks n rest (item rest) f := by
  have failed := h.failed
  fun_induction Parser.many item input with
  | case1 input e hi =>
    obtain rfl : e = f := Except.error.inj failed
    exact ⟨[], [], input, rfl, .nil, h.of_eq hi⟩
  | case2 input hi => cases failed
  | case3 input a mid hi _ ih =>
    obtain ⟨ts, rfl, ha⟩ := hs hi
    rcases h.bind with h | ⟨r, -, h⟩
    · obtain ⟨us, as, rest, rfl, has, hr⟩ := ih (h.behind ts) h.failed
      exact ⟨ts ++ us, a :: as, rest, List.append_assoc .., .cons ha has, hr⟩
    · cases h.failed
  | case4 input a mid hi _ => cases failed

end Breaks

namespace Viable

theorem congr {g : Failure} (hc : g.cause = f.cause) (hi : g.input = f.input) (h : Viable p input g) : Viable p input f :=
  ⟨hc ▸ h.cause, hi ▸ h.completes⟩

theorem mono {r : Form β} (h : Viable r input f) (hp : ∀ us b, r us b → ∃ a, p us a) : Viable p input f := by
  obtain ⟨cause, before, fillers, b, place, hf, hr⟩ := h
  obtain ⟨a, ha⟩ := hp _ b hr
  exact ⟨cause, before, fillers, a, place, hf, ha⟩

theorem missing (ts fillers : List Token) (hf : fillers.all isFiller) {a : α} (h : Missing rest f)
    (hp : p (ts ++ fillers) a) : Viable p (ts ++ rest) f :=
  ⟨h.cause, ts, fillers, a, by rw [h.place], hf, hp⟩

theorem part {r : Form β} (ts fillers : List Token) (hf : fillers.all isFiller) (h : Viable r rest f)
    (hp : ∀ us b, r us b → ∃ a, p (ts ++ (us ++ fillers)) a) : Viable p (ts ++ rest) f := by
  obtain ⟨cause, before, begun, b, place, hb, hr⟩ := h
  obtain ⟨a, ha⟩ := hp _ b hr
  refine ⟨cause, ts ++ before, begun ++ fillers, a, ?_, ?_, ?_⟩
  · rw [List.append_assoc, place]
  · rw [List.all_append, hb, hf]
    rfl
  · simpa only [List.append_assoc] using ha

end Viable

/-! ### Lists and blocks -/

theorem many_viable {item : OptionalReader α} (hs : Sound (finds item) p) (hv : FailsViably n item p) :
    FailsViably n (many item) (Many p) := by
  intro input f h
  obtain ⟨ts, as, rest, rfl, has, hr⟩ := h.many hs
  refine (hv hr).part ts [] rfl fun us a ha => ⟨as ++ [a], ?_⟩
  exact has.append (.cons ha .nil)

theorem member_viable {item : OptionalReader α} (hv : FailsViably n item p) : FailsViably n (member item) (Entry p) :=
  fun _ _ h => (hv h.member).part [] [] rfl fun us a ha => ⟨.item a, by simpa using Entry.item ha⟩

theorem block_viable {item : OptionalReader α} (hs : Sound (finds item) p) (hv : FailsViably n item p)
    (opening closing : Char) (hc : isPunctuator closing) {g : List (Member α) × List Token → List Token → Reading β}
    (h : Breaks n input (do let r ← many (member item) input; let rest ← expect closing r.2; g r rest) f)
    (hg : ∀ r rest, ∃ b, g r rest = .ok b) : Viable (Block opening closing p) (.punctuator opening :: input) f := by
  have filler : [Token.punctuator closing].all isFiller := by simpa [isFiller] using hc
  rcases h.bind with h | ⟨⟨members, mid⟩, hm, h⟩
  · have begun := many_viable (member_sound hs) (member_viable hv) h
    exact begun.part [.punctuator opening] [.punctuator closing] filler fun us members hm => ⟨members, .mk hm⟩
  · rcases h.bind with h | ⟨rest, -, h⟩
    · obtain ⟨ts, rfl, hts⟩ := many_sound (member_sound hs) hm
      exact .missing (.punctuator opening :: ts) [.punctuator closing] filler h.expect (.mk hts)
    · obtain ⟨b, hb⟩ := hg (members, mid) rest
      cases hb.symm.trans h.failed

theorem body_viable {item : OptionalReader α} (hs : Sound (finds item) p) (hv : FailsViably n item p) :
    FailsViably n (body item) (Block '{' '}' p) := by
  intro input f h
  rcases h.bind with h | ⟨mid, ho, h⟩
  · exact .missing [] [.punctuator '{', .punctuator '}'] rfl h.expect (.mk .nil)
  · obtain rfl := eq_of_expect ho
    exact block_viable hs hv '{' '}' rfl (h.behind [_]) fun _ _ => ⟨_, rfl⟩

/-! ### Types and values -/

theorem type?_viable (n : Nat) : FailsViably n (type? n) (within TypeForm TypeRef.levels n) := by
  induction n with
  | zero =>
    intro input f h
    cases h.failed
    exact absurd rfl h.cause
  | succ n ih =>
    intro input f h
    rw [type?] at h
    obtain ⟨g, h, hc, hi⟩ := h.nested
    apply Viable.congr hc hi
    split at h
    · exact h.not_ok.elim
    · next rest =>
      have h' := h.behind [_]
      rcases h'.bind with h | ⟨⟨inner, mid⟩, hr, h⟩
      · rcases h.require with h | h
        · refine (ih h).part [.punctuator '['] [.punctuator ']'] rfl fun us t ht => ⟨.list t, .bare (.list ht.1), ?_⟩
          exact Nat.succ_le_succ ht.2
        · refine .missing [.punctuator '['] [.name "A", .punctuator ']'] rfl h ⟨.bare (.list (.bare (.named "A"))), ?_⟩
          exact Nat.succ_le_succ h'.pos
      · obtain ⟨ts, rfl, ht, hl⟩ := require_sound (type?_sound n) hr
        rcases h.bind with h | ⟨rest, -, h⟩
        · exact .missing (.punctuator '[' :: ts) [.punctuator ']'] rfl h.expect ⟨.bare (.list ht), Nat.succ_le_succ hl⟩
        · exact h.not_ok.elim
    · exact h.not_ok.elim

theorem objectField_viable {value : OptionalReader Value} {p : Form Value}
    (hv : FailsViably n value p) (hp : 0 < n → ∃ v, p [.name "A"] v) :
    FailsViably n (objectField value) (ObjectFieldForm p) := by
  intro input f h
  obtain ⟨v, hA⟩ := hp h.pos
  unfold objectField at h
  split at h
  · exact h.not_ok.elim
  · next name mid hn =>
    obtain rfl := eq_of_name? hn
    have h := h.behind [_]
    rcases h.bind with h | ⟨mid', hc, h⟩
    · exact .missing [.name name] [.punctuator ':', .name "A"] rfl h.expect (.mk name hA)
    · obtain rfl := eq_of_expect hc
      rcases h.bind with h | ⟨r, -, h⟩
      · rcases (h.behind [_]).require with h | h
        · exact (hv h).part [.name name, .punctuator ':'] [] rfl fun us v hu => ⟨(name, v), by simpa using .mk name hu⟩
        · exact .missing [.name name, .punctuator ':'] [.name "A"] rfl h (.mk name hA)
      · exact h.not_ok.elim

theorem exists_read? {text : String} (h : (Token.number text).WellFormed) : ∃ x, Number.read? text = some x := by
  obtain ⟨n, hn, ht⟩ := h
  exact ⟨_, Number.read?_eq_some_iff.2 ⟨n, hn, ht.symm, rfl⟩⟩

theorem value?_viable (n : Nat) : FailsViably n (value? n) (within ValueForm Value.demand n) := by
  induction n with
  | zero =>
    intro input f h
    cases h.failed
    exact absurd rfl h.cause
  | succ n ih =>
    intro input f h
    rw [value?] at h
    obtain ⟨g, h, hc, hi⟩ := h.nested
    apply Viable.congr hc hi
    split at h
    · next text rest =>
      obtain ⟨x, hx⟩ := exists_read? (h.written _ List.mem_cons_self)
      rw [hx] at h
      exact h.not_ok.elim
    · exact h.not_ok.elim
    · exact h.not_ok.elim
    · next rest =>
      have begun := block_viable (value?_sound n) ih '[' ']' rfl (h.behind [_]) fun _ _ => ⟨_, rfl⟩
      refine begun.mono fun us members hm => ⟨.list (items members), ?_⟩
      obtain ⟨hm, hd⟩ := block_within.1 hm
      have pos := h.pos
      refine ⟨.list hm, ?_⟩
      simp only [Value.demand, itemDemand_eq]
      omega
    · next rest =>
      have word (hn : 0 < n) : ∃ v, within ValueForm Value.demand n [.name "A"] v :=
        ⟨.enum "A", .enum (by decide) (by decide), hn⟩
      have fields : FailsViably n (objectField (value? n)) (within (ObjectFieldForm ValueForm) (fun f => f.2.demand) n) :=
        fun _ _ h => (objectField_viable ih word h).mono fun _ f hf => ⟨f, objectField_within.1 hf⟩
      have sound := (objectField_sound (value?_sound n)).mono fun _ _ => objectField_within.1
      have begun := block_viable sound fields '{' '}' rfl (h.behind [_]) fun _ _ => ⟨_, rfl⟩
      refine begun.mono fun us members hm => ⟨.object (items members), ?_⟩
      obtain ⟨hm, hd⟩ := block_within.1 hm
      refine ⟨.object hm, ?_⟩
      simp only [Value.demand, fieldDemand_eq]
      omega
    · exact h.not_ok.elim

theorem expectType_viable : FailsViably maxLevels expectType (within TypeForm TypeRef.levels maxLevels) := by
  intro input f h
  rcases h.require with h | h
  · exact type?_viable maxLevels h
  · exact .missing [] [.name "A"] rfl h ⟨.bare (.named "A"), by decide⟩

theorem expectValue_viable : FailsViably maxLevels expectValue (within ValueForm Value.demand maxLevels) := by
  intro input f h
  rcases h.require with h | h
  · exact value?_viable maxLevels h
  · exact .missing [] [.name "A"] rfl h ⟨.enum (by decide) (by decide), by decide⟩

/-! ### Fields -/

theorem inputValue_viable :
    FailsViably maxLevels inputValue (within InputForm (InputValueDefinition.depth Value.demand) maxLevels) := by
  intro input f h
  unfold inputValue at h
  split at h
  · exact h.not_ok.elim
  · next name mid hn =>
    obtain rfl := eq_of_name? hn
    have h := h.behind [_]
    have plain {ts : List Token} {t : TypeRef} (ht : within TypeForm TypeRef.levels maxLevels ts t) :
        within InputForm (InputValueDefinition.depth Value.demand) maxLevels
          (.name name :: .punctuator ':' :: ts) ⟨name, t, none⟩ :=
      ⟨.plain name ht.1, InputValueDefinition.depth_le_iff.2 ⟨ht.2, nofun⟩⟩
    rcases h.bind with h | ⟨mid', hc, h⟩
    · exact .missing [.name name] [.punctuator ':', .name "A"] rfl h.expect (plain ⟨.bare (.named "A"), by decide⟩)
    · obtain rfl := eq_of_expect hc
      have h := h.behind [_]
      rcases h.bind with h | ⟨⟨t, mid⟩, ht, h⟩
      · exact (expectType_viable h).part [.name name, .punctuator ':'] [] rfl fun us t ht =>
          ⟨_, by simpa using plain ht⟩
      · obtain ⟨ts, rfl, hts⟩ := expectType_sound ht
        dsimp only at h
        split at h
        · exact h.not_ok.elim
        · next rest hp =>
          obtain rfl := eq_of_punctuator? hp
          rcases ((h.behind ts).behind [_]).bind with h | ⟨r, -, h⟩
          · have whole {us : List Token} {v : Value} (hv : within ValueForm Value.demand maxLevels us v) :
                within InputForm (InputValueDefinition.depth Value.demand) maxLevels
                  (.name name :: .punctuator ':' :: (ts ++ .punctuator '=' :: us)) ⟨name, t, some v⟩ :=
              ⟨.default name hts.1 hv.1,
                InputValueDefinition.depth_le_iff.2 ⟨hts.2, fun x hx => Option.some.inj hx ▸ hv.2⟩⟩
            have begun : Viable (within InputForm (InputValueDefinition.depth Value.demand) maxLevels) _ f :=
              (expectValue_viable h).part (.name name :: .punctuator ':' :: (ts ++ [.punctuator '='])) [] rfl
                fun us v hv => ⟨_, by simpa using whole hv⟩
            simpa using begun
          · exact h.not_ok.elim

abbrev Heads : Form (Option (List (Member InputValueDefinition))) :=
  within ArgumentsForm (fun a => deepest (InputValueDefinition.depth Value.demand) (items (a.getD []))) maxLevels

theorem arguments_viable : FailsViably maxLevels arguments Heads := by
  intro input f h
  unfold arguments at h
  split at h
  · exact h.not_ok.elim
  · next rest hp =>
    obtain rfl := eq_of_punctuator? hp
    have begun := block_viable inputValue_sound inputValue_viable '(' ')' rfl (h.behind [_]) fun _ _ => ⟨_, rfl⟩
    refine begun.mono fun us members hm => ⟨some members, ?_⟩
    obtain ⟨hm, hd⟩ := block_within.1 hm
    exact ⟨.some hm, hd⟩

theorem field_viable : FailsViably maxLevels field (within FieldForm (FieldDefinition.depth Value.demand) maxLevels) := by
  intro input f h
  unfold field at h
  split at h
  · exact h.not_ok.elim
  · next name mid hn =>
    obtain rfl := eq_of_name? hn
    have whole {ts us : List Token} {a : Option (List (Member InputValueDefinition))} {t : TypeRef} (ha : Heads ts a)
        (ht : within TypeForm TypeRef.levels maxLevels us t) :
        within FieldForm (FieldDefinition.depth Value.demand) maxLevels
          (.name name :: (ts ++ .punctuator ':' :: us)) ⟨name, a, t⟩ :=
      ⟨.mk name ha.1 ht.1, Nat.max_le.2 ⟨ht.2, ha.2⟩⟩
    have word : within TypeForm TypeRef.levels maxLevels [.name "A"] (.named "A") := ⟨.bare (.named "A"), by decide⟩
    have h := h.behind [_]
    rcases h.bind with h | ⟨⟨a, mid'⟩, ha, h⟩
    · exact (arguments_viable h).part [.name name] [.punctuator ':', .name "A"] rfl fun us a ha => ⟨_, whole ha word⟩
    · obtain ⟨ts, rfl, hts⟩ := arguments_sound ha
      have h := h.behind ts
      rcases h.bind with h | ⟨mid, hc, h⟩
      · exact .missing (.name name :: ts) [.punctuator ':', .name "A"] rfl h.expect (whole hts word)
      · obtain rfl := eq_of_expect hc
        rcases (h.behind [_]).bind with h | ⟨r, -, h⟩
        · have begun : Viable (within FieldForm (FieldDefinition.depth Value.demand) maxLevels) _ f :=
            (expectType_viable h).part (.name name :: (ts ++ [.punctuator ':'])) [] rfl fun us t ht =>
              ⟨⟨name, a, t⟩, by simpa using whole hts ht⟩
          simpa using begun
        · exact h.not_ok.elim

/-! ### Definitions -/

theorem anotherInterface_viable : FailsViably n anotherInterface InterfaceForm := by
  intro input f h
  unfold anotherInterface at h
  split at h
  · next rest hp =>
    obtain rfl := eq_of_punctuator? hp
    rcases h.bind with h | ⟨r, -, h⟩
    · exact .missing [.punctuator '&'] [.name "A"] rfl h.expectName (.joined "A")
    · exact h.not_ok.elim
  · exact h.not_ok.elim

theorem interfaces_viable : FailsViably n interfaces InterfacesForm := by
  intro input f h
  unfold interfaces at h
  split at h
  · next rest =>
    have h := h.behind [_]
    rcases h.bind with h | ⟨⟨first, mid⟩, hf, h⟩
    · rcases h.require with h | h
      · exact (anotherInterface_viable h).part [.name "implements"] [] rfl fun us name hn =>
          ⟨[name], by simpa using InterfacesForm.some hn .nil⟩
      · have single := InterfacesForm.some (.plain "A") .nil
        exact .missing [.name "implements"] [.name "A"] rfl h single
    · obtain ⟨ts, rfl, hts⟩ := require_sound anotherInterface_sound hf
      rcases (h.behind ts).bind with h | ⟨r, -, h⟩
      · refine (many_viable anotherInterface_sound anotherInterface_viable h).part (.name "implements" :: ts) [] rfl
          fun us names hn => ⟨first :: names, ?_⟩
        simpa using InterfacesForm.some hts hn
      · exact h.not_ok.elim
  · exact h.not_ok.elim

abbrev Bodies : Form (List (Member FieldDefinition)) :=
  within (Block '{' '}' FieldForm) (fun fields => deepest (FieldDefinition.depth Value.demand) (items fields)) maxLevels

theorem fields_viable : FailsViably maxLevels (body field) Bodies :=
  fun _ _ h => (body_viable field_sound field_viable h).mono fun _ fields hb => ⟨fields, block_within.1 hb⟩

theorem fields_empty : Bodies [.punctuator '{', .punctuator '}'] [] := ⟨.mk .nil, Nat.zero_le _⟩

abbrev Objects : Form ObjectDefinition :=
  within ObjectForm (fun o => deepest (FieldDefinition.depth Value.demand) (items o.fields)) maxLevels

theorem objectDefinition_viable (h : Breaks maxLevels input (objectDefinition input) f) :
    Viable Objects (.name "type" :: input) f := by
  have whole (name : String) {ts us : List Token} {names : List String} {fields : List (Member FieldDefinition)}
      (hi : InterfacesForm ts names) (hf : Bodies us fields) :
      Objects (.name "type" :: .name name :: (ts ++ us)) ⟨name, names, fields⟩ := ⟨.mk name hi hf.1, hf.2⟩
  rcases h.bind with h | ⟨⟨name, mid⟩, hn, h⟩
  · exact .missing [.name "type"] [.name "A", .punctuator '{', .punctuator '}'] rfl h.expectName (whole "A" .none fields_empty)
  · obtain rfl := eq_of_expectName hn
    have h := h.behind [_]
    rcases h.bind with h | ⟨⟨names, mid'⟩, hi, h⟩
    · exact (interfaces_viable h).part [.name "type", .name name] [.punctuator '{', .punctuator '}'] rfl fun us names hi =>
        ⟨⟨name, names, []⟩, by simpa using whole name hi fields_empty⟩
    · obtain ⟨ts, rfl, hts⟩ := interfaces_sound hi
      rcases (h.behind ts).bind with h | ⟨r, -, h⟩
      · exact (fields_viable h).part (.name "type" :: .name name :: ts) [] rfl fun us fields hf =>
          ⟨⟨name, names, fields⟩, by simpa using whole name hts hf⟩
      · exact h.not_ok.elim

theorem interfaceDefinition_viable (h : Breaks maxLevels input (interfaceDefinition input) f) :
    Viable Definitions (.name "interface" :: input) f := by
  have whole (name : String) {ts : List Token} {fields : List (Member FieldDefinition)} (hf : Bodies ts fields) :
      Definitions (.name "interface" :: .name name :: ts) (.interface ⟨name, fields⟩) := ⟨.interface name hf.1, hf.2⟩
  rcases h.bind with h | ⟨⟨name, mid⟩, hn, h⟩
  · exact .missing [.name "interface"] [.name "A", .punctuator '{', .punctuator '}'] rfl h.expectName (whole "A" fields_empty)
  · obtain rfl := eq_of_expectName hn
    rcases (h.behind [_]).bind with h | ⟨r, -, h⟩
    · exact (fields_viable h).part [.name "interface", .name name] [] rfl fun us fields hf =>
        ⟨.interface ⟨name, fields⟩, by simpa using whole name hf⟩
    · exact h.not_ok.elim

theorem anotherMember_viable : FailsViably n anotherMember UnionMemberForm := by
  intro input f h
  unfold anotherMember at h
  split at h
  · next rest hp =>
    obtain rfl := eq_of_punctuator? hp
    rcases h.bind with h | ⟨r, -, h⟩
    · exact .missing [.punctuator '|'] [.name "A"] rfl h.expectName (.mk "A")
    · exact h.not_ok.elim
  · exact h.not_ok.elim

theorem unionDefinition_viable (h : Breaks maxLevels input (unionDefinition input) f) :
    Viable Definitions (.name "union" :: input) f := by
  have whole (name first : String) {ts : List Token} {others : List String} (ho : Many UnionMemberForm ts others) :
      Definitions (.name "union" :: .name name :: .punctuator '=' :: .name first :: ts)
        (.union ⟨name, first :: others⟩) := ⟨.union name first ho, Nat.zero_le _⟩
  rcases h.bind with h | ⟨⟨name, mid⟩, hn, h⟩
  · exact .missing [.name "union"] [.name "A", .punctuator '=', .name "A"] rfl h.expectName (whole "A" "A" .nil)
  · obtain rfl := eq_of_expectName hn
    have h := h.behind [_]
    rcases h.bind with h | ⟨mid', he, h⟩
    · exact .missing [.name "union", .name name] [.punctuator '=', .name "A"] rfl h.expect (whole name "A" .nil)
    · obtain rfl := eq_of_expect he
      have h := h.behind [_]
      rcases h.bind with h | ⟨⟨first, mid⟩, hf, h⟩
      · exact .missing [.name "union", .name name, .punctuator '='] [.name "A"] rfl h.expectName (whole name "A" .nil)
      · obtain rfl := eq_of_expectName hf
        rcases (h.behind [_]).bind with h | ⟨r, -, h⟩
        · exact (many_viable anotherMember_sound anotherMember_viable h).part
            [.name "union", .name name, .punctuator '=', .name first] [] rfl fun us others ho =>
              ⟨.union ⟨name, first :: others⟩, by simpa using whole name first ho⟩
        · exact h.not_ok.elim

theorem scalarDefinition_viable (h : Breaks maxLevels input (scalarDefinition input) f) :
    Viable Definitions (.name "scalar" :: input) f := by
  rcases h.bind with h | ⟨r, -, h⟩
  · exact .missing [.name "scalar"] [.name "A"] rfl h.expectName ⟨.scalar "A", Nat.zero_le _⟩
  · exact h.not_ok.elim

theorem enumDefinition_viable (h : Breaks maxLevels input (enumDefinition input) f) :
    Viable Definitions (.name "enum" :: input) f := by
  have whole (name : String) {ts : List Token} {values : List (Member String)} (hv : Block '{' '}' NameForm ts values) :
      Definitions (.name "enum" :: .name name :: ts) (.enum ⟨name, values⟩) := ⟨.enum name hv, Nat.zero_le _⟩
  have sound : Sound (finds fun input => .ok (name? input)) NameForm :=
    fun _ _ name h => ⟨_, eq_of_name? (Except.ok.inj h), .mk name⟩
  rcases h.bind with h | ⟨⟨name, mid⟩, hn, h⟩
  · exact .missing [.name "enum"] [.name "A", .punctuator '{', .punctuator '}'] rfl h.expectName (whole "A" (.mk .nil))
  · obtain rfl := eq_of_expectName hn
    rcases (h.behind [_]).bind with h | ⟨r, -, h⟩
    · exact (body_viable sound (fun _ _ h => h.not_ok.elim) h).part [.name "enum", .name name] [] rfl fun us values hv =>
        ⟨.enum ⟨name, values⟩, by simpa using whole name hv⟩
    · exact h.not_ok.elim

theorem inputObjectDefinition_viable (h : Breaks maxLevels input (inputObjectDefinition input) f) :
    Viable Definitions (.name "input" :: input) f := by
  have whole (name : String) {ts : List Token} {fields : List (Member InputValueDefinition)}
      (hf : Block '{' '}' (within InputForm (InputValueDefinition.depth Value.demand) maxLevels) ts fields) :
      Definitions (.name "input" :: .name name :: ts) (.inputObject ⟨name, fields⟩) :=
    ⟨.inputObject name (block_within.1 hf).1, (block_within.1 hf).2⟩
  rcases h.bind with h | ⟨⟨name, mid⟩, hn, h⟩
  · exact .missing [.name "input"] [.name "A", .punctuator '{', .punctuator '}'] rfl h.expectName (whole "A" (.mk .nil))
  · obtain rfl := eq_of_expectName hn
    rcases (h.behind [_]).bind with h | ⟨r, -, h⟩
    · exact (body_viable inputValue_sound inputValue_viable h).part [.name "input", .name name] [] rfl fun us fields hf =>
        ⟨.inputObject ⟨name, fields⟩, by simpa using whole name hf⟩
    · exact h.not_ok.elim

theorem extensionDefinition_viable (h : Breaks maxLevels input (extensionDefinition input) f) :
    Viable Definitions (.name "extend" :: input) f := by
  have whole {ts : List Token} {o : ObjectDefinition} (ho : Objects ts o) :
      Definitions (.name "extend" :: ts) (.extension o) := ⟨.extension ho.1, ho.2⟩
  unfold extensionDefinition at h
  split at h
  · exact (objectDefinition_viable (h.behind [_])).part [.name "extend"] [] rfl fun us o ho =>
      ⟨.extension o, by simpa using whole ho⟩
  · have place : Missing input f := by
      cases h.failed
      exact ⟨nofun, rfl⟩
    have empty : Objects [.name "type", .name "A", .punctuator '{', .punctuator '}'] ⟨"A", [], []⟩ :=
      ⟨.mk "A" .none (.mk .nil), Nat.zero_le _⟩
    exact .missing [.name "extend"] [.name "type", .name "A", .punctuator '{', .punctuator '}'] rfl place (whole empty)

theorem Breaks.defining {make : α → TypeDefinition} {read : Reader α} (h : Breaks n input (defining make read input) f) :
    Breaks n input (read input) f := by
  have failed := h.failed
  unfold Parser.defining at failed
  cases hr : read input with
  | ok r =>
    rw [hr] at failed
    cases failed
  | error g =>
    rw [hr] at failed
    obtain rfl : g = f := Except.error.inj failed
    exact h.of_eq rfl

theorem definition_viable : FailsViably maxLevels definition Definitions := by
  intro input f h
  unfold definition at h
  split at h
  · exact (objectDefinition_viable (h.behind [_]).defining).mono fun us o ho => ⟨.object o, .object ho.1, ho.2⟩
  · exact interfaceDefinition_viable (h.behind [_]).defining
  · exact unionDefinition_viable (h.behind [_]).defining
  · exact scalarDefinition_viable (h.behind [_]).defining
  · exact enumDefinition_viable (h.behind [_]).defining
  · exact inputObjectDefinition_viable (h.behind [_]).defining
  · exact extensionDefinition_viable (h.behind [_]).defining
  · exact h.not_ok.elim

abbrev Documents : Form Document := within DocumentForm Document.demand maxLevels

theorem document_viable (h : Breaks maxLevels input (document input) f) :
    Viable Documents input f ∨ f.cause = .invalidDefinition ∧ ∃ ts d, ts ++ f.input = input ∧ Documents ts d := by
  have whole {ts : List Token} {definitions : List (Member TypeDefinition)} (h : Many (Entry Definitions) ts definitions) :
      Documents ts ⟨definitions⟩ := ⟨.mk (many_within.1 h).1, (many_within.1 h).2⟩
  rcases h.bind with h | ⟨⟨definitions, rest⟩, hm, h⟩
  · exact .inl ((many_viable (member_sound definition_sound) (member_viable definition_viable) h).mono
      fun us definitions hm => ⟨⟨definitions⟩, whole hm⟩)
  · obtain ⟨ts, rfl, hts⟩ := many_sound (member_sound definition_sound) hm
    have failed := h.failed
    dsimp only at failed
    split at failed
    · cases failed
    · cases failed
      exact .inr ⟨rfl, ts, ⟨definitions⟩, rfl, whole hts⟩

end Schemata.Grammar
