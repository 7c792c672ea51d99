import Schemata.Proofs.Reading.Values

namespace Schemata

open Text Grammar Machine

variable {α β : Type} {source cs : List Char} {s s' : MachineState} {d : Nat}

theorem name_follows : MayFollow d name fun input => .ok (Parser.name? input) := by
  intro source cs s hs hd
  cases name_scanned hs with
  | taken ht first tokens hx reached =>
    obtain ⟨text, rfl⟩ := ht
    rw [hx, tokens]
    exact .ok reached (.found _ _)
  | missing other hx =>
    dsimp only
    rw [hx, name?_eq_none other]
    exact .ok (.refl hs) .missing

theorem shrinks_name : Shrinks fun input => .ok (Parser.name? input) := by
  intro input name rest h
  rw [eq_of_name? (Except.ok.inj h)]
  exact Nat.lt_succ_self _

theorem shrinks_field : Shrinks Parser.field := .of_opened field_sound (FieldForm.opened.within _ _)

theorem field_follows : MayFollow 0 field Parser.field := by
  intro source cs s hs hd
  apply whenFound_tracks (name_scanned hs) _ _ hs
  · rintro _ rest s' ⟨name, rfl⟩ first tokens hr
    rw [tokens]
    apply (arguments_follows hr.stands (hr.depth.trans hd)).bind
    rintro _ _ cs₁ s₁ hr₁ ⟨⟩
    apply (expect_tracks (by decide) hr₁.stands).bind
    rintro _ _ cs₂ s₂ hr₂ ⟨⟩
    have depth : s₂.depth = 0 := hr₂.depth.trans (hr₁.depth.trans (hr.depth.trans hd))
    apply (expectType_follows hr₂.stands depth).bind
    rintro _ _ cs₃ s₃ hr₃ ⟨⟩
    exact .ok (.refl hr₃.stands) (.mk _ _)
  · intro other
    rw [Parser.field, name?_eq_none other]

theorem shrinks_anotherInterface : Shrinks Parser.anotherInterface :=
  .of_sound anotherInterface_sound fun _ _ h => by cases h <;> exact List.cons_ne_nil _ _

theorem shrinks_anotherMember : Shrinks Parser.anotherMember :=
  .of_sound anotherMember_sound fun _ _ h => by cases h; exact List.cons_ne_nil _ _

theorem anotherMember_follows : MayFollow d anotherMember Parser.anotherMember := by
  intro source cs s hs hd
  apply whenFound_tracks (literal_scanned hs (by decide)) _ _ hs
  · rintro _ rest s' rfl first tokens hr
    rw [tokens, Parser.anotherMember, punctuator?_cons]
    exact (expectName_tracks (by decide) hr.stands).some
  · intro other
    rw [Parser.anotherMember, punctuator?_eq_none other]

theorem anotherInterface_eq {ampersand name : Option String} {s₁ s₂ : MachineState} (found : List String)
    (ha : literal '&' source s = (.ok ampersand, s₁)) (hn : Machine.name source s₁ = (.ok name, s₂)) :
    anotherInterface found source s =
      if name.isNone ∧ !found.isEmpty ∧ ampersand.isNone then (.ok none, s₂)
      else (do return some (← required Pattern.name.description name) : Machine (Option String)) source s₂ := by
  rw [anotherInterface, bind_of_ok ha, bind_of_ok hn]
  split <;> rfl

def interface (found : List String) : OptionalReader String :=
  if found = [] then fun input => do
    return some (← Parser.require (.expected Pattern.name.description) Parser.anotherInterface input)
  else Parser.anotherInterface

theorem shrinks_interface (found : List String) : Shrinks (interface found) := by
  intro input name rest h
  rw [interface] at h
  split at h
  · obtain ⟨r, hr, h⟩ := Except.bind_eq_ok_iff.1 h
    obtain ⟨o, ho, hr⟩ := Except.bind_eq_ok_iff.1 hr
    cases o with
    | none => cases hr
    | some r' =>
      cases hr
      cases h
      exact shrinks_anotherInterface ho
  · exact shrinks_anotherInterface h

theorem anotherInterface_follows (found : List String) : MayFollow d (anotherInterface found) (interface found) := by
  intro source cs s hs hd
  have missing_name {s' : MachineState} {cs' : List Char} (hr : Reached source cs s cs' s') :
      Tracks source cs s (MayFit cs) (Parser.fail (.expected Pattern.name.description) (lex cs').tokens)
        ((do return some (← required Pattern.name.description none) : Machine (Option String)) source s') := by
    have failed : Tracks source cs' s' (fun (_ : Option (String × List Token)) (_ : String) _ => False)
        (Parser.fail (.expected Pattern.name.description) (lex cs').tokens)
        ((required Pattern.name.description none : Machine String) source s') := .fail hr.stands (by decide)
    exact .after hr (failed.bind (g := .ok) nofun)
  cases literal_scanned hs (c := '&') (by decide) with
  | @taken _ cs' s' ht first tokens ha reached =>
    subst ht
    cases name_scanned reached.stands with
    | taken ht first tokens' hn reached' =>
      obtain ⟨text, rfl⟩ := ht
      rw [anotherInterface_eq found ha hn, tokens, tokens', if_neg (by simp), interface]
      split <;> exact .ok (reached.trans reached') (.found _ _)
    | missing noName hn =>
      have none_there : Parser.anotherInterface (lex cs).tokens =
          Parser.fail (.expected Pattern.name.description) (lex cs').tokens := by
        rw [tokens, Parser.anotherInterface, punctuator?_cons]
        dsimp only
        rw [Parser.expectName, name?_eq_none noName]
        rfl
      have failed : interface found (lex cs).tokens =
          Parser.fail (.expected Pattern.name.description) (lex cs').tokens := by
        rw [interface]
        split
        · dsimp only
          rw [Parser.require, none_there]
          rfl
        · exact none_there
      rw [anotherInterface_eq found ha hn, if_neg (by simp), failed]
      exact missing_name reached
  | missing noMark ha =>
    cases name_scanned hs with
    | taken ht first tokens hn reached =>
      obtain ⟨text, rfl⟩ := ht
      rw [anotherInterface_eq found ha hn, tokens, if_neg (by simp), interface]
      split <;> exact .ok reached (.found _ _)
    | missing noName hn =>
      have none_there : Parser.anotherInterface (lex cs).tokens = .ok none := by
        rw [Parser.anotherInterface, punctuator?_eq_none noMark, name?_eq_none noName]
      rw [anotherInterface_eq found ha hn, interface]
      by_cases hf : found = []
      · rw [if_pos hf, if_neg (by simp [hf]), Parser.require, none_there]
        exact missing_name (.refl hs)
      · rw [if_neg hf, if_pos (by simp [hf]), none_there]
        exact .ok (.refl hs) .missing

theorem interfaceNames_tracks (hs : Stands source cs s) (hd : s.depth = d) :
    Tracks source cs s Fits
      (do let (first, rest) ←
            Parser.require (.expected Pattern.name.description) Parser.anotherInterface (lex cs).tokens
          let (others, rest) ← Parser.many Parser.anotherInterface rest
          return (first :: others, rest))
      (gather anotherInterface [] source s) := by
  have later found (hf : found ≠ []) : MayFollow d (anotherInterface found) Parser.anotherInterface := by
    have next := anotherInterface_follows (d := d) found
    rwa [interface, if_neg hf] at next
  have first := firstRound (anotherInterface_follows []) (shrinks_interface []) hs hd
  rw [interface, if_pos rfl] at first
  generalize Parser.require _ Parser.anotherInterface (lex cs).tokens = r at first
  cases r with
  | error f =>
    cases first with
    | stopped h hx =>
      rw [hx]
      exact .error h
  | ok p =>
    obtain ⟨name, rest⟩ := p
    cases first with
    | another reached hx =>
      have others := gather_tracks (p := (· ≠ [])) (fun _ _ => List.append_ne_nil_of_right_ne_nil _ (by simp)) later
        shrinks_anotherInterface [name] (List.cons_ne_nil _ _) reached.stands (reached.depth.trans hd)
      rw [hx]
      apply Tracks.after reached
      apply others.reading
      rintro _ _ cs'' ⟨names, _⟩
      exact .mk (name :: names) cs''

theorem interfaces_follow : Follow d interfaces Parser.interfaces := by
  intro source cs s hs hd
  have scanned : Scanned source cs s (fun t => t = .name "implements") (keyword "implements" source s) :=
    keyword_scanned hs (by decide)
  rw [interfaces]
  cases scanned with
  | taken ht first tokens hx reached =>
    subst ht
    rw [whenFound_bind hx, tokens]
    exact .after reached ((interfaceNames_tracks reached.stands (reached.depth.trans hd)).map fun _ _ _ h => h)
  | missing other hx =>
    rw [bind_of_ok (whenFound_of_none hx), Parser.interfaces]
    · exact .ok (.refl hs) (.mk _ _)
    · exact fun rest he => other _ _ he rfl

def behind (word : String) (read : Reader α) : OptionalReader α
  | .name text :: rest => if text = word then do return some (← read rest) else .ok none
  | _ => .ok none

def making (make : α → β) (read : OptionalReader α) : OptionalReader β := fun input => do
  return (← read input).map fun r => (make r.1, r.2)

def firstFound : List (OptionalReader α) → OptionalReader α
  | [] => fun _ => .ok none
  | read :: others => fun input => do
    match ← read input with
    | some r => return some r
    | none => firstFound others input

theorem behind_follows {word : String} (hw : Pattern.name.Matches word.toList) {f : String → Machine α}
    {read : Reader α} (h : Follow d (f word) read) : MayFollow d (whenFound (keyword word) f) (behind word read) := by
  intro source cs s hs hd
  apply whenFound_tracks (keyword_scanned hs hw) _ _ hs
  · rintro _ rest s' rfl first tokens hr
    rw [tokens, behind, if_pos rfl]
    exact (h hr.stands (hr.depth.trans hd)).some
  · intro other
    unfold behind
    split
    · next text rest he => exact if_neg fun ht => other _ _ he (congrArg _ ht)
    · rfl

theorem making_follows {make : α → β} {m : Machine (Option α)} {read : OptionalReader α} (h : MayFollow d m read) :
    MayFollow d (whenFound m fun a => return make a) (making make read) := by
  intro source cs s hs hd
  apply (h hs hd).bind
  rintro _ _ cs' s' hr (_ | ⟨a, _⟩)
  · exact .ok (.refl hr.stands) .missing
  · exact .ok (.refl hr.stands) (.found _ _)

theorem firstOf_follows {ms : List (Machine (Option α))} {reads : List (OptionalReader α)}
    (h : List.Forall₂ (MayFollow d) ms reads) : MayFollow d (firstOf ms) (firstFound reads) := by
  induction h with
  | nil => exact fun source cs s hs _ => .ok (.refl hs) .missing
  | cons first _ ih =>
    intro source cs s hs hd
    apply (first hs hd).bind
    rintro _ _ cs' s' hr (_ | ⟨a, _⟩)
    · exact ih hr.stands (hr.depth.trans hd)
    · exact .ok (.refl hr.stands) (.found _ _)

theorem objectDefinition_follows : MayFollow 0 objectDefinition (behind "type" Parser.objectDefinition) := by
  apply behind_follows (by decide)
  intro source cs s hs hd
  apply (expectName_tracks (by decide) hs).bind
  rintro _ _ cs₁ s₁ hr₁ ⟨⟩
  have depth₁ : s₁.depth = 0 := hr₁.depth.trans hd
  apply (interfaces_follow hr₁.stands depth₁).bind
  rintro _ _ cs₂ s₂ hr₂ ⟨⟩
  apply (body_follows field_follows shrinks_field hr₂.stands (hr₂.depth.trans depth₁)).bind
  rintro _ _ cs₃ s₃ hr₃ ⟨⟩
  exact .ok (.refl hr₃.stands) (.mk _ _)

theorem namedBody_follows {m : Machine (Option α)} {item : OptionalReader α} (h : MayFollow d m item)
    (shrinks : Shrinks item) (make : String → List (Member α) → β) :
    Follow d
      (do let name ← expectName Pattern.name.description
          return make name (← body m))
      fun input => do
        let (name, input) ← Parser.expectName Pattern.name.description input
        let (members, input) ← Parser.body item input
        return (make name members, input) := by
  intro source cs s hs hd
  apply (expectName_tracks (by decide) hs).bind
  rintro _ _ cs₁ s₁ hr₁ ⟨⟩
  apply (body_follows h shrinks hr₁.stands (hr₁.depth.trans hd)).bind
  rintro _ _ cs₂ s₂ hr₂ ⟨⟩
  exact .ok (.refl hr₂.stands) (.mk _ _)

theorem interfaceDefinition_follows :
    MayFollow 0 interfaceDefinition (behind "interface" Parser.interfaceDefinition) :=
  behind_follows (by decide) (namedBody_follows field_follows shrinks_field InterfaceDefinition.mk)

theorem enumDefinition_follows : MayFollow 0 enumDefinition (behind "enum" Parser.enumDefinition) :=
  behind_follows (by decide) (namedBody_follows name_follows shrinks_name EnumDefinition.mk)

theorem inputObjectDefinition_follows :
    MayFollow 0 inputObjectDefinition (behind "input" Parser.inputObjectDefinition) :=
  behind_follows (by decide) (namedBody_follows inputValue_follows shrinks_inputValue InputObjectDefinition.mk)

theorem unionDefinition_follows : MayFollow 0 unionDefinition (behind "union" Parser.unionDefinition) := by
  apply behind_follows (by decide)
  intro source cs s hs hd
  apply (expectName_tracks (by decide) hs).bind
  rintro _ name cs₁ s₁ hr₁ ⟨⟩
  apply (expect_tracks (by decide) hr₁.stands).bind
  rintro _ _ cs₂ s₂ hr₂ ⟨⟩
  apply (expectName_tracks (by decide) hr₂.stands).bind
  rintro _ first cs₃ s₃ hr₃ ⟨⟩
  have depth₃ : s₃.depth = 0 := hr₃.depth.trans (hr₂.depth.trans (hr₁.depth.trans hd))
  apply (gather_tracks (p := fun _ => True) (fun _ _ => trivial) (fun _ _ => anotherMember_follows)
    shrinks_anotherMember [first] trivial hr₃.stands depth₃).bind
  rintro _ _ cs₄ s₄ hr₄ ⟨members⟩
  exact .ok (.refl hr₄.stands) (.mk (UnionDefinition.mk name (first :: members)) _)

theorem scalarDefinition_follows : MayFollow 0 scalarDefinition (behind "scalar" Parser.scalarDefinition) := by
  apply behind_follows (by decide)
  intro source cs s hs hd
  apply (expectName_tracks (by decide) hs).bind
  rintro _ _ cs₁ s₁ hr₁ ⟨⟩
  exact .ok (.refl hr₁.stands) (.mk _ _)

theorem extensionDefinition_eq (input : List Token) : Parser.extensionDefinition input = (do
    match ← behind "type" Parser.objectDefinition input with
    | some r => return r
    | none => Parser.fail .notExtendable input) := by
  unfold Parser.extensionDefinition behind
  split
  · next rest =>
    dsimp only
    rw [if_pos rfl]
    cases Parser.objectDefinition rest <;> rfl
  · next other =>
    split
    · next text rest =>
      have noType : text ≠ "type" := fun h => other rest (h ▸ rfl)
      rw [if_neg noType]
      rfl
    · rfl

theorem extensionDefinition_follows :
    MayFollow 0 extensionDefinition (behind "extend" Parser.extensionDefinition) := by
  apply behind_follows (by decide)
  intro source cs s hs hd
  rw [extensionDefinition_eq]
  apply (objectDefinition_follows hs hd).bind
  rintro _ _ cs₁ s₁ hr₁ (_ | ⟨o, _⟩)
  · exact .fail hr₁.stands nofun
  · exact .ok (.refl hr₁.stands) (.mk _ _)

theorem firstFound_nil (input : List Token) : firstFound ([] : List (OptionalReader α)) input = .ok none := rfl

theorem firstFound_behind (word : String) (make : α → TypeDefinition) (read : Reader α)
    (others : List (OptionalReader TypeDefinition)) (text : String) (rest : List Token) :
    firstFound (making make (behind word read) :: others) (.name text :: rest) =
      if text = word then Parser.defining make read rest else firstFound others (.name text :: rest) := by
  dsimp only [firstFound, making, behind]
  split
  · rw [Parser.defining]
    cases read rest <;> rfl
  · rfl

theorem definition_eq : Parser.definition = firstFound [
    making .object (behind "type" Parser.objectDefinition),
    making .interface (behind "interface" Parser.interfaceDefinition),
    making .union (behind "union" Parser.unionDefinition),
    making .scalar (behind "scalar" Parser.scalarDefinition),
    making .enum (behind "enum" Parser.enumDefinition),
    making .inputObject (behind "input" Parser.inputObjectDefinition),
    making .extension (behind "extend" Parser.extensionDefinition)] := by
  funext input
  unfold Parser.definition
  split
  iterate 7 simp [firstFound_behind]
  · next noType noInterface noUnion noScalar noEnum noInput noExtend =>
    rcases input with _ | ⟨_ | _ | _ | _ | _, rest⟩
    case cons.name text =>
      simp_all [firstFound_behind, firstFound_nil]
    all_goals rfl

theorem definition_follows : MayFollow 0 definition Parser.definition := by
  rw [definition_eq]
  exact firstOf_follows <| .cons (making_follows objectDefinition_follows) <|
    .cons (making_follows interfaceDefinition_follows) <| .cons (making_follows unionDefinition_follows) <|
    .cons (making_follows scalarDefinition_follows) <| .cons (making_follows enumDefinition_follows) <|
    .cons (making_follows inputObjectDefinition_follows) <| .cons (making_follows extensionDefinition_follows) .nil

theorem shrinks_definition : Shrinks Parser.definition :=
  .of_opened definition_sound (DefinitionForm.opened.within _ _)

theorem rest_of_tokens_nil (h : (lex cs).tokens = []) : (lex cs).rest = skipSeparators cs := by
  cases hn : Token.next? (skipSeparators cs) with
  | none => rw [lex_of_none hn]
  | some p =>
    rw [(lex_of_next? rfl hn).1] at h
    cases h

theorem ofLexed_eq (l : Lexed) : Document.ofLexed l = (do
    let (definitions, rest) ← Parser.many (Parser.member Parser.definition) l.tokens
    if rest.isEmpty ∧ l.rest.isEmpty then return ⟨definitions⟩ else Parser.fail .invalidDefinition rest) := by
  rw [Document.ofLexed, Parser.document]
  rcases Parser.many (Parser.member Parser.definition) l.tokens with f | ⟨definitions, _ | ⟨t, rest⟩⟩
  · rfl
  · cases l.rest <;> rfl
  · rfl

theorem document_tracks (hs : Stands source cs s) (hd : s.depth = 0) :
    Tracks source cs s (fun d d' _ => d = d') (Document.ofLexed (lex cs)) (document source s) := by
  rw [ofLexed_eq, document]
  apply (members_follow definition_follows shrinks_definition hs hd).bind
  rintro _ definitions cs₁ s₁ hr₁ ⟨⟩
  have ended : ((lex cs₁).tokens.isEmpty ∧ (lex cs).rest.isEmpty) ↔ (skipSeparators cs₁).isEmpty := by
    rw [← hr₁.onward.rest]
    constructor
    · rintro ⟨tokens, rest⟩
      rwa [rest_of_tokens_nil (List.isEmpty_iff.1 tokens)] at rest
    · intro nothing
      have none_next : Token.next? (skipSeparators cs₁) = none := by
        rw [List.isEmpty_iff.1 nothing]
        rfl
      rw [lex_of_none none_next]
      exact ⟨rfl, nothing⟩
  dsimp only
  rw [bind_of_ok (remaining_eq hr₁.stands)]
  by_cases nothing : (skipSeparators cs₁).isEmpty
  · rw [if_pos nothing, if_pos (ended.2 nothing)]
    exact .ok (.refl hr₁.stands) rfl
  · rw [if_neg nothing, if_neg (mt ended.1 nothing)]
    exact .fail hr₁.stands nofun

end Schemata
