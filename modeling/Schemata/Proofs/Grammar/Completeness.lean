import Schemata.Proofs.Grammar.Soundness

namespace Schemata.Grammar

open Schemata.Parser

variable {α : Type} {p : Form α} {follow : List Token → Prop}

abbrev Ended : List Token → Prop := Follows ['!', '=', '|']

theorem ended_nil : Ended [] := fun _ _ => rfl

theorem Ended.unbanged {input : List Token} (h : Ended input) : Follows ['!'] input :=
  fun c hc => h c (by simp_all)

theorem Ended.unjoined {input : List Token} (h : Ended input) : Follows ['|'] input :=
  fun c hc => h c (by simp_all)

theorem follows_punctuator {c : Char} {cs : List Char} (h : c ∉ cs) (rest : List Token) :
    Follows cs (.punctuator c :: rest) := by
  intro d hd
  have : c ≠ d := by rintro rfl; exact h hd
  simp [punctuator?, this]

theorem ended_opens {t : Token} (h : opens t) (rest : List Token) : Ended (t :: rest) := by
  cases t with
  | punctuator c => exact follows_punctuator (by simp [opens] at h; rcases h with rfl | rfl <;> decide) rest
  | _ => exact fun _ _ => rfl

theorem ended_entry (h : Opened p) {ts : List Token} {m : Member α} (hm : Entry p ts m)
    (rest : List Token) : Ended (ts ++ rest) := by
  cases hm with
  | comment text => exact fun _ _ => rfl
  | item hp =>
    obtain ⟨t, us, rfl, ht⟩ := h hp
    exact ended_opens ht _

@[simp] theorem punctuator?_same (c : Char) (rest : List Token) :
    punctuator? c (.punctuator c :: rest) = some rest := by
  simp [punctuator?]

@[simp] theorem expect_same (c : Char) (rest : List Token) : expect c (.punctuator c :: rest) = .ok rest := by
  simp [expect]

@[simp] theorem expectName_same (what name : String) (rest : List Token) :
    expectName what (.name name :: rest) = .ok (name, rest) := rfl

theorem require_complete (cause : Cause) {read : OptionalReader α} (h : Complete (finds read) p follow) :
    Complete (gives (require cause read)) p follow := by
  intro ts rest a hp hf
  have hr : read (ts ++ rest) = .ok (some (a, rest)) := h hp hf
  simp only [gives, require, hr]
  rfl

theorem many_of_some {item : OptionalReader α} {input rest : List Token} {a : α}
    (hi : item input = .ok (some (a, rest))) (hl : rest.length < input.length) :
    many item input = (many item rest).map fun r => (a :: r.1, r.2) := by
  rw [many, hi]
  simp only [hl, if_true]
  cases many item rest <;> rfl

theorem many_complete {item : OptionalReader α} (h : Complete (finds item) p follow)
    (hne : ∀ ts a, p ts a → ts ≠ []) (hstart : ∀ ts a us, p ts a → follow (ts ++ us)) :
    Complete (gives (many item)) (Many p) fun rest => follow rest ∧ item rest = .ok none := by
  rintro ts rest as hm ⟨hrest, hstop⟩
  induction hm with
  | nil =>
    rw [gives, List.nil_append, many]
    split
    · next he => rw [hstop] at he; cases he
    · rfl
    · next he => rw [hstop] at he; cases he
  | @cons ts us a as first others ih =>
    have hfollow : follow (us ++ rest) := by
      cases others with
      | nil => exact hrest
      | cons second _ =>
        rw [List.append_assoc]
        exact hstart _ _ _ second
    have hitem : item (ts ++ (us ++ rest)) = .ok (some (a, us ++ rest)) := h first hfollow
    have hlen : (us ++ rest).length < (ts ++ (us ++ rest)).length := by
      have := List.length_pos_iff.2 (hne _ _ first)
      simp only [List.length_append]
      omega
    have hothers : many item (us ++ rest) = .ok (as, rest) := ih
    rw [gives, List.append_assoc, many_of_some hitem hlen, hothers]
    rfl

theorem member_of_item {item : OptionalReader α} {t : Token} {input rest : List Token} {a : α} (ht : opens t)
    (hi : item (t :: input) = .ok (some (a, rest))) : member item (t :: input) = .ok (some (.item a, rest)) := by
  rw [member, hi]
  · rfl
  · rintro text _ he
    obtain rfl : t = .comment text := (List.cons.inj he).1
    cases ht

theorem member_complete {item : OptionalReader α} (h : Complete (finds item) p follow) (ho : Opened p) :
    Complete (finds (member item)) (Entry p) follow := by
  intro ts rest m hm hf
  cases hm with
  | comment text => rfl
  | item hp =>
    have hi : item (ts ++ rest) = .ok (some (_, rest)) := h hp hf
    obtain ⟨t, us, rfl, ht⟩ := ho hp
    exact member_of_item ht hi

theorem entries_complete {item : OptionalReader α} (h : Complete (finds item) p Ended) (ho : Opened p)
    {closing : Char} (hc : closing ∉ ['!', '=', '|'])
    (hstop : ∀ rest, item (.punctuator closing :: rest) = .ok none) {ts : List Token}
    {members : List (Member α)} (hm : Many (Entry p) ts members) (rest : List Token) :
    many (member item) (ts ++ .punctuator closing :: rest) = .ok (members, .punctuator closing :: rest) := by
  refine many_complete (member_complete h ho) (fun _ _ => ho.entry_ne_nil)
    (fun _ _ us he => ended_entry ho he us) hm ⟨follows_punctuator hc rest, ?_⟩
  rw [member]
  · rw [hstop]
    rfl
  · nofun

theorem body_complete {item : OptionalReader α} (h : Complete (finds item) p Ended) (ho : Opened p)
    (hstop : ∀ rest, item (.punctuator '}' :: rest) = .ok none) {ts : List Token}
    {members : List (Member α)} (hb : Block '{' '}' p ts members) (rest : List Token) :
    body item (ts ++ rest) = .ok (members, rest) := by
  obtain ⟨hm⟩ := hb
  have hm := entries_complete h ho (by decide) hstop hm rest
  simp only [body, List.cons_append, List.append_assoc, List.nil_append, expect_same,
    Except.ok_bind, hm]
  rfl

theorem levels_pos (t : TypeRef) : 0 < t.levels := by
  induction t with
  | named name => exact Nat.one_pos
  | list inner _ => exact Nat.succ_pos _
  | nonNull inner ih => exact ih

theorem demand_pos (v : Value) : 0 < v.demand := by
  cases v <;> simp [Value.demand]

theorem bang_same (t : TypeRef) (rest : List Token) : bang t (.punctuator '!' :: rest) = (.nonNull t, rest) := by
  simp [bang]

theorem bang_unbanged (t : TypeRef) {rest : List Token} (h : Follows ['!'] rest) : bang t rest = (t, rest) := by
  have : punctuator? '!' rest = none := h '!' (by decide)
  simp [bang, this]

theorem bare_complete {n : Nat}
    (ih : Complete (finds (type? n)) (within TypeForm TypeRef.levels n) (Follows ['!']))
    {ts : List Token} {t : TypeRef} (h : BareTypeForm ts t) (hl : t.levels ≤ n + 1) (rest : List Token) :
    type? (n + 1) (ts ++ rest) = .ok (some (bang t rest)) := by
  rw [type?, nested_eq_ok]
  cases h with
  | named name => rfl
  | @list ts inner h =>
    have hi : require (.expected "Type") (type? n) (ts ++ .punctuator ']' :: rest) =
        .ok (inner, .punctuator ']' :: rest) :=
      require_complete _ ih ⟨h, by simpa [TypeRef.levels] using hl⟩ (follows_punctuator (by decide) _)
    simp only [List.cons_append, List.append_assoc, List.nil_append, hi, Except.ok_bind, expect_same]
    rfl

theorem type?_complete (n : Nat) :
    Complete (finds (type? n)) (within TypeForm TypeRef.levels n) (Follows ['!']) := by
  induction n with
  | zero =>
    rintro ts rest t ⟨-, hl⟩
    have := levels_pos t
    omega
  | succ n ih =>
    rintro ts rest t ⟨h, hl⟩ hr
    cases h with
    | bare h => rw [finds, bare_complete ih h hl, bang_unbanged t hr]
    | @nonNull ts t h =>
      rw [finds, List.append_assoc, bare_complete ih h (by simpa [TypeRef.levels] using hl)]
      simp [bang_same]

theorem objectField_complete {value : OptionalReader Value} {p : Form Value}
    (h : Complete (finds value) p Ended) :
    Complete (finds (objectField value)) (ObjectFieldForm p) Ended := by
  rintro _ rest _ ⟨name, hp⟩ hr
  have hv := require_complete (.expected "Value") h hp hr
  rw [gives] at hv
  simp only [finds, objectField, name?, List.cons_append, expect_same, Except.ok_bind, hv]
  rfl

theorem list_complete {n : Nat} (ih : Complete (finds (value? n)) (within ValueForm Value.demand n) Ended)
    {ts : List Token} {members : List (Member Value)} (h : Block '[' ']' ValueForm ts members)
    (hl : (Value.list (items members)).demand ≤ n + 1) (rest : List Token) :
    value? (n + 1) (ts ++ rest) = .ok (some (.list (items members), rest)) := by
  simp only [Value.demand, itemDemand_eq] at hl
  obtain ⟨hm⟩ := block_within.2 ⟨h, show deepest Value.demand _ ≤ n by omega⟩
  -- The try at the end of the list needs a level as well.
  have hstop (rest : List Token) : value? n (.punctuator ']' :: rest) = .ok none := by
    obtain ⟨k, rfl⟩ : ∃ k, n = k + 1 := ⟨n - 1, by omega⟩
    rfl
  have hm := entries_complete ih (ValueForm.opened.within _ _) (by decide) hstop hm rest
  rw [value?, nested_eq_ok]
  simp only [List.cons_append, List.append_assoc, List.nil_append, hm, Except.ok_bind, expect_same]
  rfl

theorem object_complete {n : Nat} (ih : Complete (finds (value? n)) (within ValueForm Value.demand n) Ended)
    {ts : List Token} {members : List (Member (String × Value))}
    (h : Block '{' '}' (ObjectFieldForm ValueForm) ts members)
    (hl : (Value.object (items members)).demand ≤ n + 1) (rest : List Token) :
    value? (n + 1) (ts ++ rest) = .ok (some (.object (items members), rest)) := by
  simp only [Value.demand, fieldDemand_eq] at hl
  obtain ⟨hm⟩ := block_within.2 ⟨h, show deepest (fun f => f.2.demand) _ ≤ n by omega⟩
  have hfield : Complete (finds (objectField (value? n)))
      (within (ObjectFieldForm ValueForm) (fun f => f.2.demand) n) Ended :=
    fun _ _ _ hp => objectField_complete ih (objectField_within.2 hp)
  have hm := entries_complete hfield ((ObjectFieldForm.opened _).within _ _) (show '}' ∉ _ by decide)
    (fun _ => rfl) hm rest
  rw [value?, nested_eq_ok]
  simp only [List.cons_append, List.append_assoc, List.nil_append, hm, Except.ok_bind, expect_same]
  rfl

theorem value?_complete (n : Nat) : Complete (finds (value? n)) (within ValueForm Value.demand n) Ended := by
  induction n with
  | zero =>
    rintro ts rest v ⟨-, hl⟩
    have := demand_pos v
    omega
  | succ n ih =>
    rintro ts rest v ⟨h, hl⟩ -
    rw [finds]
    cases h with
    | number h => simp [value?, nested_eq_ok, h]
    | string text => rfl
    | true => rfl
    | false => rfl
    | enum ht hf => simp [value?, nested_eq_ok, ht, hf]
    | list h => exact list_complete ih h hl rest
    | object h => exact object_complete ih h hl rest

theorem expectType_complete :
    Complete (gives expectType) (within TypeForm TypeRef.levels maxLevels) (Follows ['!']) :=
  require_complete _ (type?_complete _)

theorem expectValue_complete : Complete (gives expectValue) (within ValueForm Value.demand maxLevels) Ended :=
  require_complete _ (value?_complete _)

theorem inputValue_complete : Complete (finds inputValue)
    (within InputForm (InputValueDefinition.depth Value.demand) maxLevels) Ended := by
  rintro ts rest d ⟨h, hl⟩ hr
  cases h with
  | @plain name ts t h =>
    have hl : t.levels ≤ maxLevels := by simpa [InputValueDefinition.depth, deepest] using hl
    have ht : expectType (ts ++ rest) = .ok (t, rest) := expectType_complete ⟨h, hl⟩ hr.unbanged
    have he : punctuator? '=' rest = none := hr '=' (by decide)
    simp only [finds, inputValue, name?, List.cons_append, expect_same, Except.ok_bind, ht, he]
    rfl
  | @default name ts us t v h hv =>
    have hl : t.levels ≤ maxLevels ∧ v.demand ≤ maxLevels := by
      simpa [InputValueDefinition.depth, deepest, Nat.max_le] using hl
    have ht : expectType (ts ++ .punctuator '=' :: (us ++ rest)) = .ok (t, .punctuator '=' :: (us ++ rest)) :=
      expectType_complete ⟨h, hl.1⟩ (follows_punctuator (by decide) _)
    have hv : expectValue (us ++ rest) = .ok (v, rest) := expectValue_complete ⟨hv, hl.2⟩ hr
    simp only [finds, inputValue, name?, List.cons_append, List.append_assoc, expect_same, Except.ok_bind,
      ht, punctuator?_same, hv]
    rfl

theorem arguments_none {rest : List Token} (h : punctuator? '(' rest = none) :
    arguments rest = .ok (none, rest) := by
  simp [arguments, h]

theorem arguments_complete : Complete (gives arguments) (within ArgumentsForm
    (fun a => deepest (InputValueDefinition.depth Value.demand) (items (a.getD []))) maxLevels)
    (Follows ['(']) := by
  rintro ts rest a ⟨h, hl⟩ hr
  cases h with
  | none => exact arguments_none (hr '(' (by decide))
  | some h =>
    obtain ⟨hm⟩ := block_within.2 ⟨h, hl⟩
    have hm := entries_complete inputValue_complete (InputForm.opened.within _ _) (show ')' ∉ _ by decide)
      (fun _ => rfl) hm rest
    simp only [gives, arguments, List.cons_append, List.append_assoc, List.nil_append, punctuator?_same, hm,
      Except.ok_bind, expect_same]
    rfl

theorem field_complete :
    Complete (finds field) (within FieldForm (FieldDefinition.depth Value.demand) maxLevels) Ended := by
  rintro _ rest _ ⟨@⟨name, ts, us, a, t, ha, ht⟩, hl⟩ hr
  obtain ⟨htl, hal⟩ := by simpa only [FieldDefinition.depth, Nat.max_le] using hl
  have ha : arguments (ts ++ .punctuator ':' :: (us ++ rest)) = .ok (a, .punctuator ':' :: (us ++ rest)) :=
    arguments_complete ⟨ha, hal⟩ (follows_punctuator (by decide) _)
  have ht : expectType (us ++ rest) = .ok (t, rest) := expectType_complete ⟨ht, htl⟩ hr.unbanged
  simp only [finds, field, name?, List.cons_append, List.append_assoc, ha, Except.ok_bind, expect_same, ht]
  rfl

theorem anotherInterface_complete : Complete (finds anotherInterface) InterfaceForm fun _ => True := by
  intro ts rest name h _
  cases h <;> rfl

theorem interfaces_complete {ts : List Token} {names : List String} (h : InterfacesForm ts names)
    (rest : List Token) :
    interfaces (ts ++ .punctuator '{' :: rest) = .ok (names, .punctuator '{' :: rest) := by
  cases h with
  | none => rfl
  | @some ts us name names first others =>
    have hf : require (.expected Pattern.name.description) anotherInterface
        (ts ++ (us ++ .punctuator '{' :: rest)) = .ok (name, us ++ .punctuator '{' :: rest) :=
      require_complete _ anotherInterface_complete first trivial
    have ho : many anotherInterface (us ++ .punctuator '{' :: rest) = .ok (names, .punctuator '{' :: rest) :=
      many_complete anotherInterface_complete (fun _ _ h => by cases h <;> simp) (fun _ _ _ _ => trivial)
        others ⟨trivial, rfl⟩
    simp only [interfaces, List.cons_append, List.append_assoc, hf, Except.ok_bind, ho]
    rfl

theorem anotherMember_complete : Complete (finds anotherMember) UnionMemberForm fun _ => True := by
  rintro _ rest _ ⟨name⟩ -
  rfl

theorem unionMembers_complete {ts rest : List Token} {names : List String} (h : Many UnionMemberForm ts names)
    (hr : Follows ['|'] rest) : many anotherMember (ts ++ rest) = .ok (names, rest) := by
  have hstop : anotherMember rest = .ok none := by
    have : punctuator? '|' rest = none := hr '|' (by decide)
    simp [anotherMember, this]
  exact many_complete anotherMember_complete (fun _ _ h => by cases h; simp) (fun _ _ _ _ => trivial) h
    ⟨trivial, hstop⟩

theorem fields_complete {ts : List Token} {fields : List (Member FieldDefinition)}
    (h : Block '{' '}' FieldForm ts fields)
    (hl : deepest (FieldDefinition.depth Value.demand) (items fields) ≤ maxLevels) (rest : List Token) :
    body field (ts ++ rest) = .ok (fields, rest) :=
  body_complete field_complete (FieldForm.opened.within _ _) (fun _ => rfl) (block_within.2 ⟨h, hl⟩) rest

theorem objectDefinition_complete {ts : List Token} {d : ObjectDefinition} (h : ObjectForm ts d)
    (hl : deepest (FieldDefinition.depth Value.demand) (items d.fields) ≤ maxLevels) (rest : List Token) :
    ∃ us, ts = .name "type" :: us ∧ objectDefinition (us ++ rest) = .ok (d, rest) := by
  obtain @⟨name, ts, us, names, fields, hi, hf⟩ := h
  refine ⟨_, rfl, ?_⟩
  have hb := fields_complete hf hl rest
  obtain ⟨hm⟩ := hf
  have hi := interfaces_complete hi
  simp only [List.cons_append, List.append_assoc, List.nil_append] at hb
  simp only [objectDefinition, expectName_same, List.cons_append, List.append_assoc, List.nil_append,
    Except.ok_bind, hi, hb]
  rfl

theorem interfaceDefinition_complete (name : String) {ts : List Token} {fields : List (Member FieldDefinition)}
    (h : Block '{' '}' FieldForm ts fields)
    (hl : deepest (FieldDefinition.depth Value.demand) (items fields) ≤ maxLevels) (rest : List Token) :
    interfaceDefinition (.name name :: (ts ++ rest)) = .ok (⟨name, fields⟩, rest) := by
  simp only [interfaceDefinition, expectName_same, Except.ok_bind, fields_complete h hl]
  rfl

theorem unionDefinition_complete (name first : String) {ts rest : List Token} {others : List String}
    (h : Many UnionMemberForm ts others) (hr : Follows ['|'] rest) :
    unionDefinition (.name name :: .punctuator '=' :: .name first :: (ts ++ rest)) =
      .ok (⟨name, first :: others⟩, rest) := by
  simp only [unionDefinition, expectName_same, Except.ok_bind, expect_same, unionMembers_complete h hr]
  rfl

theorem enumDefinition_complete (name : String) {ts : List Token} {values : List (Member String)}
    (h : Block '{' '}' NameForm ts values) (rest : List Token) :
    enumDefinition (.name name :: (ts ++ rest)) = .ok (⟨name, values⟩, rest) := by
  have hname : Complete (finds fun input => .ok (name? input)) NameForm Ended := by
    rintro _ rest _ ⟨name⟩ -
    rfl
  have hb := body_complete hname NameForm.opened (fun _ => rfl) h rest
  simp only [enumDefinition, expectName_same, Except.ok_bind, hb]
  rfl

theorem inputObjectDefinition_complete (name : String) {ts : List Token}
    {fields : List (Member InputValueDefinition)} (h : Block '{' '}' InputForm ts fields)
    (hl : deepest (InputValueDefinition.depth Value.demand) (items fields) ≤ maxLevels) (rest : List Token) :
    inputObjectDefinition (.name name :: (ts ++ rest)) = .ok (⟨name, fields⟩, rest) := by
  have hb : body inputValue (ts ++ rest) = .ok (fields, rest) :=
    body_complete inputValue_complete (InputForm.opened.within _ _) (fun _ => rfl) (block_within.2 ⟨h, hl⟩) rest
  simp only [inputObjectDefinition, expectName_same, Except.ok_bind, hb]
  rfl

theorem definition_reads {ts rest : List Token} {d : TypeDefinition} (hd : Definitions ts d)
    (hr : ∀ u, d = .union u → Follows ['|'] rest) : definition (ts ++ rest) = .ok (some (d, rest)) := by
  obtain ⟨h, hl⟩ := hd
  cases h with
  | object h =>
    obtain ⟨us, rfl, ho⟩ := objectDefinition_complete h hl rest
    exact defining_eq_ok.2 ⟨_, ho, rfl⟩
  | extension h =>
    obtain ⟨us, rfl, ho⟩ := objectDefinition_complete h hl rest
    exact defining_eq_ok.2 ⟨_, ho, rfl⟩
  | interface name h => exact defining_eq_ok.2 ⟨_, interfaceDefinition_complete name h hl rest, rfl⟩
  | union name first h => exact defining_eq_ok.2 ⟨_, unionDefinition_complete name first h (hr _ rfl), rfl⟩
  | scalar name => rfl
  | enum name h => exact defining_eq_ok.2 ⟨_, enumDefinition_complete name h rest, rfl⟩
  | inputObject name h => exact defining_eq_ok.2 ⟨_, inputObjectDefinition_complete name h hl rest, rfl⟩

theorem definition_complete : Complete (finds definition) Definitions Ended :=
  fun _ _ _ hd hr => definition_reads hd fun _ _ => hr.unjoined

theorem document_complete {ts : List Token} {d : Document} (h : DocumentForm ts d)
    (hl : d.demand ≤ maxLevels) : document ts = .ok d := by
  obtain ⟨h⟩ := h
  have ho : Opened Definitions := DefinitionForm.opened.within _ _
  have hm : many (member definition) (ts ++ []) = .ok (_, []) :=
    many_complete (member_complete definition_complete ho) (fun _ _ => ho.entry_ne_nil)
      (fun _ _ us he => ended_entry ho he us) (many_within.2 ⟨h, hl⟩) ⟨ended_nil, rfl⟩
  rw [List.append_nil] at hm
  simp only [document, hm, Except.ok_bind]
  rfl

theorem document_eq_ok_iff {ts : List Token} {d : Document} :
    document ts = .ok d ↔ DocumentForm ts d ∧ d.demand ≤ maxLevels :=
  ⟨document_sound, fun h => document_complete h.1 h.2⟩

end Schemata.Grammar
