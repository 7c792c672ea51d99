import Schemata.Proofs.Grammar.Completeness

namespace Schemata.Grammar

open Schemata.Parser

variable {α β : Type} {p : Form α} {measure : α → Nat} {n : Nat}

def TooDeep (x : Reading α) : Prop := ∃ f, x = .error f ∧ f.cause = .nestedTooDeep

def Overruns (read : List Token → Reading β) (p : Form α) (measure : α → Nat) (n : Nat) : Prop :=
  ∀ ⦃ts : List Token⦄ ⦃a : α⦄, p ts a → n < measure a → ∀ rest, TooDeep (read (ts ++ rest))

namespace TooDeep

theorem fail (input : List Token) : TooDeep (Parser.fail .nestedTooDeep input : Reading α) := ⟨_, rfl, rfl⟩

theorem bind {x : Reading α} (h : TooDeep x) (f : α → Reading β) : TooDeep (x >>= f) := by
  obtain ⟨e, rfl, he⟩ := h
  exact ⟨e, rfl, he⟩

theorem nested {read : OptionalReader α} {input : List Token} (h : TooDeep (read input)) :
    TooDeep (nested read input) := by
  obtain ⟨e, he, hc⟩ := h
  rw [Parser.nested, he]
  exact ⟨_, rfl, hc⟩

theorem many {item : OptionalReader α} {input : List Token} (h : TooDeep (item input)) :
    TooDeep (many item input) := by
  obtain ⟨e, he, hc⟩ := h
  rw [Parser.many, he]
  exact ⟨e, rfl, hc⟩

theorem many_cons {item : OptionalReader α} {input rest : List Token} {a : α}
    (hi : item input = .ok (some (a, rest))) (hl : rest.length < input.length) (h : TooDeep (Parser.many item rest)) :
    TooDeep (Parser.many item input) := by
  rw [Parser.many, hi]
  simp only [hl, if_true]
  exact h.bind _

theorem member {item : OptionalReader α} {t : Token} {ts : List Token} (ht : ∀ text, t ≠ .comment text)
    (h : TooDeep (item (t :: ts))) : TooDeep (member item (t :: ts)) := by
  rw [Parser.member]
  · exact h.bind _
  · intro text _ he
    exact ht text (List.cons.inj he).1

end TooDeep

theorem require_overruns (cause : Cause) {read : OptionalReader α} (h : Overruns read p measure n) :
    Overruns (require cause read) p measure n :=
  fun _ _ hp hn rest => (h hp hn rest).bind _

/-- The entries before the one that is too deep are read. If none is, the end of the list may be too deep for
another try. -/
theorem entries_overrun {item : OptionalReader α} (hc : Complete (finds item) (within p measure n) Ended)
    (hx : Overruns item p measure n) (ho : Opened p) {ts rest : List Token} {members : List (Member α)}
    (hm : Many (Entry p) ts members) (hr : Ended rest)
    (h : n < deepest measure (items members) ∨ TooDeep (member item rest)) :
    TooDeep (many (member item) (ts ++ rest)) := by
  induction hm with
  | nil => exact (h.resolve_left (Nat.not_lt_zero n)).many
  | @cons ts us m members first others ih =>
    rw [List.append_assoc]
    have hfollow : Ended (us ++ rest) := by
      cases others with
      | nil => exact hr
      | cons second _ =>
        rw [List.append_assoc]
        exact ended_entry ho second _
    have hlen : (us ++ rest).length < (ts ++ (us ++ rest)).length := by
      have := List.length_pos_iff.2 (ho.entry_ne_nil first)
      simp only [List.length_append]
      omega
    have read (hf : Entry (within p measure n) ts m) :
        member item (ts ++ (us ++ rest)) = .ok (some (m, us ++ rest)) :=
      member_complete hc (ho.within measure n) hf hfollow
    cases first with
    | comment text => exact (ih h).many_cons (read (.comment text)) hlen
    | @item ts a hp =>
      by_cases ha : measure a ≤ n
      · have rest_deep : n < deepest measure (items members) ∨ TooDeep (member item rest) := by
          apply h.imp_left
          simp only [items, List.filterMap_cons, Member.item?, deepest]
          omega
        exact (ih rest_deep).many_cons (read (.item ⟨hp, ha⟩)) hlen
      · have deep := hx hp (Nat.lt_of_not_le ha) (us ++ rest)
        obtain ⟨t, ts', rfl, ht⟩ := ho hp
        have no_comment : ∀ text, t ≠ .comment text := by
          rintro text rfl
          cases ht
        exact (TooDeep.member no_comment deep).many

theorem body_overruns {item : OptionalReader α} (hc : Complete (finds item) (within p measure n) Ended)
    (hx : Overruns item p measure n) (ho : Opened p) :
    Overruns (body item) (Block '{' '}' p) (fun members => deepest measure (items members)) n := by
  rintro _ members ⟨hm⟩ hn rest
  have deep := entries_overrun hc hx ho hm (follows_punctuator (show '}' ∉ _ by decide) rest) (.inl hn)
  simp only [body, List.cons_append, List.append_assoc, List.nil_append, expect_same, Except.ok_bind]
  exact deep.bind _

theorem type?_overruns (n : Nat) : Overruns (type? n) TypeForm TypeRef.levels n := by
  induction n with
  | zero => exact fun ts _ _ _ rest => .fail (ts ++ rest)
  | succ n ih =>
    have bare {ts : List Token} {t : TypeRef} (h : BareTypeForm ts t) (hn : n + 1 < t.levels) (rest : List Token) :
        TooDeep (type? (n + 1) (ts ++ rest)) := by
      rw [type?]
      apply TooDeep.nested
      cases h with
      | named name => simp [TypeRef.levels] at hn
      | @list ts t h =>
        have deep := require_overruns (.expected "Type") ih h (Nat.lt_of_succ_lt_succ hn)
        simp only [List.cons_append, List.append_assoc]
        exact (deep _).bind _
    intro ts t h hn rest
    cases h with
    | bare h => exact bare h hn rest
    | nonNull h =>
      rw [List.append_assoc]
      exact bare h hn _

theorem objectField_overruns {value : OptionalReader Value} {p : Form Value} {measure : Value → Nat}
    (h : Overruns value p measure n) :
    Overruns (objectField value) (ObjectFieldForm p) (fun f => measure f.2) n := by
  rintro _ _ ⟨name, hp⟩ hn rest
  have deep := require_overruns (.expected "Value") h hp hn rest
  simp only [objectField, name?, List.cons_append, expect_same, Except.ok_bind]
  exact deep.bind _

theorem value?_overruns (n : Nat) : Overruns (value? n) ValueForm Value.demand n := by
  induction n with
  | zero => exact fun ts _ _ _ rest => .fail (ts ++ rest)
  | succ n ih =>
    intro ts v h hn rest
    rw [value?]
    apply TooDeep.nested
    cases h with
    | @list ts members h =>
      obtain ⟨hm⟩ := h
      simp only [Value.demand, itemDemand_eq] at hn
      have last : n < deepest Value.demand (items members) ∨
          TooDeep (member (value? n) (.punctuator ']' :: rest)) := by
        by_cases hz : n = 0
        · -- The list may be empty: then it is the try for its first element that is too deep.
          subst hz
          have no_comment : ∀ text, .punctuator ']' ≠ Token.comment text := fun _ he => Token.noConfusion he
          exact .inr (.member no_comment (.fail _))
        · left
          omega
      have deep := entries_overrun (value?_complete n) ih ValueForm.opened hm
        (follows_punctuator (show ']' ∉ _ by decide) rest) last
      simp only [List.cons_append, List.append_assoc, List.nil_append]
      exact deep.bind _
    | @object ts members h =>
      obtain ⟨hm⟩ := h
      simp only [Value.demand, fieldDemand_eq] at hn
      have field : Complete (finds (objectField (value? n)))
          (within (ObjectFieldForm ValueForm) (fun f => f.2.demand) n) Ended :=
        fun _ _ _ hp => objectField_complete (value?_complete n) (objectField_within.2 hp)
      have deep := entries_overrun field (objectField_overruns ih) (ObjectFieldForm.opened _) hm
        (follows_punctuator (show '}' ∉ _ by decide) rest) (.inl (by omega))
      simp only [List.cons_append, List.append_assoc, List.nil_append]
      exact deep.bind _
    | _ => simp [Value.demand] at hn

theorem expectType_overruns : Overruns expectType TypeForm TypeRef.levels maxLevels :=
  require_overruns _ (type?_overruns maxLevels)

theorem expectValue_overruns : Overruns expectValue ValueForm Value.demand maxLevels :=
  require_overruns _ (value?_overruns maxLevels)

theorem inputValue_overruns :
    Overruns inputValue InputForm (InputValueDefinition.depth Value.demand) maxLevels := by
  intro ts d h hn rest
  cases h with
  | @plain name ts t h =>
    have ht : maxLevels < t.levels := by simpa [InputValueDefinition.depth, deepest] using hn
    simp only [inputValue, name?, List.cons_append, expect_same, Except.ok_bind]
    exact (expectType_overruns h ht rest).bind _
  | @default name ts us t v h hv =>
    simp only [inputValue, name?, List.cons_append, List.append_assoc, expect_same, Except.ok_bind]
    by_cases ht : t.levels ≤ maxLevels
    · have hd : maxLevels < v.demand := by
        simp only [InputValueDefinition.depth, Option.toList_some, deepest] at hn
        omega
      have read : expectType (ts ++ .punctuator '=' :: (us ++ rest)) =
          .ok (t, .punctuator '=' :: (us ++ rest)) :=
        expectType_complete ⟨h, ht⟩ (follows_punctuator (by decide) _)
      simp only [read, Except.ok_bind, punctuator?_same]
      exact (expectValue_overruns hv hd rest).bind _
    · exact (expectType_overruns h (Nat.lt_of_not_le ht) _).bind _

theorem arguments_overruns : Overruns arguments ArgumentsForm
    (fun a => deepest (InputValueDefinition.depth Value.demand) (items (a.getD []))) maxLevels := by
  intro ts a h hn rest
  cases h with
  | none => simp [items, deepest] at hn
  | some h =>
    obtain ⟨hm⟩ := h
    have deep := entries_overrun inputValue_complete inputValue_overruns InputForm.opened hm
      (follows_punctuator (show ')' ∉ _ by decide) rest) (.inl hn)
    simp only [arguments, List.cons_append, List.append_assoc, List.nil_append, punctuator?_same]
    exact deep.bind _

theorem field_overruns : Overruns field FieldForm (FieldDefinition.depth Value.demand) maxLevels := by
  rintro _ _ @⟨name, ts, us, a, t, ha, ht⟩ hn rest
  simp only [FieldDefinition.depth] at hn
  simp only [field, name?, List.cons_append, List.append_assoc]
  by_cases hd : deepest (InputValueDefinition.depth Value.demand) (items (a.getD [])) ≤ maxLevels
  · have read : arguments (ts ++ .punctuator ':' :: (us ++ rest)) = .ok (a, .punctuator ':' :: (us ++ rest)) :=
      arguments_complete ⟨ha, hd⟩ (follows_punctuator (by decide) _)
    simp only [read, Except.ok_bind, expect_same]
    exact (expectType_overruns ht (by omega) rest).bind _
  · exact (arguments_overruns ha (Nat.lt_of_not_le hd) _).bind _

theorem fields_overrun : Overruns (body field) (Block '{' '}' FieldForm)
    (fun fields => deepest (FieldDefinition.depth Value.demand) (items fields)) maxLevels :=
  body_overruns field_complete field_overruns FieldForm.opened

theorem objectDefinition_overruns {ts : List Token} {d : ObjectDefinition} (h : ObjectForm ts d)
    (hn : maxLevels < deepest (FieldDefinition.depth Value.demand) (items d.fields)) (rest : List Token) :
    ∃ us, ts = .name "type" :: us ∧ TooDeep (objectDefinition (us ++ rest)) := by
  obtain @⟨name, ts, us, names, fields, hi, hf⟩ := h
  refine ⟨_, rfl, ?_⟩
  have deep := fields_overrun hf hn rest
  obtain ⟨hm⟩ := hf
  simp only [List.cons_append, List.append_assoc, List.nil_append] at deep
  simp only [objectDefinition, expectName_same, List.cons_append, List.append_assoc, List.nil_append,
    Except.ok_bind, interfaces_complete hi]
  exact deep.bind _

theorem defining_tooDeep {make : α → TypeDefinition} {read : Reader α} {input : List Token}
    (h : TooDeep (read input)) : TooDeep (defining make read input) := by
  obtain ⟨e, he, hc⟩ := h
  rw [defining, he]
  exact ⟨e, rfl, hc⟩

theorem definition_overruns :
    Overruns definition DefinitionForm (TypeDefinition.depth Value.demand) maxLevels := by
  intro ts d h hn rest
  cases h with
  | object h =>
    obtain ⟨us, rfl, deep⟩ := objectDefinition_overruns h hn rest
    exact defining_tooDeep deep
  | extension h =>
    obtain ⟨us, rfl, deep⟩ := objectDefinition_overruns h hn rest
    exact defining_tooDeep deep
  | interface name h =>
    apply defining_tooDeep
    exact (fields_overrun h hn rest).bind _
  | inputObject name h =>
    apply defining_tooDeep
    exact (body_overruns inputValue_complete inputValue_overruns InputForm.opened h hn rest).bind _
  | union name first h => cases hn
  | scalar name => cases hn
  | enum name h => cases hn

theorem document_overruns {ts : List Token} {d : Document} (h : DocumentForm ts d) (hn : maxLevels < d.demand) :
    TooDeep (document ts) := by
  obtain ⟨h⟩ := h
  have deep := entries_overrun definition_complete definition_overruns DefinitionForm.opened h ended_nil (.inl hn)
  rw [List.append_nil] at deep
  exact deep.bind _

end Schemata.Grammar
