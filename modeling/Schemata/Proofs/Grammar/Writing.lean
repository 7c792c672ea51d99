import Schemata.Proofs.Document.WellFormed
import Schemata.Proofs.Grammar.Acceptance

namespace Schemata.Grammar

variable {α : Type} {p : Form α} {q : α → Prop} {ts us : List Token}

def Written (ts : List Token) : Prop := ∀ t ∈ ts, t.WellFormed

@[simp] theorem written_nil : Written [] := nofun

@[simp] theorem written_cons {t : Token} : Written (t :: ts) ↔ t.WellFormed ∧ Written ts := List.forall_mem_cons

@[simp] theorem written_append : Written (ts ++ us) ↔ Written ts ∧ Written us := List.forall_mem_append

@[simp] theorem name_wellFormed {name : String} : (Token.name name).WellFormed ↔ IsName name := Iff.rfl

@[simp] theorem punctuator_wellFormed {c : Char} : (Token.punctuator c).WellFormed ↔ isPunctuator c := Iff.rfl

def Writable (p : Form α) (a : α) : Prop := ∃ ts, Written ts ∧ p ts a

theorem writable_many_iff (h : ∀ a, Writable p a ↔ q a) {as : List α} : Writable (Many p) as ↔ ∀ a ∈ as, q a := by
  induction as with
  | nil => exact iff_of_true ⟨[], written_nil, .nil⟩ nofun
  | cons a as ih =>
    rw [List.forall_mem_cons, ← ih, ← h]
    constructor
    · rintro ⟨_, ht, hm⟩
      cases hm with
      | @cons ts us _ _ first others =>
        obtain ⟨hts, hus⟩ := written_append.1 ht
        exact ⟨⟨ts, hts, first⟩, us, hus, others⟩
    · rintro ⟨⟨ts, hts, first⟩, us, hus, others⟩
      exact ⟨ts ++ us, written_append.2 ⟨hts, hus⟩, .cons first others⟩

theorem writable_entry_iff (h : ∀ a, Writable p a ↔ q a) (m : Member α) : Writable (Entry p) m ↔ m.WellFormed q := by
  constructor
  · rintro ⟨ts, ht, hm⟩
    cases hm with
    | comment text => exact (written_cons.1 ht).1
    | item hp => exact (h _).1 ⟨ts, ht, hp⟩
  · intro hm
    cases m with
    | comment c =>
      have written : Written [.comment c.text] := written_cons.2 ⟨hm, written_nil⟩
      exact ⟨_, written, .comment c.text⟩
    | item a =>
      obtain ⟨ts, ht, hp⟩ := (h a).2 hm
      exact ⟨ts, ht, .item hp⟩

theorem writable_block_iff {opening closing : Char} (ho : isPunctuator opening) (hc : isPunctuator closing)
    (h : ∀ a, Writable p a ↔ q a) {members : List (Member α)} :
    Writable (Block opening closing p) members ↔ ∀ m ∈ members, m.WellFormed q := by
  rw [← writable_many_iff (writable_entry_iff h)]
  constructor
  · rintro ⟨_, ht, ⟨hm⟩⟩
    simp only [written_cons, written_append] at ht
    exact ⟨_, ht.2.1, hm⟩
  · rintro ⟨ts, ht, hm⟩
    exact ⟨_, by simp [ho, hc, ht], .mk hm⟩

theorem writable_name_iff (name : String) : Writable NameForm name ↔ IsName name := by
  constructor
  · rintro ⟨_, ht, ⟨⟩⟩
    simpa using ht
  · intro h
    exact ⟨_, by simp [h], .mk name⟩

theorem writable_bareType_iff {t : TypeRef} :
    Writable BareTypeForm t ↔ (∀ inner, t ≠ .nonNull inner) ∧ Writable TypeForm t := by
  constructor
  · rintro ⟨ts, ht, h⟩
    refine ⟨?_, ts, ht, .bare h⟩
    rintro inner rfl
    cases h
  · rintro ⟨hn, ts, ht, h⟩
    cases h with
    | bare h => exact ⟨ts, ht, h⟩
    | nonNull h => exact absurd rfl (hn _)

theorem writable_type_iff (t : TypeRef) : Writable TypeForm t ↔ t.WellFormed := by
  induction t with
  | named name =>
    rw [TypeRef.WellFormed]
    constructor
    · rintro ⟨_, ht, ⟨⟨⟩⟩⟩
      simpa using ht
    · intro h
      exact ⟨_, by simp [h], .bare (.named name)⟩
  | list inner ih =>
    rw [TypeRef.WellFormed, ← ih]
    constructor
    · rintro ⟨_, ht, ⟨h⟩⟩
      cases h with
      | list h =>
        simp only [written_cons, written_append] at ht
        exact ⟨_, ht.2.1, h⟩
    · rintro ⟨ts, ht, h⟩
      exact ⟨_, by simp [ht, isPunctuator], .bare (.list h)⟩
  | nonNull inner ih =>
    rw [TypeRef.WellFormed, ← ih, ← writable_bareType_iff]
    constructor
    · rintro ⟨_, ht, h⟩
      cases h with
      | bare h => cases h
      | nonNull h => exact ⟨_, (written_append.1 ht).1, h⟩
    · rintro ⟨ts, ht, h⟩
      exact ⟨_, by simp [ht, isPunctuator], .nonNull h⟩

theorem writable_objectField_iff {p : Form Value} {q : Value → Prop} (h : ∀ v, Writable p v ↔ q v)
    (f : String × Value) : Writable (ObjectFieldForm p) f ↔ IsName f.1 ∧ q f.2 := by
  obtain ⟨name, v⟩ := f
  rw [← h]
  constructor
  · rintro ⟨_, ht, ⟨_, hv⟩⟩
    simp only [written_cons, name_wellFormed] at ht
    exact ⟨ht.1, _, ht.2.2, hv⟩
  · rintro ⟨hn, ts, ht, hv⟩
    exact ⟨_, by simp [show IsName name from hn, ht, isPunctuator], .mk name hv⟩

theorem writable_items_iff {opening closing : Char} (ho : isPunctuator opening) (hc : isPunctuator closing)
    (h : ∀ a, Writable p a ↔ q a) {as : List α} :
    (∃ members, items members = as ∧ Writable (Block opening closing p) members) ↔ ∀ a ∈ as, q a := by
  have block {members : List (Member α)} : Writable (Block opening closing p) members ↔ _ :=
    writable_block_iff ho hc h
  constructor
  · rintro ⟨members, rfl, hm⟩
    exact items_wellFormed (block.1 hm)
  · intro ha
    exact ⟨_, items_map_item as, block.2 (map_item_wellFormed ha)⟩

theorem writable_list_iff {vs : List Value} :
    Writable ValueForm (.list vs) ↔ ∀ v ∈ vs, Writable ValueForm v := by
  have block : (∃ members, items members = vs ∧ Writable (Block '[' ']' ValueForm) members) ↔ _ :=
    writable_items_iff rfl rfl fun _ => Iff.rfl
  rw [← block]
  constructor
  · rintro ⟨ts, ht, h⟩
    cases h with
    | list h => exact ⟨_, rfl, ts, ht, h⟩
  · rintro ⟨members, rfl, ts, ht, h⟩
    exact ⟨ts, ht, .list h⟩

theorem writable_object_iff {fields : List (String × Value)} :
    Writable ValueForm (.object fields) ↔ ∀ f ∈ fields, IsName f.1 ∧ Writable ValueForm f.2 := by
  have block : (∃ members, items members = fields ∧
      Writable (Block '{' '}' (ObjectFieldForm ValueForm)) members) ↔ _ :=
    writable_items_iff rfl rfl (writable_objectField_iff fun _ => Iff.rfl)
  rw [← block]
  constructor
  · rintro ⟨ts, ht, h⟩
    cases h with
    | object h => exact ⟨_, rfl, ts, ht, h⟩
  · rintro ⟨members, rfl, ts, ht, h⟩
    exact ⟨ts, ht, .object h⟩

theorem writable_number_iff {n : Number} : Writable ValueForm (.number n) ↔ n.WellFormed := by
  rw [Number.wellFormed_iff]
  constructor
  · rintro ⟨_, ht, h⟩
    cases h with
    | number h =>
      obtain ⟨m, hm, -, he⟩ := Number.read?_eq_some_iff.1 h
      exact ⟨m, hm, he⟩
  · rintro ⟨m, hm, rfl⟩
    have written : (Token.number (String.ofList m.text)).WellFormed := ⟨m, hm, String.toList_ofList⟩
    have read := Number.read?_eq_some_iff.2 ⟨m, hm, String.toList_ofList.symm, rfl⟩
    exact ⟨_, written_cons.2 ⟨written, written_nil⟩, .number read⟩

theorem writable_string_iff {text : String} : Writable ValueForm (.string text) ↔ '\n' ∉ text.toList := by
  constructor
  · rintro ⟨_, ht, h⟩
    cases h with
    | string lexeme =>
      obtain ⟨cs, hn, he⟩ : Pattern.string.Matches lexeme.toList := (written_cons.1 ht).1
      rwa [he, unquote_quote, String.toList_ofList]
  · intro h
    have written : (Token.string (String.ofList (quote text.toList))).WellFormed := ⟨_, h, String.toList_ofList⟩
    have value := ValueForm.string (String.ofList (quote text.toList))
    rw [String.toList_ofList, unquote_quote, String.ofList_toList] at value
    exact ⟨_, written_cons.2 ⟨written, written_nil⟩, value⟩

theorem writable_enum_iff {name : String} :
    Writable ValueForm (.enum name) ↔ IsName name ∧ name ≠ "true" ∧ name ≠ "false" := by
  constructor
  · rintro ⟨_, ht, h⟩
    cases h with
    | enum hn hf => exact ⟨(written_cons.1 ht).1, hn, hf⟩
  · rintro ⟨hn, ht, hf⟩
    exact ⟨_, by simp [hn], .enum ht hf⟩

theorem writable_boolean (b : Bool) : Writable ValueForm (.boolean b) := by
  have words : IsName "true" ∧ IsName "false" := by decide
  cases b with
  | false => exact ⟨_, by simp [words.2], .false⟩
  | true => exact ⟨_, by simp [words.1], .true⟩

mutual

theorem writable_value_iff : (v : Value) → (Writable ValueForm v ↔ v.WellFormed)
  | .boolean b => iff_of_true (writable_boolean b) trivial
  | .enum _ => writable_enum_iff
  | .number _ => writable_number_iff
  | .string _ => writable_string_iff
  | .list vs => writable_list_iff.trans (writable_values_iff vs)
  | .object fields => writable_object_iff.trans (writable_fields_iff fields)

theorem writable_values_iff : (vs : List Value) → ((∀ v ∈ vs, Writable ValueForm v) ↔ itemsWellFormed vs)
  | [] => by simp [itemsWellFormed]
  | v :: vs => by
    rw [List.forall_mem_cons, itemsWellFormed, writable_value_iff v, writable_values_iff vs]

theorem writable_fields_iff : (fields : List (String × Value)) →
    ((∀ f ∈ fields, IsName f.1 ∧ Writable ValueForm f.2) ↔ fieldsWellFormed fields)
  | [] => by simp [fieldsWellFormed]
  | (name, v) :: fields => by
    rw [List.forall_mem_cons, fieldsWellFormed, writable_value_iff v, writable_fields_iff fields]

end

theorem writable_input_iff (v : InputValueDefinition) : Writable InputForm v ↔ v.WellFormed := by
  constructor
  · rintro ⟨_, ht, h⟩
    cases h with
    | plain name h =>
      simp only [written_cons, name_wellFormed] at ht
      exact ⟨ht.1, (writable_type_iff _).1 ⟨_, ht.2.2, h⟩, nofun⟩
    | default name h hv =>
      simp only [written_cons, written_append, name_wellFormed] at ht
      obtain ⟨hn, -, ht, -, hus⟩ := ht
      have value := (writable_value_iff _).1 ⟨_, hus, hv⟩
      exact ⟨hn, (writable_type_iff _).1 ⟨_, ht, h⟩, fun _ hx => Option.some.inj hx ▸ value⟩
  · obtain ⟨name, type, defaultValue⟩ := v
    rintro ⟨hn, ht, hv⟩
    simp only at hn ht hv
    obtain ⟨ts, hts, ht⟩ := (writable_type_iff type).2 ht
    cases defaultValue with
    | none => exact ⟨_, by simp [hn, hts, isPunctuator], .plain name ht⟩
    | some v =>
      obtain ⟨us, hus, hv⟩ := (writable_value_iff v).2 (hv v rfl)
      exact ⟨_, by simp [hn, hts, hus, isPunctuator], .default name ht hv⟩

theorem writable_arguments_iff {arguments : Option (List (Member InputValueDefinition))} :
    Writable ArgumentsForm arguments ↔
      ∀ members ∈ arguments, ∀ m ∈ members, m.WellFormed InputValueDefinition.WellFormed := by
  have block (members : List (Member InputValueDefinition)) : Writable (Block '(' ')' InputForm) members ↔ _ :=
    writable_block_iff rfl rfl writable_input_iff
  constructor
  · rintro ⟨_, ht, h⟩ members hm
    cases h with
    | none => cases hm
    | some h =>
      obtain rfl := Option.some.inj hm
      exact (block _).1 ⟨_, ht, h⟩
  · intro h
    cases arguments with
    | none => exact ⟨[], written_nil, .none⟩
    | some members =>
      obtain ⟨ts, ht, hb⟩ := (block members).2 (h members rfl)
      exact ⟨ts, ht, .some hb⟩

theorem writable_field_iff (f : FieldDefinition) : Writable FieldForm f ↔ f.WellFormed := by
  constructor
  · rintro ⟨_, ht, h⟩
    obtain ⟨name, ha, h⟩ := h
    simp only [written_cons, written_append, name_wellFormed] at ht
    obtain ⟨hn, hts, -, hus⟩ := ht
    exact ⟨hn, writable_arguments_iff.1 ⟨_, hts, ha⟩, (writable_type_iff _).1 ⟨_, hus, h⟩⟩
  · obtain ⟨name, arguments, type⟩ := f
    rintro ⟨hn, ha, ht⟩
    simp only at hn ha ht
    obtain ⟨ts, hts, ha⟩ := writable_arguments_iff.2 ha
    obtain ⟨us, hus, ht⟩ := (writable_type_iff type).2 ht
    exact ⟨_, by simp [hn, hts, hus, isPunctuator], .mk name ha ht⟩

theorem writable_fields {fields : List (Member FieldDefinition)} :
    Writable (Block '{' '}' FieldForm) fields ↔ ∀ m ∈ fields, m.WellFormed FieldDefinition.WellFormed :=
  writable_block_iff rfl rfl writable_field_iff

theorem writable_interface_iff (name : String) : Writable InterfaceForm name ↔ IsName name := by
  constructor
  · rintro ⟨_, ht, h⟩
    cases h with
    | plain name => exact (written_cons.1 ht).1
    | joined name => exact (written_cons.1 (written_cons.1 ht).2).1
  · intro h
    exact ⟨_, by simp [h], .plain name⟩

theorem writable_interfaces_iff {names : List String} : Writable InterfacesForm names ↔ ∀ n ∈ names, IsName n := by
  rw [← writable_many_iff writable_interface_iff]
  constructor
  · rintro ⟨_, ht, h⟩
    cases h with
    | none => exact ⟨[], written_nil, .nil⟩
    | some first others => exact ⟨_, (written_cons.1 ht).2, .cons first others⟩
  · rintro ⟨ts, ht, h⟩
    cases h with
    | nil => exact ⟨[], written_nil, .none⟩
    | cons first others =>
      have word : IsName "implements" := by decide
      exact ⟨_, by simpa [word] using ht, .some first others⟩

theorem writable_object_definition_iff {d : ObjectDefinition} : Writable ObjectForm d ↔ d.WellFormed := by
  constructor
  · rintro ⟨_, ht, h⟩
    obtain ⟨name, hi, hf⟩ := h
    simp only [written_cons, written_append, name_wellFormed] at ht
    obtain ⟨-, hn, hts, hus⟩ := ht
    exact ⟨hn, writable_interfaces_iff.1 ⟨_, hts, hi⟩, writable_fields.1 ⟨_, hus, hf⟩⟩
  · obtain ⟨name, interfaces, fields⟩ := d
    rintro ⟨hn, hi, hf⟩
    simp only at hn hi hf
    obtain ⟨ts, hts, hi⟩ := writable_interfaces_iff.2 hi
    obtain ⟨us, hus, hf⟩ := writable_fields.2 hf
    have word : IsName "type" := by decide
    exact ⟨_, by simp [word, hn, hts, hus], .mk name hi hf⟩

theorem writable_unionMember_iff (name : String) : Writable UnionMemberForm name ↔ IsName name := by
  constructor
  · rintro ⟨_, ht, ⟨_⟩⟩
    exact (written_cons.1 (written_cons.1 ht).2).1
  · intro h
    exact ⟨_, by simp [h, isPunctuator], .mk name⟩

theorem writable_union_iff {d : UnionDefinition} : Writable DefinitionForm (.union d) ↔ d.WellFormed := by
  obtain ⟨name, members⟩ := d
  constructor
  · rintro ⟨_, ht, h⟩
    cases h with
    | union name first h =>
      simp only [written_cons, name_wellFormed] at ht
      obtain ⟨-, hn, -, hf, hts⟩ := ht
      have others := (writable_many_iff writable_unionMember_iff).1 ⟨_, hts, h⟩
      exact ⟨hn, List.cons_ne_nil _ _, List.forall_mem_cons.2 ⟨hf, others⟩⟩
  · rintro ⟨hn, hne, hm⟩
    simp only at hn hne hm
    obtain ⟨first, others, rfl⟩ := List.exists_cons_of_ne_nil hne
    obtain ⟨hf, hm⟩ := List.forall_mem_cons.1 hm
    obtain ⟨ts, hts, h⟩ := (writable_many_iff writable_unionMember_iff).2 hm
    have word : IsName "union" := by decide
    exact ⟨_, by simp [word, hn, hf, hts, isPunctuator], .union name first h⟩

theorem writable_headed_iff {keyword name : String} (hk : IsName keyword) {a : α} {t : TypeDefinition}
    (h : ∀ ts, DefinitionForm ts t ↔ ∃ body, ts = .name keyword :: .name name :: body ∧ p body a) :
    Writable DefinitionForm t ↔ IsName name ∧ Writable p a := by
  constructor
  · rintro ⟨ts, ht, hd⟩
    obtain ⟨body, rfl, hp⟩ := (h ts).1 hd
    simp only [written_cons, name_wellFormed] at ht
    exact ⟨ht.2.1, body, ht.2.2, hp⟩
  · rintro ⟨hn, body, hb, hp⟩
    exact ⟨_, by simp [hk, hn, hb], (h _).2 ⟨body, rfl, hp⟩⟩

theorem writable_interfaceDefinition_iff {d : InterfaceDefinition} :
    Writable DefinitionForm (.interface d) ↔ d.WellFormed := by
  obtain ⟨name, fields⟩ := d
  have form (ts : List Token) : DefinitionForm ts (.interface ⟨name, fields⟩) ↔
      ∃ body, ts = .name "interface" :: .name name :: body ∧ Block '{' '}' FieldForm body fields := by
    constructor
    · intro h
      cases h with
      | interface name h => exact ⟨_, rfl, h⟩
    · rintro ⟨body, rfl, h⟩
      exact .interface name h
  rw [writable_headed_iff (by decide) form, writable_fields]
  exact ⟨fun h => ⟨h.1, h.2⟩, fun h => ⟨h.name, h.fields⟩⟩

theorem writable_enumDefinition_iff {d : EnumDefinition} : Writable DefinitionForm (.enum d) ↔ d.WellFormed := by
  obtain ⟨name, values⟩ := d
  have form (ts : List Token) : DefinitionForm ts (.enum ⟨name, values⟩) ↔
      ∃ body, ts = .name "enum" :: .name name :: body ∧ Block '{' '}' NameForm body values := by
    constructor
    · intro h
      cases h with
      | enum name h => exact ⟨_, rfl, h⟩
    · rintro ⟨body, rfl, h⟩
      exact .enum name h
  rw [writable_headed_iff (by decide) form, writable_block_iff rfl rfl writable_name_iff]
  exact ⟨fun h => ⟨h.1, h.2⟩, fun h => ⟨h.name, h.values⟩⟩

theorem writable_inputObject_iff {d : InputObjectDefinition} :
    Writable DefinitionForm (.inputObject d) ↔ d.WellFormed := by
  obtain ⟨name, fields⟩ := d
  have form (ts : List Token) : DefinitionForm ts (.inputObject ⟨name, fields⟩) ↔
      ∃ body, ts = .name "input" :: .name name :: body ∧ Block '{' '}' InputForm body fields := by
    constructor
    · intro h
      cases h with
      | inputObject name h => exact ⟨_, rfl, h⟩
    · rintro ⟨body, rfl, h⟩
      exact .inputObject name h
  rw [writable_headed_iff (by decide) form, writable_block_iff rfl rfl writable_input_iff]
  exact ⟨fun h => ⟨h.1, h.2⟩, fun h => ⟨h.name, h.fields⟩⟩

theorem writable_definition_iff (t : TypeDefinition) : Writable DefinitionForm t ↔ t.WellFormed := by
  cases t with
  | interface d => exact writable_interfaceDefinition_iff
  | union d => exact writable_union_iff
  | enum d => exact writable_enumDefinition_iff
  | inputObject d => exact writable_inputObject_iff
  | object d =>
    rw [TypeDefinition.WellFormed, ← writable_object_definition_iff]
    constructor
    · rintro ⟨ts, ht, h⟩
      cases h with
      | object h => exact ⟨ts, ht, h⟩
    · rintro ⟨ts, ht, h⟩
      exact ⟨ts, ht, .object h⟩
  | extension d =>
    rw [TypeDefinition.WellFormed, ← writable_object_definition_iff]
    constructor
    · rintro ⟨_, ht, h⟩
      cases h with
      | extension h => exact ⟨_, (written_cons.1 ht).2, h⟩
    · rintro ⟨ts, ht, h⟩
      have word : IsName "extend" := by decide
      exact ⟨_, by simp [word, ht], .extension h⟩
  | scalar d =>
    constructor
    · rintro ⟨_, ht, h⟩
      cases h with
      | scalar name => exact (written_cons.1 (written_cons.1 ht).2).1
    · intro h
      have hn : IsName d.name := h
      have word : IsName "scalar" := by decide
      exact ⟨_, by simp [word, hn], .scalar d.name⟩

theorem writable_document_iff {d : Document} : Writable DocumentForm d ↔ d.WellFormed := by
  rw [Document.WellFormed, ← writable_many_iff (writable_entry_iff writable_definition_iff)]
  constructor
  · rintro ⟨ts, ht, ⟨h⟩⟩
    exact ⟨ts, ht, h⟩
  · rintro ⟨ts, ht, h⟩
    exact ⟨ts, ht, .mk h⟩

end Schemata.Grammar
