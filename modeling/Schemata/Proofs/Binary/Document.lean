import Schemata.Binary.Document
import Schemata.Proofs.Binary.Codec

namespace Schemata

open Binary

variable {α : Type}

def TypeRef.Fits (t : TypeRef) : Prop := TextFits t.innermostName

mutual

def Value.Fits : Value → Prop
  | .boolean _ | .number _ => True
  | .enum text | .string text => TextFits text
  | .list items => items.length < sizeLimit ∧ itemsFit items
  | .object fields => fields.length < sizeLimit ∧ fieldsFit fields

def itemsFit : List Value → Prop
  | [] => True
  | item :: items => item.Fits ∧ itemsFit items

def fieldsFit : List (String × Value) → Prop
  | [] => True
  | (name, value) :: fields => (TextFits name ∧ value.Fits) ∧ fieldsFit fields

end

def Comment.Fits (c : Comment) : Prop := TextFits c.text

def Member.Fits (fits : α → Prop) : Member α → Prop
  | comment c => c.Fits
  | item a => fits a

structure InputValueDefinition.Fits (v : InputValueDefinition) : Prop where
  name : TextFits v.name
  type : v.type.Fits
  defaultValue : ∀ x ∈ v.defaultValue, x.Fits

structure FieldDefinition.Fits (f : FieldDefinition) : Prop where
  name : TextFits f.name
  arguments : ∀ members ∈ f.arguments, ListFits (Member.Fits InputValueDefinition.Fits) members
  type : f.type.Fits

structure ObjectDefinition.Fits (d : ObjectDefinition) : Prop where
  name : TextFits d.name
  interfaces : ListFits TextFits d.interfaces
  fields : ListFits (Member.Fits FieldDefinition.Fits) d.fields

structure InterfaceDefinition.Fits (d : InterfaceDefinition) : Prop where
  name : TextFits d.name
  fields : ListFits (Member.Fits FieldDefinition.Fits) d.fields

structure UnionDefinition.Fits (d : UnionDefinition) : Prop where
  name : TextFits d.name
  members : ListFits TextFits d.members

structure EnumDefinition.Fits (d : EnumDefinition) : Prop where
  name : TextFits d.name
  values : ListFits (Member.Fits TextFits) d.values

structure InputObjectDefinition.Fits (d : InputObjectDefinition) : Prop where
  name : TextFits d.name
  fields : ListFits (Member.Fits InputValueDefinition.Fits) d.fields

def TypeDefinition.Fits : TypeDefinition → Prop
  | object d | extension d => d.Fits
  | interface d => d.Fits
  | union d => d.Fits
  | scalar d => TextFits d.name
  | enum d => d.Fits
  | inputObject d => d.Fits

/-- No text of the document takes 2 ^ 64 bytes or more, and no list has as many elements. -/
def Document.Fits (d : Document) : Prop := ListFits (Member.Fits TypeDefinition.Fits) d.definitions

theorem itemsFit_iff {items : List Value} : itemsFit items ↔ ∀ item ∈ items, item.Fits := by
  induction items with
  | nil => simp [itemsFit]
  | cons item items ih => rw [itemsFit, ih, List.forall_mem_cons]

theorem fieldsFit_iff {fields : List (String × Value)} :
    fieldsFit fields ↔ ∀ f ∈ fields, TextFits f.1 ∧ f.2.Fits := by
  induction fields with
  | nil => simp [fieldsFit]
  | cons f fields ih => rw [fieldsFit, ih, List.forall_mem_cons]

namespace Binary.Codec

@[simp] theorem read_tag {n : Nat} (h : n < 251) (rest : Bytes) : tag.read (tag.write n ++ rest) = some (n, rest) :=
  tag_restores n h rest

@[simp] theorem tag_length {n : Nat} (h : n < 251) : (tag.write n).length = 1 := by
  simp [tag, writeVarint, h]

theorem number_restores : number.Restores fun _ => True := by
  rintro n - rest
  cases n with
  | int value => simp [number, int64_restores value trivial]
  | float value => simp [number, binary64_restores value trivial]

theorem readType_writeType {bound : Nat} {t : TypeRef} (h : t.Fits) (hb : (writeType t).length ≤ bound) (rest : Bytes) :
    readType bound (writeType t ++ rest) = some (t, rest) := by
  -- The tag of each level is a byte, so a bound on the bytes is one on the levels.
  induction bound generalizing t with
  | zero => cases t <;> simp [writeType] at hb
  | succ bound ih =>
    cases t with
    | named name => simp [writeType, readType, string_restores name h]
    | list inner =>
      have within : (writeType inner).length ≤ bound := by simpa [writeType, Nat.add_comm 1] using hb
      simp [writeType, readType, ih (t := inner) h within]
    | nonNull inner =>
      have within : (writeType inner).length ≤ bound := by simpa [writeType, Nat.add_comm 1] using hb
      simp [writeType, readType, ih (t := inner) h within]

theorem type_restores : type.Restores TypeRef.Fits := by
  intro t h rest
  apply readType_writeType h
  exact (List.sublist_append_left (writeType t) rest).length_le

theorem writeItems_eq (items : List Value) : writeItems items = items.flatMap writeValue := by
  induction items with
  | nil => rfl
  | cons item items ih => rw [writeItems, ih, List.flatMap_cons]

def writeField (f : String × Value) : Bytes := string.write f.1 ++ writeValue f.2

theorem writeFields_eq (fields : List (String × Value)) : writeFields fields = fields.flatMap writeField := by
  induction fields with
  | nil => rfl
  | cons f fields ih => rw [writeFields, ih, List.flatMap_cons, writeField]

def readField (bound : Nat) (bytes : Bytes) : Option ((String × Value) × Bytes) := do
  let (name, bytes) ← string.read bytes
  let (value, bytes) ← readValue bound bytes
  return ((name, value), bytes)

theorem readField_writeField {bound : Nat} {f : String × Value} (hn : TextFits f.1)
    (hv : ∀ rest, readValue bound (writeValue f.2 ++ rest) = some (f.2, rest)) (rest : Bytes) :
    readField bound (writeField f ++ rest) = some (f, rest) := by
  simp [readField, writeField, string_restores f.1 hn, hv]

theorem length_le_flatMap {β : Type} {write : β → Bytes} {bs : List β} {b : β} (h : b ∈ bs) :
    (write b).length ≤ (bs.flatMap write).length :=
  (List.sublist_flatten_of_mem (List.mem_map_of_mem h)).length_le

theorem readValue_writeValue {bound : Nat} {v : Value} (h : v.Fits) (hb : (writeValue v).length ≤ bound)
    (rest : Bytes) : readValue bound (writeValue v ++ rest) = some (v, rest) := by
  induction bound generalizing v rest with
  | zero => cases v <;> simp [writeValue] at hb
  | succ bound ih =>
    cases v with
    | boolean b => simp [writeValue, readValue, bool_restores b trivial]
    | enum name => simp [writeValue, readValue, string_restores name h]
    | number n => simp [writeValue, readValue, number_restores n trivial]
    | string text => simp [writeValue, readValue, string_restores text h]
    | list items =>
      obtain ⟨hl, hi⟩ := h
      rw [itemsFit_iff] at hi
      have total : (items.flatMap writeValue).length ≤ bound := by
        simp only [writeValue, writeItems_eq, List.length_append, tag_length (show 2 < 251 by decide)] at hb
        omega
      have each : ∀ item ∈ items, ∀ rest, readValue bound (writeValue item ++ rest) = some (item, rest) := by
        intro item hm
        exact ih (hi item hm) (Nat.le_trans (length_le_flatMap hm) total)
      simp [writeValue, readValue, writeItems_eq, readList_flatMap hl each]
    | object fields =>
      obtain ⟨hl, hf⟩ := h
      rw [fieldsFit_iff] at hf
      have total : (fields.flatMap writeField).length ≤ bound := by
        simp only [writeValue, writeFields_eq, List.length_append, tag_length (show 4 < 251 by decide)] at hb
        omega
      have each : ∀ f ∈ fields, ∀ rest, readField bound (writeField f ++ rest) = some (f, rest) := by
        intro f hm
        obtain ⟨hn, hv⟩ := hf f hm
        have size : (writeField f).length ≤ bound := Nat.le_trans (length_le_flatMap hm) total
        rw [writeField, List.length_append] at size
        exact readField_writeField hn (ih hv (by omega))
      have all : readList (readField bound) (length.write fields.length ++ (fields.flatMap writeField ++ rest)) =
          some (fields, rest) := readList_flatMap hl each rest
      simp only [writeValue, readValue, writeFields_eq, List.append_assoc, read_tag (show 4 < 251 by decide),
        Option.bind_eq_bind, Option.bind_some]
      exact congrArg (Option.map fun p => (Value.object p.1, p.2)) all

theorem value_restores : value.Restores Value.Fits := by
  intro v h rest
  apply readValue_writeValue h
  exact (List.sublist_append_left (writeValue v) rest).length_le

theorem comment_restores : comment.Restores Comment.Fits := convert_restores string_restores fun _ => rfl

theorem member_restores {c : Codec α} {fits : α → Prop} (h : c.Restores fits) :
    c.member.Restores (Member.Fits fits) := by
  intro m hm rest
  cases m with
  | comment a => simp [member, comment_restores a hm]
  | item a => simp [member, h a hm]

theorem Restores.mono {c : Codec α} {fits fits' : α → Prop} (h : c.Restores fits) (hf : ∀ a, fits' a → fits a) :
    c.Restores fits' := fun a ha => h a (hf a ha)

theorem inputValue_restores : inputValue.Restores InputValueDefinition.Fits := by
  have parts := pair_restores string_restores (pair_restores type_restores (option_restores value_restores))
  exact (convert_restores parts fun _ => rfl).mono fun _ ⟨name, type, defaultValue⟩ => ⟨name, type, defaultValue⟩

theorem field_restores : field.Restores FieldDefinition.Fits := by
  have arguments := option_restores (list_restores (member_restores inputValue_restores))
  have parts := pair_restores string_restores (pair_restores arguments type_restores)
  exact (convert_restores parts fun _ => rfl).mono fun _ ⟨name, arguments, type⟩ => ⟨name, arguments, type⟩

theorem fields_restores : field.member.list.Restores (ListFits (Member.Fits FieldDefinition.Fits)) :=
  list_restores (member_restores field_restores)

theorem object_restores : object.Restores ObjectDefinition.Fits := by
  have parts := pair_restores string_restores (pair_restores (list_restores string_restores) fields_restores)
  exact (convert_restores parts fun _ => rfl).mono fun _ ⟨name, interfaces, fields⟩ => ⟨name, interfaces, fields⟩

theorem interface_restores : interface.Restores InterfaceDefinition.Fits := by
  have parts := pair_restores string_restores fields_restores
  exact (convert_restores parts fun _ => rfl).mono fun _ ⟨name, fields⟩ => ⟨name, fields⟩

theorem union_restores : union.Restores UnionDefinition.Fits := by
  have parts := pair_restores string_restores (list_restores string_restores)
  exact (convert_restores parts fun _ => rfl).mono fun _ ⟨name, members⟩ => ⟨name, members⟩

theorem scalar_restores : scalar.Restores fun d => TextFits d.name := convert_restores string_restores fun _ => rfl

theorem enum_restores : enum.Restores EnumDefinition.Fits := by
  have parts := pair_restores string_restores (list_restores (member_restores string_restores))
  exact (convert_restores parts fun _ => rfl).mono fun _ ⟨name, values⟩ => ⟨name, values⟩

theorem inputObject_restores : inputObject.Restores InputObjectDefinition.Fits := by
  have parts := pair_restores string_restores (list_restores (member_restores inputValue_restores))
  exact (convert_restores parts fun _ => rfl).mono fun _ ⟨name, fields⟩ => ⟨name, fields⟩

theorem definition_restores : definition.Restores (Member.Fits TypeDefinition.Fits) := by
  intro m h rest
  match m with
  | .comment c => simp [definition, comment_restores c h]
  | .item (.enum d) => simp [definition, enum_restores d h]
  | .item (.inputObject d) => simp [definition, inputObject_restores d h]
  | .item (.interface d) => simp [definition, interface_restores d h]
  | .item (.object d) => simp [definition, object_restores d h]
  | .item (.scalar d) => simp [definition, scalar_restores d h]
  | .item (.extension d) => simp [definition, object_restores d h]
  | .item (.union d) => simp [definition, union_restores d h]

theorem document_restores : document.Restores Document.Fits :=
  convert_restores (list_restores definition_restores) fun _ => rfl

end Binary.Codec

theorem Document.decode?_append {d : Document} (h : d.Fits) (bytes : Bytes) :
    Document.decode? (d.encode ++ bytes) = some d := by
  rw [decode?, encode, Codec.document_restores d h, Option.map_some]

/-- A document is read back from its bytes, whatever follows them; so no document's bytes are the start of another's. -/
theorem decode?_encode {d : Document} (h : d.Fits) :
    (∀ bytes, Document.decode? (d.encode ++ bytes) = some d) ∧
      ∀ d' : Document, d'.Fits → d.encode <+: d'.encode → d = d' := by
  refine ⟨Document.decode?_append h, ?_⟩
  rintro d' h' ⟨bytes, he⟩
  have whole : Document.decode? (d'.encode ++ []) = some d' := Document.decode?_append h' []
  rw [List.append_nil, ← he, Document.decode?_append h] at whole
  exact Option.some.inj whole

theorem decode?_encode_nested :
    let infinity : Binary64 := ⟨0x7FF0000000000000⟩
    let v : Value := .list [.number (.int Int64.minValue), .object [("k", .number (.float infinity)), ("k", .list [])]]
    let d : Document := ⟨[.comment ⟨"#é"⟩, .item (.inputObject ⟨"I", [.item ⟨"f", .nonNull (.named "T"), some v⟩]⟩)]⟩
    let d' : Document := ⟨[.comment ⟨"#é"⟩]⟩
    d.Fits ∧ d'.Fits ∧ (∀ bytes, Document.decode? (d.encode ++ bytes) = some d) ∧ ¬d'.encode <+: d.encode := by
  intro infinity v d d'
  have comment : TextFits "#é" := by decide +kernel
  have names : TextFits "I" ∧ TextFits "f" ∧ TextFits "T" ∧ TextFits "k" := by decide +kernel
  obtain ⟨name, field, type, key⟩ := names
  have value : v.Fits := by
    simp [v, Value.Fits, itemsFit, fieldsFit, key, sizeLimit]
  have input : InputValueDefinition.Fits ⟨"f", .nonNull (.named "T"), some v⟩ :=
    ⟨field, type, fun x hx => Option.some.inj hx ▸ value⟩
  have definition : InputObjectDefinition.Fits ⟨"I", [.item ⟨"f", .nonNull (.named "T"), some v⟩]⟩ :=
    ⟨name, by decide, List.forall_mem_singleton.2 input⟩
  have hd : d.Fits := ⟨by decide, List.forall_mem_cons.2 ⟨comment, List.forall_mem_singleton.2 definition⟩⟩
  have hd' : d'.Fits := ⟨by decide, List.forall_mem_singleton.2 comment⟩
  exact ⟨hd, hd', (decode?_encode hd).1, fun hp => absurd ((decode?_encode hd').2 d hd hp) (by decide)⟩

end Schemata
