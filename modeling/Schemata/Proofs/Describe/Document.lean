import Mathlib.Logic.Basic
import Mathlib.Tactic.ByContra
import Schemata.Describe
import Schemata.Document.Basic
import Schemata.Proofs.Document.Depth
import Schemata.Proofs.Documentation.Runs

namespace Schemata

mutual

def Json.Plain : Json → Prop
  | .null | .object _ => False
  | .bool _ | .int _ | .float _ => True
  | .string text => ∀ c ∈ text.toList, 0x20 ≤ c.toNat
  | .array items => plainItems items

def plainItems : List Json → Prop
  | [] => True
  | item :: items => item.Plain ∧ plainItems items

end

mutual

def Json.literal : Json → Value
  | .null => .enum "null"
  | .bool value => .boolean value
  | .int value => .number (.int (Int64.ofInt value))
  | .float value => .number (.float value)
  | .string text => .string text
  | .array items => .list (itemLiterals items)
  | .object _ => .object []

def itemLiterals : List Json → List Value
  | [] => []
  | item :: items => item.literal :: itemLiterals items

end

theorem Json.ofBinary64_plain {x : Binary64} (h : (Json.ofBinary64 x).Plain) : x.isFinite := by
  by_contra hx
  rw [Json.ofBinary64, if_neg hx] at h
  exact h

theorem ofBinary64_of_finite {x : Binary64} (h : x.isFinite) : Json.ofBinary64 x = .float x := if_pos h

mutual

theorem Value.literal_runtimeValue : (v : Value) → v.runtimeValue.Plain →
    v.runtimeValue.literal.runtimeValue = v.runtimeValue
  | .boolean _, _ | .enum _, _ | .string _, _ => rfl
  | .number (.int i), _ => by simp [Value.runtimeValue, Number.runtimeValue, Json.literal]
  | .number (.float x), h => by
    have finite : x.isFinite := Json.ofBinary64_plain h
    have value : (Value.number (.float x)).runtimeValue = .float x := ofBinary64_of_finite finite
    rw [value, Json.literal, value]
  | .list items, h => congrArg Json.array (itemLiterals_values items h)

theorem itemLiterals_values : (items : List Value) → plainItems (itemValues items) →
    itemValues (itemLiterals (itemValues items)) = itemValues items
  | [], _ => rfl
  | v :: items, h => congrArg₂ _ (v.literal_runtimeValue h.1) (itemLiterals_values items h.2)

end

mutual

theorem Value.literal_demand : (v : Value) → v.runtimeValue.Plain → v.runtimeValue.literal.demand = v.demand
  | .boolean _, _ | .enum _, _ | .string _, _ | .number (.int _), _ => rfl
  | .number (.float x), h => by
    have finite : x.isFinite := Json.ofBinary64_plain h
    have value : (Value.number (.float x)).runtimeValue = .float x := ofBinary64_of_finite finite
    rw [value]
    rfl
  | .list items, h => congrArg (fun n => max 1 n + 1) (itemLiterals_demand items h)

theorem itemLiterals_demand : (items : List Value) → plainItems (itemValues items) →
    itemDemand (itemLiterals (itemValues items)) = itemDemand items
  | [], _ => rfl
  | v :: items, h => congrArg₂ max (v.literal_demand h.1) (itemLiterals_demand items h.2)

end

def Annotation.written : Annotation → TypeRef
  | named ref => .named ref.name
  | list inner => .list inner.written
  | nonNull inner => .nonNull inner.written

theorem Annotation.text_written (a : Annotation) : a.written.text = a.text := by
  induction a with
  | named ref => rfl
  | list inner ih => rw [written, TypeRef.text, ih, text]
  | nonNull inner ih => rw [written, TypeRef.text, ih, text]

theorem Annotation.innermostName_written (a : Annotation) : a.written.innermostName = a.innermost.name := by
  induction a with
  | named ref => rfl
  | list inner ih => exact ih
  | nonNull inner ih => exact ih

namespace Describe

variable {α β : Type}

def comments (description : Option String) : List Comment :=
  (descriptionLines "" description).map fun line => ⟨String.ofList (Text.dropReturn line.toList)⟩

def members (description : β → Option String) (define : β → α) (bs : List β) : List (Member α) :=
  writeRuns (bs.map fun b => (comments (description b), define b))

end Describe

open Describe (comments members)

def InputValue.definition (v : InputValue) : InputValueDefinition :=
  ⟨v.name, v.type.written, v.defaultValue.map Json.literal⟩

def Field.definition (f : Field) : FieldDefinition :=
  ⟨f.name, f.arguments.map fun arguments => members (fun _ => none) InputValue.definition arguments.values, f.type.written⟩

def ObjectType.definition (t : ObjectType) : ObjectDefinition :=
  ⟨t.name, t.interfaces.map NamedRef.name, members Field.description Field.definition t.fields.values⟩

def InterfaceType.definition (t : InterfaceType) : InterfaceDefinition :=
  ⟨t.name, members Field.description Field.definition t.fields.values⟩

def UnionType.definition (t : UnionType) : UnionDefinition := ⟨t.name, t.members.keys⟩

def ScalarType.definition (t : ScalarType) : ScalarDefinition := ⟨t.name⟩

def EnumType.definition (t : EnumType) : EnumDefinition :=
  ⟨t.name, members EnumValue.description EnumValue.name t.values.values⟩

def InputObjectType.definition (t : InputObjectType) : InputObjectDefinition :=
  ⟨t.name, members InputValue.description InputValue.definition t.fields.values⟩

def Registry.runs (r : Registry) : List (List Comment × TypeDefinition) :=
  r.objects.values.map (fun t => (comments t.description, .object t.definition)) ++
    r.interfaces.values.map (fun t => (comments t.description, .interface t.definition)) ++
    r.unions.values.map (fun t => (comments t.description, .union t.definition)) ++
    r.scalars.values.map (fun t => (comments t.description, .scalar t.definition)) ++
    r.enums.values.map (fun t => (comments t.description, .enum t.definition)) ++
    r.inputObjects.values.map fun t => (comments t.description, .inputObject t.definition)

def Registry.document (r : Registry) : Document := ⟨writeRuns r.runs⟩

end Schemata
