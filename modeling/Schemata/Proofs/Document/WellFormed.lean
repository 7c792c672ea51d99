import Schemata.Document.Basic
import Schemata.Proofs.Token.Writing

namespace Schemata

variable {α : Type}

def IsName (name : String) : Prop := Pattern.name.Matches name.toList

instance (name : String) : Decidable (IsName name) := inferInstanceAs (Decidable (Pattern.name.Matches name.toList))

def Comment.WellFormed (c : Comment) : Prop := Pattern.comment.Matches c.text.toList

def Member.WellFormed (p : α → Prop) : Member α → Prop
  | comment c => c.WellFormed
  | item a => p a

def TypeRef.WellFormed : TypeRef → Prop
  | named name => IsName name
  | list inner => inner.WellFormed
  | nonNull inner => (∀ t, inner ≠ nonNull t) ∧ inner.WellFormed

def Binary64.IsLiteral (x : Binary64) : Prop :=
  ∃ n : Numeral, n.WellFormed ∧
    ('.' ∈ n.text ∨ 'e' ∈ n.text ∨ 'E' ∈ n.text ∨
      ¬(Int64.minValue.toInt ≤ n.wholeValue ∧ n.wholeValue ≤ Int64.maxValue.toInt)) ∧
    x = Binary64.ofScientific n.negative n.significand n.scale

def Number.WellFormed : Number → Prop
  | int _ => True
  | float x => x.IsLiteral

mutual

def Value.WellFormed : Value → Prop
  | .boolean _ => True
  | .enum name => IsName name ∧ name ≠ "true" ∧ name ≠ "false"
  | .list items => itemsWellFormed items
  | .number n => n.WellFormed
  | .object fields => fieldsWellFormed fields
  | .string text => '\n' ∉ text.toList

def itemsWellFormed : List Value → Prop
  | [] => True
  | item :: items => item.WellFormed ∧ itemsWellFormed items

def fieldsWellFormed : List (String × Value) → Prop
  | [] => True
  | (name, value) :: fields => (IsName name ∧ value.WellFormed) ∧ fieldsWellFormed fields

end

structure InputValueDefinition.WellFormed (v : InputValueDefinition) : Prop where
  name : IsName v.name
  type : v.type.WellFormed
  defaultValue : ∀ x ∈ v.defaultValue, x.WellFormed

structure FieldDefinition.WellFormed (f : FieldDefinition) : Prop where
  name : IsName f.name
  arguments : ∀ members ∈ f.arguments, ∀ m ∈ members, m.WellFormed InputValueDefinition.WellFormed
  type : f.type.WellFormed

structure ObjectDefinition.WellFormed (d : ObjectDefinition) : Prop where
  name : IsName d.name
  interfaces : ∀ i ∈ d.interfaces, IsName i
  fields : ∀ m ∈ d.fields, m.WellFormed FieldDefinition.WellFormed

structure InterfaceDefinition.WellFormed (d : InterfaceDefinition) : Prop where
  name : IsName d.name
  fields : ∀ m ∈ d.fields, m.WellFormed FieldDefinition.WellFormed

structure UnionDefinition.WellFormed (d : UnionDefinition) : Prop where
  name : IsName d.name
  nonempty : d.members ≠ []
  members : ∀ m ∈ d.members, IsName m

structure EnumDefinition.WellFormed (d : EnumDefinition) : Prop where
  name : IsName d.name
  values : ∀ m ∈ d.values, m.WellFormed IsName

structure InputObjectDefinition.WellFormed (d : InputObjectDefinition) : Prop where
  name : IsName d.name
  fields : ∀ m ∈ d.fields, m.WellFormed InputValueDefinition.WellFormed

def TypeDefinition.WellFormed : TypeDefinition → Prop
  | object d | extension d => d.WellFormed
  | interface d => d.WellFormed
  | union d => d.WellFormed
  | scalar d => IsName d.name
  | enum d => d.WellFormed
  | inputObject d => d.WellFormed

def Document.WellFormed (d : Document) : Prop := ∀ m ∈ d.definitions, m.WellFormed TypeDefinition.WellFormed

theorem items_map_item (as : List α) : items (as.map .item) = as := by
  rw [items, List.filterMap_map]
  exact List.filterMap_some

theorem items_wellFormed {p : α → Prop} {members : List (Member α)} (h : ∀ m ∈ members, m.WellFormed p) :
    ∀ a ∈ items members, p a := by
  intro a ha
  obtain ⟨m, hm, he⟩ := List.mem_filterMap.1 ha
  cases m with
  | comment c => cases he
  | item b => exact Option.some.inj he ▸ h _ hm

theorem map_item_wellFormed {p : α → Prop} {as : List α} (h : ∀ a ∈ as, p a) :
    ∀ m ∈ as.map .item, Member.WellFormed p m := by
  rw [List.forall_mem_map]
  exact h

theorem Numeral.isWhole_iff {n : Numeral} (hn : n.WellFormed) :
    (n.isIntegral ∧ Int64.minValue.toInt ≤ n.wholeValue ∧ n.wholeValue ≤ Int64.maxValue.toInt) ↔
      ¬('.' ∈ n.text ∨ 'e' ∈ n.text ∨ 'E' ∈ n.text ∨
        ¬(Int64.minValue.toInt ≤ n.wholeValue ∧ n.wholeValue ≤ Int64.maxValue.toInt)) := by
  rw [isIntegral_iff hn]
  tauto

theorem Number.wellFormed_iff {x : Number} : x.WellFormed ↔ ∃ n : Numeral, n.WellFormed ∧ ofNumeral n = x := by
  cases x with
  | int i => exact iff_of_true trivial ⟨.ofInt i.toInt, Numeral.ofInt_wellFormed _, ofNumeral_ofInt i⟩
  | float x =>
    constructor
    · rintro ⟨n, hn, hx, rfl⟩
      refine ⟨n, hn, ?_⟩
      rw [ofNumeral, if_neg]
      exact fun h => (Numeral.isWhole_iff hn).1 h hx
    · rintro ⟨n, hn, h⟩
      rw [ofNumeral] at h
      split at h
      · cases h
      · next hx =>
        rw [Numeral.isWhole_iff hn, not_not] at hx
        exact ⟨n, hn, hx, (Number.float.inj h).symm⟩

end Schemata
