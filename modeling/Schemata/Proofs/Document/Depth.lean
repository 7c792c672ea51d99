import Schemata.Document.Basic
import Schemata.Document.Nesting
/-!
The depth of documents. Values are measured in two ways: by the levels they nest, and by the levels
their reader has to be granted, which are more by one where a list is the deepest part and empty.
-/

namespace Schemata

variable {α : Type}

def deepest (measure : α → Nat) : List α → Nat
  | [] => 0
  | a :: as => max (measure a) (deepest measure as)

mutual

def Value.demand : Value → Nat
  | .list items => max 1 (itemDemand items) + 1
  | .object fields => fieldDemand fields + 1
  | .boolean _ | .enum _ | .number _ | .string _ => 1

def itemDemand : List Value → Nat
  | [] => 0
  | item :: items => max item.demand (itemDemand items)

def fieldDemand : List (String × Value) → Nat
  | [] => 0
  | (_, value) :: fields => max value.demand (fieldDemand fields)

end

theorem itemDemand_eq (items : List Value) : itemDemand items = deepest Value.demand items := by
  induction items with
  | nil => rfl
  | cons v items ih => simp [itemDemand, deepest, ih]

theorem fieldDemand_eq (fields : List (String × Value)) :
    fieldDemand fields = deepest (fun f => f.2.demand) fields := by
  induction fields with
  | nil => rfl
  | cons f fields ih => simp [fieldDemand, deepest, ih]

mutual

theorem Value.demand_le_levels : (v : Value) → v.demand ≤ v.levels + 1
  | .boolean _ | .enum _ | .number _ | .string _ => by simp [Value.demand, Value.levels]
  | .list items => by
    have := itemDemand_le_levels items
    simp only [Value.demand, Value.levels]
    omega
  | .object fields => by
    have := fieldDemand_le_levels fields
    simp only [Value.demand, Value.levels]
    omega

theorem itemDemand_le_levels : (items : List Value) → itemDemand items ≤ itemLevels items + 1
  | [] => by simp [itemDemand]
  | v :: items => by
    have := v.demand_le_levels
    have := itemDemand_le_levels items
    simp only [itemDemand, itemLevels]
    omega

theorem fieldDemand_le_levels : (fields : List (String × Value)) → fieldDemand fields ≤ fieldLevels fields + 1
  | [] => by simp [fieldDemand]
  | (_, v) :: fields => by
    have := v.demand_le_levels
    have := fieldDemand_le_levels fields
    simp only [fieldDemand, fieldLevels]
    omega

end

section

variable (measure : Value → Nat)

def InputValueDefinition.depth (v : InputValueDefinition) : Nat :=
  max v.type.levels (deepest measure v.defaultValue.toList)

def FieldDefinition.depth (f : FieldDefinition) : Nat :=
  max f.type.levels (deepest (InputValueDefinition.depth measure) (items (f.arguments.getD [])))

def TypeDefinition.depth : TypeDefinition → Nat
  | .object d | .extension d => deepest (FieldDefinition.depth measure) (items d.fields)
  | .interface d => deepest (FieldDefinition.depth measure) (items d.fields)
  | .inputObject d => deepest (InputValueDefinition.depth measure) (items d.fields)
  | .union _ | .scalar _ | .enum _ => 0

def Document.depth (d : Document) : Nat := deepest (TypeDefinition.depth measure) d.typeDefinitions

end

def Document.levels (d : Document) : Nat := d.depth Value.levels

def Document.demand (d : Document) : Nat := d.depth Value.demand

section

variable {f g : Value → Nat}

theorem deepest_mono {measure measure' : α → Nat} (h : ∀ a, measure a ≤ measure' a + 1) (as : List α) :
    deepest measure as ≤ deepest measure' as + 1 := by
  induction as with
  | nil => simp [deepest]
  | cons a as ih =>
    have := h a
    simp only [deepest]
    omega

theorem InputValueDefinition.depth_mono (h : ∀ v, f v ≤ g v + 1) (v : InputValueDefinition) :
    v.depth f ≤ v.depth g + 1 := by
  have := deepest_mono h v.defaultValue.toList
  simp only [depth]
  omega

theorem FieldDefinition.depth_mono (h : ∀ v, f v ≤ g v + 1) (d : FieldDefinition) :
    d.depth f ≤ d.depth g + 1 := by
  have := deepest_mono (InputValueDefinition.depth_mono h) (items (d.arguments.getD []))
  simp only [depth]
  omega

theorem TypeDefinition.depth_mono (h : ∀ v, f v ≤ g v + 1) (d : TypeDefinition) :
    d.depth f ≤ d.depth g + 1 := by
  cases d with
  | object d | extension d => exact deepest_mono (FieldDefinition.depth_mono h) _
  | interface d => exact deepest_mono (FieldDefinition.depth_mono h) _
  | inputObject d => exact deepest_mono (InputValueDefinition.depth_mono h) _
  | union d | scalar d | enum d => simp [depth]

end

theorem Document.demand_le_levels (d : Document) : d.demand ≤ d.levels + 1 :=
  deepest_mono (TypeDefinition.depth_mono Value.demand_le_levels) _

end Schemata
