import Mathlib.Logic.Basic
import Schemata.Proofs.Document.Depth

namespace Schemata

variable {α : Type}

/-- An empty list stands at a level of the value, the outermost being the first. -/
inductive Value.EmptyListAt : Value → Nat → Prop
  | here : EmptyListAt (.list []) 1
  | inList {v : Value} {items : List Value} {n : Nat} (hv : v ∈ items) (h : EmptyListAt v n) :
      EmptyListAt (.list items) (n + 1)
  | inObject {name : String} {v : Value} {fields : List (String × Value)} {n : Nat} (hv : (name, v) ∈ fields)
      (h : EmptyListAt v n) : EmptyListAt (.object fields) (n + 1)

theorem emptyListAt_nil_iff {n : Nat} : (Value.list []).EmptyListAt n ↔ n = 1 := by
  constructor
  · intro h
    cases h with
    | here => rfl
    | inList hv _ => cases hv
  · rintro rfl
    exact .here

theorem emptyListAt_cons_iff {v : Value} {items : List Value} {n : Nat} :
    (Value.list (v :: items)).EmptyListAt (n + 1) ↔ v.EmptyListAt n ∨ ∃ w ∈ items, w.EmptyListAt n := by
  constructor
  · intro h
    cases h with
    | inList hw h =>
      rcases List.mem_cons.1 hw with rfl | hw
      · exact .inl h
      · exact .inr ⟨_, hw, h⟩
  · rintro (h | ⟨w, hw, h⟩)
    · exact .inList List.mem_cons_self h
    · exact .inList (List.mem_cons_of_mem v hw) h

theorem emptyListAt_object_iff {fields : List (String × Value)} {n : Nat} :
    (Value.object fields).EmptyListAt (n + 1) ↔ ∃ f ∈ fields, f.2.EmptyListAt n := by
  constructor
  · intro h
    cases h with
    | inObject hv h => exact ⟨_, hv, h⟩
  · rintro ⟨⟨name, v⟩, hv, h⟩
    exact .inObject hv h

mutual

theorem Value.demand_le_iff : (v : Value) → (n : Nat) → (v.demand ≤ n ↔ v.levels ≤ n ∧ ¬v.EmptyListAt n)
  | .boolean _, n | .enum _, n | .number _, n | .string _, n => by
    rw [Value.demand, Value.levels]
    exact (and_iff_left nofun).symm
  | .list [], n => by
    rw [emptyListAt_nil_iff]
    simp only [Value.demand, Value.levels, itemDemand, itemLevels]
    omega
  | .list (v :: items), 0 => by simp [Value.demand, Value.levels]
  | .list (v :: items), n + 1 => by
    have hv := v.demand_le_iff n
    have hi := itemDemand_le_iff items n
    have hp : 1 ≤ v.demand := by cases v <;> simp [Value.demand]
    have demand : (Value.list (v :: items)).demand ≤ n + 1 ↔ v.demand ≤ n ∧ itemDemand items ≤ n := by
      simp only [Value.demand, itemDemand]
      omega
    have levels : (Value.list (v :: items)).levels ≤ n + 1 ↔ v.levels ≤ n ∧ itemLevels items ≤ n := by
      simp only [Value.levels, itemLevels]
      omega
    rw [demand, levels, emptyListAt_cons_iff, hv, hi, not_or, and_and_and_comm]
    simp only [not_exists, not_and]
  | .object fields, 0 => by simp [Value.demand, Value.levels]
  | .object fields, n + 1 => by
    have hf := fieldDemand_le_iff fields n
    rw [Value.demand, Value.levels, Nat.add_le_add_iff_right, Nat.add_le_add_iff_right, emptyListAt_object_iff, hf]
    simp only [not_exists, not_and]

theorem itemDemand_le_iff : (items : List Value) → (n : Nat) →
    (itemDemand items ≤ n ↔ itemLevels items ≤ n ∧ ∀ v ∈ items, ¬v.EmptyListAt n)
  | [], n => by simp [itemDemand, itemLevels]
  | v :: items, n => by
    have hv := v.demand_le_iff n
    have hi := itemDemand_le_iff items n
    simp only [itemDemand, itemLevels, Nat.max_le, hv, hi, List.forall_mem_cons, and_and_and_comm]

theorem fieldDemand_le_iff : (fields : List (String × Value)) → (n : Nat) →
    (fieldDemand fields ≤ n ↔ fieldLevels fields ≤ n ∧ ∀ f ∈ fields, ¬f.2.EmptyListAt n)
  | [], n => by simp [fieldDemand, fieldLevels]
  | (name, v) :: fields, n => by
    have hv := v.demand_le_iff n
    have hf := fieldDemand_le_iff fields n
    simp only [fieldDemand, fieldLevels, Nat.max_le, hv, hf, List.forall_mem_cons, and_and_and_comm]

end

def FieldDefinition.inputValues (f : FieldDefinition) : List InputValueDefinition := items (f.arguments.getD [])

def TypeDefinition.fields : TypeDefinition → List FieldDefinition
  | object d | extension d => items d.fields
  | interface d => items d.fields
  | union _ | scalar _ | enum _ | inputObject _ => []

def TypeDefinition.inputValues : TypeDefinition → List InputValueDefinition
  | inputObject d => items d.fields
  | t => t.fields.flatMap FieldDefinition.inputValues

namespace Document

def inputValues (d : Document) : List InputValueDefinition := d.typeDefinitions.flatMap TypeDefinition.inputValues

def typeRefs (d : Document) : List TypeRef :=
  (d.typeDefinitions.flatMap TypeDefinition.fields).map FieldDefinition.type ++
    d.inputValues.map InputValueDefinition.type

def defaultValues (d : Document) : List Value := d.inputValues.filterMap InputValueDefinition.defaultValue

end Document

theorem deepest_le_iff {measure : α → Nat} {as : List α} {n : Nat} :
    deepest measure as ≤ n ↔ ∀ a ∈ as, measure a ≤ n := by
  induction as with
  | nil => simp [deepest]
  | cons a as ih => rw [deepest, Nat.max_le, ih, List.forall_mem_cons]

section

variable {measure : Value → Nat} {n : Nat}

theorem InputValueDefinition.depth_le_iff {v : InputValueDefinition} :
    v.depth measure ≤ n ↔ v.type.levels ≤ n ∧ ∀ x, v.defaultValue = some x → measure x ≤ n := by
  rw [depth, Nat.max_le, deepest_le_iff]
  simp only [Option.mem_toList]

theorem FieldDefinition.depth_le_iff {f : FieldDefinition} :
    f.depth measure ≤ n ↔ f.type.levels ≤ n ∧ ∀ v ∈ f.inputValues, v.depth measure ≤ n := by
  rw [depth, Nat.max_le, deepest_le_iff]
  rfl

theorem TypeDefinition.depth_le_iff {t : TypeDefinition} :
    t.depth measure ≤ n ↔ (∀ f ∈ t.fields, f.type.levels ≤ n) ∧ ∀ v ∈ t.inputValues, v.depth measure ≤ n := by
  have fields (fs : List FieldDefinition) : (∀ f ∈ fs, f.depth measure ≤ n) ↔ (∀ f ∈ fs, f.type.levels ≤ n) ∧
      ∀ v ∈ fs.flatMap FieldDefinition.inputValues, v.depth measure ≤ n := by
    simp only [FieldDefinition.depth_le_iff, forall_and, List.forall_mem_flatMap]
  cases t with
  | object d | extension d => rw [depth, deepest_le_iff]; exact fields _
  | interface d => rw [depth, deepest_le_iff]; exact fields _
  | inputObject d =>
    rw [depth, deepest_le_iff]
    exact (and_iff_right (List.forall_mem_nil _)).symm
  | union d | scalar d | enum d =>
    exact iff_of_true (Nat.zero_le n) ⟨List.forall_mem_nil _, List.forall_mem_nil _⟩

theorem Document.depth_le_iff {d : Document} :
    d.depth measure ≤ n ↔ (∀ t ∈ d.typeRefs, t.levels ≤ n) ∧ ∀ v ∈ d.defaultValues, measure v ≤ n := by
  simp only [depth, deepest_le_iff, TypeDefinition.depth_le_iff, InputValueDefinition.depth_le_iff, typeRefs,
    defaultValues, inputValues, List.mem_append, List.mem_map, List.mem_flatMap, List.mem_filterMap]
  constructor
  · intro h
    refine ⟨?_, ?_⟩
    · rintro _ (⟨f, ⟨t, ht, hf⟩, rfl⟩ | ⟨v, ⟨t, ht, hv⟩, rfl⟩)
      · exact (h t ht).1 f hf
      · exact ((h t ht).2 v hv).1
    · rintro x ⟨v, ⟨t, ht, hv⟩, hx⟩
      exact ((h t ht).2 v hv).2 x hx
  · rintro ⟨types, values⟩ t ht
    refine ⟨fun f hf => types _ (.inl ⟨f, ⟨t, ht, hf⟩, rfl⟩), fun v hv => ⟨?_, ?_⟩⟩
    · exact types _ (.inr ⟨v, ⟨t, ht, hv⟩, rfl⟩)
    · exact fun x hx => values x ⟨v, ⟨t, ht, hv⟩, hx⟩

end

theorem Document.demand_le_iff {d : Document} {n : Nat} :
    d.demand ≤ n ↔ d.levels ≤ n ∧ ∀ v ∈ d.defaultValues, ¬v.EmptyListAt n := by
  simp only [demand, levels, depth_le_iff, Value.demand_le_iff, forall_and, and_assoc]

end Schemata
