import Schemata.Proofs.Generation.Validity
import Schemata.Proofs.OrderedMap

namespace Schemata

theorem mem_calculatedFields {d : Document} {type name : String} :
    (type, name) ∈ d.calculatedFields ↔ ∃ f ∈ d.objectFields type, f.isCalculated ∧ f.name = name := by
  simp only [Document.calculatedFields, Document.objectFields, List.mem_flatMap, List.mem_map, List.mem_filter,
    Prod.mk.injEq, mem_bodies]
  constructor
  · rintro ⟨o, ho, f, ⟨hf, hc⟩, rfl, rfl⟩
    exact ⟨f, ⟨o, ⟨ho, rfl⟩, hf⟩, hc, rfl⟩
  · rintro ⟨f, ⟨o, ⟨ho, rfl⟩, hf⟩, hc, rfl⟩
    exact ⟨o, ho, f, ⟨hf, hc⟩, rfl, rfl⟩

namespace Implementations

variable {m : Implementations} {type field : String} {resolver : FieldResolver}

@[simp] theorem modify_get? (m : Implementations) (type other : String)
    (f : TypeImplementation → TypeImplementation) :
    (m.modify type f).get? other = if other = type then some (f ((m.get? type).getD {})) else m.get? other :=
  m.types.modify_get? type other {} f

theorem fieldResolver?_eq (m : Implementations) (type field : String) :
    m.fieldResolver? type field = ((m.get? type).getD {}).fields.get? field := by
  rw [fieldResolver?]
  cases m.get? type <;> rfl

theorem modify_bind {β : Type} {f : TypeImplementation → TypeImplementation} {part : TypeImplementation → Option β}
    (hf : ∀ t, part (f t) = part t) (h0 : part {} = none) (other : String) :
    ((m.modify type f).get? other).bind part = (m.get? other).bind part := by
  rw [modify_get?]
  by_cases h : other = type
  · subst h
    rw [if_pos rfl, Option.bind_some, hf]
    cases m.get? other with
    | none => exact h0
    | some t => rfl
  · rw [if_neg h]

theorem fieldIfAbsent_fieldResolver? (m : Implementations) (type field : String) (resolver : FieldResolver)
    (type' field' : String) :
    (m.fieldIfAbsent type field resolver).fieldResolver? type' field' =
      (m.fieldResolver? type' field').or (if (type', field') = (type, field) then some resolver else none) := by
  simp only [fieldResolver?_eq, fieldIfAbsent, modify_get?, Prod.mk.injEq]
  by_cases ht : type' = type
  · subst ht
    simp only [if_true, Option.getD_some, true_and]
    generalize (m.get? type').getD {} = t
    by_cases hc : t.fields.contains field
    · obtain ⟨present, hp⟩ := Option.isSome_iff_exists.1 hc
      rw [if_pos hc]
      by_cases hf : field' = field
      · rw [hf, hp, Option.some_or]
      · rw [if_neg hf, Option.or_none]
    · have absent : t.fields.get? field = none := by simpa [OrderedMap.contains] using hc
      simp only [if_neg hc, OrderedMap.insert_get?]
      by_cases hf : field' = field
      · rw [if_pos hf, if_pos hf, hf, absent, Option.none_or]
      · rw [if_neg hf, if_neg hf, Option.or_none]
  · simp only [ht, if_false, false_and, Option.or_none]

theorem fieldIfAbsent_of_present (h : (m.fieldResolver? type field).isSome) :
    m.fieldIfAbsent type field resolver = m := by
  obtain ⟨t, ht⟩ : ∃ t, m.types.get? type = some t := by
    cases hg : m.types.get? type with
    | some t => exact ⟨t, rfl⟩
    | none =>
      rw [fieldResolver?_eq, get?, hg] at h
      cases h
  have present : t.fields.contains field := by
    rwa [fieldResolver?_eq, get?, ht] at h
  have kept : m.types.modify type {} (fun t =>
      if t.fields.contains field then t else { t with fields := t.fields.insert field resolver }) = m.types := by
    rw [OrderedMap.modify, ht, Option.getD_some, if_pos present]
    exact OrderedMap.insert_of_get? ht
  rw [fieldIfAbsent, modify, kept]

theorem foldl_fieldIfAbsent_fieldResolver? (m : Implementations) (fields : List (String × String))
    (type field : String) :
    (fields.foldl (fun m f => m.fieldIfAbsent f.1 f.2 resolver) m).fieldResolver? type field =
      (m.fieldResolver? type field).or (if (type, field) ∈ fields then some resolver else none) := by
  induction fields generalizing m with
  | nil => rw [List.foldl_nil, if_neg List.not_mem_nil, Option.or_none]
  | cons f fields ih =>
    rw [List.foldl_cons, ih, fieldIfAbsent_fieldResolver?, Option.or_assoc]
    congr 1
    by_cases hf : (type, field) = f
    · simp [hf]
    · simp [hf]

theorem withPlaceholders_fieldResolver? (m : Implementations) (d : Document) (type field : String) :
    (m.withPlaceholders d).fieldResolver? type field = (m.fieldResolver? type field).or
      (if (type, field) ∈ d.calculatedFields then some (.constant .null) else none) :=
  foldl_fieldIfAbsent_fieldResolver? m d.calculatedFields type field

theorem withPlaceholders_bind {β : Type} {part : TypeImplementation → Option β} (d : Document)
    (hf : ∀ t fields, part { t with fields } = part t) (h0 : part {} = none) (type : String) :
    ((m.withPlaceholders d).get? type).bind part = (m.get? type).bind part := by
  rw [withPlaceholders]
  generalize d.calculatedFields = fields
  induction fields generalizing m with
  | nil => rfl
  | cons f fields ih =>
    rw [List.foldl_cons, ih, fieldIfAbsent]
    apply modify_bind _ h0
    intro t
    split
    · rfl
    · exact hf t _

@[simp] theorem withPlaceholders_enumValues? (m : Implementations) (d : Document) (type : String) :
    (m.withPlaceholders d).enumValues? type = m.enumValues? type :=
  withPlaceholders_bind d (fun _ _ => rfl) rfl type

@[simp] theorem withPlaceholders_typeResolver? (m : Implementations) (d : Document) (type : String) :
    (m.withPlaceholders d).typeResolver? type = m.typeResolver? type :=
  withPlaceholders_bind d (fun _ _ => rfl) rfl type

@[simp] theorem withPlaceholders_scalar? (m : Implementations) (d : Document) (type : String) :
    (m.withPlaceholders d).scalar? type = m.scalar? type :=
  withPlaceholders_bind d (fun _ _ => rfl) rfl type

theorem withPlaceholders_of_present {d : Document}
    (h : ∀ type field, (type, field) ∈ d.calculatedFields → (m.fieldResolver? type field).isSome) :
    m.withPlaceholders d = m := by
  have kept (fields : List (String × String))
      (hp : ∀ f ∈ fields, (m.fieldResolver? f.1 f.2).isSome) :
      fields.foldl (fun m f => m.fieldIfAbsent f.1 f.2 (.constant .null)) m = m := by
    induction fields with
    | nil => rfl
    | cons f fields ih =>
      rw [List.foldl_cons, fieldIfAbsent_of_present (hp f List.mem_cons_self)]
      exact ih fun g hg => hp g (List.mem_cons_of_mem _ hg)
  exact kept d.calculatedFields fun f hf => h f.1 f.2 hf

end Implementations

end Schemata
