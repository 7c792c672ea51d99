import Schemata.Proofs.Generation.Binding

namespace Schemata

variable {m : Implementations} {d : Document} {r : Registry}

def Document.Implements (d : Document) (object interface : String) : Prop :=
  ∃ b ∈ d.objectDefinitions, b.name = object ∧ interface ∈ b.interfaces

def Registry.Attached (r : Registry) (type : String) (b : BoundTypeResolver) : Prop :=
  (∃ i, r.interfaces.get? type = some i ∧ i.typeResolver = some b) ∨
    ∃ u, r.unions.get? type = some u ∧ u.typeResolver = some b

structure BoundTypeResolver.Resolves (b : BoundTypeResolver) (r : Registry) (type : String) (value : Json) : Prop where
  sound : ∀ t, b.resolve r value = .ok t → r.isPossibleType type t.name
  possible : ∀ name, b.resolver value r.objects = .byName name → r.isPossibleType type name →
    ∃ t, r.objects.get? name = some t ∧ t.name = name ∧ b.resolve r value = .ok t
  impossible : ∀ name, b.resolver value r.objects = .byName name → name ∈ r.objects.keys →
    ¬r.isPossibleType type name → b.resolve r value = .error (.notAPossibleType type name)
  unknown : ∀ name, b.resolver value r.objects = .byName name → name ∉ r.objects.keys →
    b.resolve r value = .error (.unknownObjectType type name)
  object : ∀ t, b.resolver value r.objects = .object t →
    b.resolve r value = if r.isPossibleType type t.name then .ok t else .error (.notAPossibleType type t.name)

structure Registry.TellsPossibleTypes (m : Implementations) (d : Document) (r : Registry) : Prop where
  isPossibleType_iff : ∀ type object, r.isPossibleType type object ↔
    (type ∈ r.interfaces.keys ∧ object ∈ (r.implementors type).map ObjectType.name) ∨
      ∃ u, r.unions.get? type = some u ∧ object ∈ (r.memberTypes u).map ObjectType.name
  written : ∀ type object, r.isPossibleType type object ↔ d.Implements object type ∨ d.HasMember type object
  members : ∀ u ∈ r.unions.values, (r.memberTypes u).map some = u.members.keys.map r.objects.get?
  inOrder : ∀ b, .union b ∈ d.typeDefinitions →
    ∃ u, r.unions.get? b.name = some u ∧ (r.memberTypes u).map ObjectType.name = b.members
  attached_iff : ∀ type b, r.Attached type b ↔
    (type ∈ r.interfaces.keys ∨ type ∈ r.unions.keys) ∧ (m.typeResolver? type).map (⟨type, ·⟩) = some b
  resolves : ∀ type b, r.Attached type b → ∀ value, b.Resolves r type value

namespace BoundTypeResolver

variable {b : BoundTypeResolver} {value : Json} {t : ObjectType} {name : String}

theorem resolve_object (h : b.resolver value r.objects = .object t) : b.resolve r value =
    if r.isPossibleType b.abstractType t.name then .ok t else .error (.notAPossibleType b.abstractType t.name) := by
  rw [resolve, h]
  rfl

theorem resolve_held (h : b.resolver value r.objects = .byName name) (ht : r.objects.get? name = some t) :
    b.resolve r value =
      if r.isPossibleType b.abstractType t.name then .ok t else .error (.notAPossibleType b.abstractType t.name) := by
  simp only [resolve, h, ht]
  rfl

theorem resolve_unknown (h : b.resolver value r.objects = .byName name) (hn : r.objects.get? name = none) :
    b.resolve r value = .error (.unknownObjectType b.abstractType name) := by
  simp only [resolve, h, hn]
  rfl

theorem resolve_sound (h : b.resolve r value = .ok t) : r.isPossibleType b.abstractType t.name := by
  have outcome {o : ObjectType} (he : b.resolve r value =
      if r.isPossibleType b.abstractType o.name then .ok o else .error (.notAPossibleType b.abstractType o.name)) :
      r.isPossibleType b.abstractType t.name := by
    rw [he] at h
    by_cases hp : r.isPossibleType b.abstractType o.name
    · rw [if_pos hp] at h
      cases h
      exact hp
    · rw [if_neg hp] at h
      cases h
  cases ha : b.resolver value r.objects with
  | object o => exact outcome (resolve_object ha)
  | byName name =>
    cases ho : r.objects.get? name with
    | some o => exact outcome (resolve_held ha ho)
    | none => cases h.symm.trans (resolve_unknown ha ho)

end BoundTypeResolver

structure Registry.Integral (r : Registry) : Prop where
  keyed : r.objects.KeyedBy ObjectType.name
  members : ∀ u ∈ r.unions.values, ∀ name ∈ u.members.keys, name ∈ r.objects.keys
  apart : ∀ type ∈ r.unions.keys, type ∉ r.interfaces.keys

namespace Registry.Integral

variable (hr : r.Integral)
include hr

theorem mem_implementors {interface object : String} : object ∈ (r.implementors interface).map ObjectType.name ↔
    ∃ o, r.objects.get? object = some o ∧ o.implements interface := by
  simp only [List.mem_map, Registry.implementors, List.mem_filter, OrderedMap.mem_values_iff]
  constructor
  · rintro ⟨o, ⟨⟨key, hk⟩, hi⟩, rfl⟩
    rw [hr.keyed key o hk]
    exact ⟨o, hk, hi⟩
  · rintro ⟨o, ho, hi⟩
    exact ⟨o, ⟨⟨object, ho⟩, hi⟩, hr.keyed object o ho⟩

theorem memberTypes_eq {u : UnionType} (hu : u ∈ r.unions.values) :
    (r.memberTypes u).map some = u.members.keys.map r.objects.get? := by
  rw [Registry.memberTypes, List.map_filterMap_some_eq_filter_map_isSome, List.filter_eq_self]
  intro o ho
  obtain ⟨name, hn, rfl⟩ := List.mem_map.1 ho
  exact OrderedMap.contains_iff.2 (hr.members u hu name hn)

theorem memberTypes_names {u : UnionType} (hu : u ∈ r.unions.values) :
    (r.memberTypes u).map ObjectType.name = u.members.keys := by
  have named : ∀ name ∈ u.members.keys, (r.objects.get? name).map ObjectType.name = some name := by
    intro name hn
    obtain ⟨o, ho⟩ := OrderedMap.mem_keys_iff.1 (hr.members u hu name hn)
    rw [ho, Option.map_some, hr.keyed name o ho]
  rw [Registry.memberTypes, List.map_filterMap, List.filterMap_congr named, List.filterMap_some]

theorem isPossibleType_iff {type object : String} : r.isPossibleType type object ↔
    (type ∈ r.interfaces.keys ∧ object ∈ (r.implementors type).map ObjectType.name) ∨
      ∃ u, r.unions.get? type = some u ∧ object ∈ (r.memberTypes u).map ObjectType.name := by
  rw [Registry.isPossibleType]
  cases hu : r.unions.get? type with
  | none => simp [OrderedMap.contains_iff, hr.mem_implementors, Option.any_eq_true]
  | some u =>
    have apart : type ∉ r.interfaces.keys := hr.apart type (OrderedMap.mem_keys_iff.2 ⟨u, hu⟩)
    have names := hr.memberTypes_names (OrderedMap.mem_values_iff.2 ⟨type, hu⟩)
    simp only [OrderedMap.contains_iff, apart, false_and, false_or, Option.some.injEq, exists_eq_left', names]

theorem exists_object {type object : String} (h : r.isPossibleType type object) :
    ∃ o, r.objects.get? object = some o ∧ o.name = object := by
  obtain ⟨o, ho⟩ : ∃ o, r.objects.get? object = some o := by
    rcases hr.isPossibleType_iff.1 h with ⟨-, hi⟩ | ⟨u, hu, hm⟩
    · obtain ⟨o, ho, -⟩ := hr.mem_implementors.1 hi
      exact ⟨o, ho⟩
    · have held : u ∈ r.unions.values := OrderedMap.mem_values_iff.2 ⟨type, hu⟩
      rw [hr.memberTypes_names held] at hm
      exact OrderedMap.mem_keys_iff.1 (hr.members u held object hm)
  exact ⟨o, ho, hr.keyed object o ho⟩

theorem resolves (b : BoundTypeResolver) (value : Json) : b.Resolves r b.abstractType value where
  sound t := BoundTypeResolver.resolve_sound
  possible name ha hp := by
    obtain ⟨t, ht, named⟩ := hr.exists_object hp
    refine ⟨t, ht, named, ?_⟩
    rw [BoundTypeResolver.resolve_held ha ht, named, if_pos hp]
  impossible name ha ho hp := by
    obtain ⟨t, ht⟩ := OrderedMap.mem_keys_iff.1 ho
    rw [BoundTypeResolver.resolve_held ha ht, hr.keyed name t ht, if_neg hp]
  unknown name ha ho := by
    refine BoundTypeResolver.resolve_unknown ha ?_
    rwa [← Option.not_isSome_iff_eq_none, ← OrderedMap.contains, OrderedMap.contains_iff]
  object t := BoundTypeResolver.resolve_object

end Registry.Integral

section

variable (hv : d.Valid m)
include hv

theorem implements_iff {interface object : String} :
    (∃ o, (d.registry m).objects.get? object = some o ∧ o.implements interface) ↔ d.Implements object interface := by
  have listed {o : ObjectType} (ho : (d.registry m).objects.get? object = some o) :
      o.implements interface ↔ d.Implements object interface := by
    obtain ⟨-, -, -, -, -, -, hi, -⟩ := registry_object hv ho
    simp [ObjectType.implements, hi, NamedRef.interfaces, List.mem_eraseDups, Document.Implements, mem_bodies,
      and_assoc]
  constructor
  · rintro ⟨o, ho, hi⟩
    exact (listed ho).1 hi
  · intro h
    obtain ⟨b, hb, rfl, -⟩ := id h
    obtain ⟨o, ho⟩ := (objects_faithful (m := m) hv.names).exists_get (hv.body_defines hb)
    exact ⟨o, ho, (listed ho).2 h⟩

theorem union_written {type : String} {u : UnionType} (h : (d.registry m).unions.get? type = some u) :
    ∃ b, .union b ∈ d.typeDefinitions ∧ b.name = type ∧ u.members.keys = b.members := by
  obtain ⟨run, b, hr, hn, rfl⟩ := (Slot.unions.base_get? hv.names).1 h
  have valid : b.Valid d := hv.definitions _ hr.mem_items
  exact ⟨b, hr.mem_items, hn, members_keys valid.names⟩

theorem union_held {b : UnionDefinition} (hb : .union b ∈ d.typeDefinitions) :
    ∃ u, (d.registry m).unions.get? b.name = some u ∧ u.members.keys = b.members := by
  obtain ⟨run, hr⟩ := exists_runBefore hb
  have valid : b.Valid d := hv.definitions _ hb
  exact ⟨_, (Slot.unions.base_get? hv.names).2 ⟨run, b, hr, rfl, rfl⟩, members_keys valid.names⟩

theorem hasMember_iff {union object : String} :
    (∃ u, (d.registry m).unions.get? union = some u ∧ object ∈ u.members.keys) ↔ d.HasMember union object := by
  constructor
  · rintro ⟨u, hu, ho⟩
    obtain ⟨b, hb, hn, keys⟩ := union_written hv hu
    exact ⟨b, hb, hn, keys ▸ ho⟩
  · rintro ⟨b, hb, rfl, ho⟩
    obtain ⟨u, hu, keys⟩ := union_held hv hb
    exact ⟨u, hu, keys ▸ ho⟩

theorem registry_integral : (d.registry m).Integral where
  keyed := (registry_keyed hv).objects
  members u hu name hn := by
    obtain ⟨type, ht⟩ := OrderedMap.mem_values_iff.1 hu
    obtain ⟨b, hb, -, keys⟩ := union_written hv ht
    have valid : b.Valid d := hv.definitions _ hb
    exact OrderedMap.mem_keys_iff.2 ((objects_faithful hv.names).exists_get (valid.members name (keys ▸ hn)))
  apart type hu hi := by
    obtain ⟨u, hu⟩ := OrderedMap.mem_keys_iff.1 hu
    obtain ⟨i, hi⟩ := OrderedMap.mem_keys_iff.1 hi
    have union := (hv.agrees type .union).2 (.inl ((Slot.unions.faithful rfl hv.names).of_get hu).2)
    have interface := (hv.agrees type .interface).2 (.inl ((Slot.interfaces.faithful rfl hv.names).of_get hi).2)
    cases union.symm.trans interface

theorem possible_written {type object : String} :
    (d.registry m).isPossibleType type object ↔ d.Implements object type ∨ d.HasMember type object := by
  have integral := registry_integral hv
  rw [integral.isPossibleType_iff, integral.mem_implementors, implements_iff hv, ← hasMember_iff hv]
  have declared (h : d.Implements object type) : type ∈ (d.registry m).interfaces.keys := by
    obtain ⟨b, hb, -, hi⟩ := h
    exact OrderedMap.mem_keys_iff.2 ((Slot.interfaces.faithful rfl hv.names).exists_get ((hv.body hb).interfaces type hi))
  rw [and_iff_right_of_imp declared]
  refine or_congr_right (exists_congr fun u => and_congr_right fun hu => ?_)
  rw [integral.memberTypes_names (OrderedMap.mem_values_iff.2 ⟨type, hu⟩)]

theorem attached_iff {type : String} {b : BoundTypeResolver} : (d.registry m).Attached type b ↔
    (type ∈ (d.registry m).interfaces.keys ∨ type ∈ (d.registry m).unions.keys) ∧
      (m.typeResolver? type).map (⟨type, ·⟩) = some b := by
  have bound := registry_bound hv
  rw [Registry.Attached, OrderedMap.mem_keys_iff, OrderedMap.mem_keys_iff, or_and_right, ← exists_and_right,
    ← exists_and_right]
  refine or_congr (exists_congr fun i => and_congr_right fun hi => ?_) (exists_congr fun u => and_congr_right fun hu => ?_)
  · rw [bound.interfaces type i hi]
  · rw [bound.unions type u hu]

theorem registry_possibleTypes : (d.registry m).TellsPossibleTypes m d where
  isPossibleType_iff type object := (registry_integral hv).isPossibleType_iff
  written type object := possible_written hv
  members u := (registry_integral hv).memberTypes_eq
  inOrder b hb := by
    obtain ⟨u, hu, keys⟩ := union_held hv hb
    exact ⟨u, hu, keys ▸ (registry_integral hv).memberTypes_names (OrderedMap.mem_values_iff.2 ⟨_, hu⟩)⟩
  attached_iff type b := attached_iff hv
  resolves type b hb value := by
    obtain ⟨resolver, -, rfl⟩ := Option.map_eq_some_iff.1 ((attached_iff hv).1 hb).2
    exact (registry_integral hv).resolves _ value

end

/-- However a generated registry is asked for possible types, it tells those of its document. -/
theorem generate_possibleTypes (h : generate m d = .ok r) : r.TellsPossibleTypes m d := by
  obtain ⟨hv, rfl⟩ := (generate_decides m d).eq_ok_iff.1 h
  exact registry_possibleTypes hv

theorem generate_possibleTypes_extended :
    let naming : TypeResolver := .byName fun value => match value with | .string name => name | _ => ""
    let m := (Implementations.empty.resolveType "Node" naming).resolveType "Hit" naming
    let id : FieldDefinition := ⟨"id", none, .nonNull (.named "ID")⟩
    let d : Document := ⟨[
      .item (.extension ⟨"User", ["Node"], [.item ⟨"friends", none, .list (.named "User")⟩]⟩),
      .item (.object ⟨"User", [], [.item id]⟩), .item (.object ⟨"Bot", [], [.item id]⟩),
      .item (.interface ⟨"Node", [.item id]⟩), .item (.union ⟨"Hit", ["User", "Bot"]⟩)]⟩
    ∃ r, generate m d = .ok r ∧ r.TellsPossibleTypes m d ∧ r.isPossibleType "Node" "User" ∧
      (∃ t, (⟨"Hit", naming⟩ : BoundTypeResolver).resolve r (.string "Bot") = .ok t ∧ t.name = "Bot") ∧
      (⟨"Node", naming⟩ : BoundTypeResolver).resolve r (.string "Bot") = .error (.notAPossibleType "Node" "Bot") ∧
      (⟨"Node", naming⟩ : BoundTypeResolver).resolve r .null = .error (.unknownObjectType "Node" "") := by
  intro naming m id d
  obtain ⟨r, hr, possible, member, other, interfaces, unions, objects⟩ : ∃ r, generate m d = .ok r ∧
      r.isPossibleType "Node" "User" ∧ r.isPossibleType "Hit" "Bot" ∧ ¬r.isPossibleType "Node" "Bot" ∧
      r.interfaces.keys = ["Node"] ∧ r.unions.keys = ["Hit"] ∧ r.objects.keys = ["User", "Bot"] :=
    ⟨_, rfl, by decide +kernel, by decide +kernel, by decide +kernel, by decide +kernel, by decide +kernel,
      by decide +kernel⟩
  have told : r.TellsPossibleTypes m d := generate_possibleTypes hr
  have node := told.resolves "Node" ⟨"Node", naming⟩ ((told.attached_iff _ _).2 ⟨.inl (by simp [interfaces]), rfl⟩)
  have hit := told.resolves "Hit" ⟨"Hit", naming⟩ ((told.attached_iff _ _).2 ⟨.inr (by simp [unions]), rfl⟩)
  obtain ⟨t, -, named, ht⟩ := (hit (.string "Bot")).possible "Bot" rfl member
  exact ⟨r, hr, told, possible, ⟨t, ht, named⟩, (node _).impossible "Bot" rfl (by simp [objects]) other,
    (node _).unknown "" rfl (by simp [objects])⟩

end Schemata
