import Schemata.Proofs.Describe.Origins
import Schemata.Proofs.Grammar.Image
/-!
What `describe` prints is a schema again, and one of the same shape: the text of a generated registry is parsed, and
with placeholders for the calculated fields a registry is generated from it that differs in no type, field, argument,
default value, interface, member or enum value.
-/

namespace Schemata

open Describe (comments members)

variable {m n : Implementations} {d : Document}

theorem interfaces_names (names : List String) :
    NamedRef.interfaces ((NamedRef.interfaces names).map NamedRef.name) = NamedRef.interfaces names := by
  have again := foldl_addName_eraseDups [] names
  simp only [foldl_addName, List.removeAll_nil, List.nil_append] at again
  rw [NamedRef.interfaces, NamedRef.interfaces, List.map_map]
  exact congrArg _ ((congrArg List.eraseDups (List.map_id _)).trans again)

theorem members_keys_eq {map : OrderedMap NamedRef} (hk : map.KeyedBy NamedRef.name)
    (ho : ∀ ref ∈ map.values, ref.kind = .object) : NamedRef.members map.keys = map := by
  have pairs : map.keys.map (fun name => (name, (⟨name, .object⟩ : NamedRef))) = map.entries := by
    rw [OrderedMap.keys, List.map_map]
    refine (List.map_congr_left fun e he => ?_).trans (List.map_id _)
    obtain ⟨key, name, kind⟩ := e
    obtain rfl : key = name := congrArg Prod.fst (hk.entry he)
    obtain rfl : kind = .object := ho _ (List.mem_map_of_mem he)
    rfl
  apply OrderedMap.eq_of_entries
  rw [NamedRef.members, pairs]
  exact OrderedMap.ofList_entries map.keys_nodup

section

variable (hv : d.Valid m) (hp : (d.registry m).PlainDefaults)
include hv

theorem objectInterfaces_eq {t : ObjectType} (ht : t ∈ (d.registry m).objects.values) :
    NamedRef.interfaces (t.interfaces.map NamedRef.name) = t.interfaces := by
  obtain ⟨type, hg⟩ := OrderedMap.mem_values_iff.1 ht
  obtain ⟨run, b, -, -, -, -, interfaces, -⟩ := registry_object hv hg
  rw [interfaces, interfaces_names]

theorem unionMembers_eq {t : UnionType} (ht : t ∈ (d.registry m).unions.values) :
    NamedRef.members t.members.keys = t.members := by
  apply members_keys_eq ((registry_keyed hv).members t ht)
  exact fun ref hr => (memberRef_grounded hv (List.mem_flatMap.2 ⟨t, ht, hr⟩)).2

include hp

theorem input_stands {v : InputValue} (h : v ∈ (d.registry m).inputs) : v.Stands := by
  have plain := hp v h
  obtain ⟨run, a, -, rfl⟩ := input_origin hv h
  cases hd : a.defaultValue with
  | none => simp [InputValue.Stands, Context.inputValueOf, hd]
  | some x =>
    have same := x.literal_runtimeValue (plain x.runtimeValue (by simp [Context.inputValueOf, hd]))
    simp [InputValue.Stands, Context.inputValueOf, hd, same]

section

variable (hs : ((d.registry m).document.context n).scope.Agrees (d.registry m).document)
include hs

theorem described_fields {fields : OrderedMap Field} (hk : fields.KeyedBy Field.name)
    (hf : ∀ f ∈ fields.values, f ∈ (d.registry m).fields) (resolver : FieldDefinition → Option BoundFieldResolver) :
    ((collected FieldDefinition.name (((d.registry m).document.context n).fieldOf resolver)
      (members Field.description Field.definition fields.values)).mapValues fun _ => Field.shape) =
        fields.mapValues fun _ => Field.shape := by
  have same := document_sameKinds hv
  apply fieldsOf_shape hs hk
  intro f hm
  have registered := hf f hm
  have grounded : f.Grounded (d.registry m).document := Field.Grounded.transfer same (field_grounded hv registered)
  refine ⟨grounded, fun v hi => ?_, (registry_keyed hv).arguments f registered⟩
  exact input_stands hv hp (Registry.mem_inputs_of_field registered hi)

theorem described_object {t : ObjectType} (ht : t ∈ (d.registry m).objects.values) (run : List Comment) :
    (((d.registry m).document.context n).objectOf run t.definition).shape = t.shape := by
  have fields := described_fields hv hp hs ((registry_keyed hv).objectFields t ht)
    (fun _ hf => Registry.mem_fields_of_object ht hf)
    (((d.registry m).document.context n).resolverOf t.name)
  simp only [ObjectType.shape, Context.objectOf, ObjectType.definition, Context.objectFieldsOf,
    objectInterfaces_eq hv ht, fields]

theorem described_interface {t : InterfaceType} (ht : t ∈ (d.registry m).interfaces.values) (run : List Comment) :
    (((d.registry m).document.context n).interfaceOf run t.definition).shape = t.shape := by
  have fields := described_fields hv hp hs ((registry_keyed hv).interfaceFields t ht)
    (fun _ hf => Registry.mem_fields_of_interface ht hf) (fun _ => none)
  simp only [InterfaceType.shape, Context.interfaceOf, InterfaceType.definition, Context.interfaceFieldsOf, fields]

omit hp hs in
theorem described_union {t : UnionType} (ht : t ∈ (d.registry m).unions.values) (run : List Comment) :
    (((d.registry m).document.context n).unionOf run t.definition).shape = t.shape := by
  simp only [UnionType.shape, Context.unionOf, UnionType.definition, unionMembers_eq hv ht]

omit hp hs in
theorem described_enum {t : EnumType} (ht : t ∈ (d.registry m).enums.values) (run : List Comment) :
    (((d.registry m).document.context n).enumOf run t.definition).shape = t.shape := by
  have values := enumValuesOf_shape ((d.registry m).document.context n) t.name ((registry_keyed hv).enumValues t ht)
  simp only [EnumType.shape, Context.enumOf, EnumType.definition, values]

theorem described_inputObject {t : InputObjectType} (ht : t ∈ (d.registry m).inputObjects.values) (run : List Comment) :
    (((d.registry m).document.context n).inputObjectOf run t.definition).shape = t.shape := by
  have registered : ∀ v ∈ t.fields.values, v ∈ (d.registry m).inputs :=
    fun _ hm => Registry.mem_inputs_of_inputObject ht hm
  have grounded : ∀ v ∈ t.fields.values, v.Grounded (d.registry m).document :=
    fun v hm => InputValue.Grounded.transfer (document_sameKinds hv) (input_grounded hv (registered v hm))
  have fields := inputValuesOf_shape hs InputValue.description ((registry_keyed hv).inputFields t ht)
    fun v hm => ⟨grounded v hm, input_stands hv hp (registered v hm)⟩
  simp only [InputObjectType.shape, Context.inputObjectOf, InputObjectType.definition, fields]

end

theorem document_shape (hv' : (d.registry m).document.Valid n) :
    ((d.registry m).document.registry n).shape = (d.registry m).shape := by
  have hs : ((d.registry m).document.context n).scope.Agrees _ := hv'.agrees
  exact document_shape_of_types (registry_keyed hv) hv'.names (fun _ ht run => described_object hv hp hs ht run)
    (fun _ ht run => described_interface hv hp hs ht run) (fun _ ht run => described_union hv ht run)
    (fun _ ht run => described_enum hv ht run) (fun _ ht run => described_inputObject hv hp hs ht run)

end

/-- The text of a registry is a schema. If no default value has null, an object or a control character in it, the text
gives a registry of the same shape. -/
theorem describe_faithful {source : String} {r : Registry} (hs : parse source = .ok d) (hg : generate m d = .ok r)
    (hp : r.PlainDefaults) :
    ∃ d', parse (Describe.registry r) = .ok d' ∧
      ∃ r', generate (Implementations.empty.withPlaceholders d') d' = .ok r' ∧ r'.shape = r.shape := by
  obtain ⟨wellFormed, demand⟩ := exists_parse_iff.1 ⟨source, hs⟩
  obtain ⟨hv, rfl⟩ := (generate_decides m d).eq_ok_iff.1 hg
  obtain ⟨ts, writes, form⟩ := prints_registry (registry_printable hv wellFormed hp)
  have parsed : parse (Describe.registry (d.registry m)) = .ok (d.registry m).document :=
    parse_eq_ok_iff_form.2 ⟨ts, writes.splits, form, document_demand hv hp demand⟩
  have valid := document_valid hv
  exact ⟨_, parsed, _, (generate_decides _ _).eq_ok_iff.2 ⟨valid, rfl⟩, document_shape hv hp valid⟩

theorem describe_faithful_extended :
    let source := "# Who.\ntype User\x7b# Id.\nid:ID!\x7d extend type User implements Node\x7ball():Role friends(
      tags:[[String]]=[[ADMIN,\"a\\\"b\"],[]]):[User]\x7d interface Node\x7bid:ID!\x7d enum Role\x7bADMIN\x7d
      input Page\x7bratio:Float=0.5\x7d"
    let m := (Implementations.empty.field "User" "friends" (.constant .null)).field "User" "all" (.constant .null)
    ∃ d r, parse source = .ok d ∧ generate m d = .ok r ∧ r.PlainDefaults ∧ r.size = 4 ∧
      ∃ d', parse (Describe.registry r) = .ok d' ∧
        ∃ r', generate (Implementations.empty.withPlaceholders d') d' = .ok r' ∧ r'.shape = r.shape := by
  intro source m
  let id : FieldDefinition := ⟨"id", none, .nonNull (.named "ID")⟩
  let tags : InputValueDefinition := ⟨"tags", .list (.list (.named "String")),
    some (.list [.list [.enum "ADMIN", .string "a\"b"], .list []])⟩
  let ratio : InputValueDefinition := ⟨"ratio", .named "Float", some (.number (.float ⟨0x3FE0000000000000⟩))⟩
  let d : Document := ⟨[.comment ⟨"# Who."⟩, .item (.object ⟨"User", [], [.comment ⟨"# Id."⟩, .item id]⟩),
    .item (.extension ⟨"User", ["Node"], [.item ⟨"all", some [], .named "Role"⟩,
      .item ⟨"friends", some [.item tags], .list (.named "User")⟩]⟩),
    .item (.interface ⟨"Node", [.item id]⟩), .item (.enum ⟨"Role", [.item "ADMIN"]⟩),
    .item (.inputObject ⟨"Page", [.item ratio]⟩)]⟩
  let values : List Json := [.array [.array [.string "ADMIN", .string "a\"b"], .array []], .float ⟨0x3FE0000000000000⟩]
  have parsed : parse source = .ok d := by decide +kernel
  obtain ⟨r, hr, size, defaults⟩ : ∃ r, generate m d = .ok r ∧ r.size = 4 ∧
      r.inputs.filterMap InputValue.defaultValue = values := ⟨_, rfl, by decide +kernel, by decide +kernel⟩
  have plain : r.PlainDefaults := by
    intro v hv j hj
    have listed : j ∈ r.inputs.filterMap InputValue.defaultValue := List.mem_filterMap.2 ⟨v, hv, hj⟩
    simp only [defaults, values, List.mem_cons, List.not_mem_nil, or_false] at listed
    rcases listed with rfl | rfl <;> simp [Json.Plain, plainItems]
  exact ⟨d, r, parsed, hr, plain, size, describe_faithful parsed hr plain⟩

end Schemata
