import Schemata.Proofs.Generation.Acceptance
import Schemata.Proofs.Generation.Outline
import Schemata.Proofs.Resolver.Placeholders

namespace Schemata

variable {m n : Implementations} {d : Document} {e : GenerateError}

namespace Document.Valid

variable (hv : d.Valid m)
include hv

theorem field {type : String} {f : FieldDefinition} (hf : d.HasField type f) : f.Valid d := by
  rcases hf with hf | ⟨i, hi, -, hf⟩
  · obtain ⟨o, ho, hf⟩ := List.mem_flatMap.1 hf
    exact (hv.body (mem_bodies.1 ho).1).fields f hf
  · exact (hv.definitions _ hi).fields f hf

theorem input {v : InputValueDefinition} (h : d.HasInput v) : v.Valid d := by
  rcases h with ⟨type, f, hf, h⟩ | ⟨i, hi, h⟩
  · exact (hv.field hf).inputs v h
  · exact (hv.definitions _ hi).fields v h

theorem member {union name : String} (h : d.HasMember union name) : d.Defines name .object := by
  obtain ⟨u, hu, -, h⟩ := h
  exact (hv.definitions _ hu).members name h

theorem resolver {type : String} {f : FieldDefinition} (hf : f ∈ d.objectFields type) (hc : f.isCalculated) :
    (m.fieldResolver? type f.name).isSome := by
  obtain ⟨o, hb, hi⟩ := List.mem_flatMap.1 hf
  obtain ⟨ho, rfl⟩ := mem_bodies.1 hb
  exact (hv.body ho).resolvers f hi hc

theorem kind_unique {name : String} {kind kind' : Kind} (h : d.HasKind name kind) (h' : d.HasKind name kind') :
    kind = kind' := by
  rw [← hv.agrees] at h h'
  exact Option.some.inj (h.symm.trans h')

theorem not_holds : ¬e.Holds m d := by
  intro he
  cases e with
  | parse error => exact he
  | noQueryType => exact he
  | duplicateType type =>
    rcases he with h | ⟨h, s, rfl⟩
    · exact h.not_nodup hv.names
    · exact hv.reserved s h
  | duplicateField type field =>
    rcases he with h | ⟨i, hi, -, h⟩ | ⟨i, hi, -, h⟩
    · exact h.not_nodup (hv.fields type)
    · exact h.not_nodup (hv.definitions _ hi).names
    · exact h.not_nodup (hv.definitions _ hi).names
  | duplicateArgument type field argument =>
    obtain ⟨f, hf, -, h⟩ := he
    exact h.not_nodup (hv.field hf).names
  | duplicateEnumValue enum value =>
    obtain ⟨v, ht, -, h⟩ := he
    exact h.not_nodup (hv.definitions _ ht).names
  | duplicateUnionMember union member =>
    obtain ⟨u, ht, -, h⟩ := he
    exact h.not_nodup (hv.definitions _ ht).names
  | extensionOfUndefinedType type =>
    obtain ⟨⟨o, ho, rfl⟩, hn⟩ := he
    exact hn ⟨.object, .inl (hv.definitions _ ho).1⟩
  | incompleteEnumImplementation enum value =>
    obtain ⟨⟨v, ht, rfl, h⟩, values, hs, hn⟩ := he
    exact hn (OrderedMap.contains_iff.1 ((hv.definitions _ ht).values values hs value h))
  | invalidExtensionType type kind =>
    obtain ⟨⟨o, ho, rfl⟩, hk, hn⟩ := he
    exact hn (hv.kind_unique hk (.inl (hv.definitions _ ho).1))
  | invalidUnionMember union member kind =>
    obtain ⟨h, hk, hn⟩ := he
    exact hn (hv.kind_unique hk (.inl (hv.member h)))
  | missingFieldImplementation type field =>
    obtain ⟨⟨f, hf, rfl, hc⟩, hn⟩ := he
    have hr := hv.resolver hf hc
    rw [hn] at hr
    cases hr
  | undefinedType type =>
    rcases he with ⟨⟨owner, f, hf, rfl⟩ | ⟨union, h⟩, hn⟩ | ⟨⟨v, h, rfl⟩, ho⟩
    · exact hn (hv.field hf).type
    · exact hn ⟨.object, .inl (hv.member h)⟩
    · exact (hv.input h).2 (ho (hv.input h).1)
  | undefinedInterface interface =>
    obtain ⟨⟨o, ho, h⟩, hn⟩ := he
    exact hn ((hv.body ho).interfaces interface h)

end Document.Valid

namespace GenerateError

def LacksImplementation : GenerateError → Prop
  | missingFieldImplementation _ _ | incompleteEnumImplementation _ _ => True
  | _ => False

theorem holds_of_not_lacks (h : ¬e.LacksImplementation) (he : e.Holds m d) : e.Holds n d := by
  cases e with
  | missingFieldImplementation type field => exact absurd trivial h
  | incompleteEnumImplementation enum value => exact absurd trivial h
  | _ => exact he

theorem not_lacks_of_holds (hr : ∀ type field, (type, field) ∈ d.calculatedFields → m.fieldResolver? type field ≠ none)
    (hv : ∀ enum, m.enumValues? enum = none) (he : e.Holds m d) : ¬e.LacksImplementation := by
  intro hl
  cases e with
  | missingFieldImplementation type field =>
    obtain ⟨⟨f, hf, hn, hc⟩, hm⟩ := he
    exact hr type field (mem_calculatedFields.2 ⟨f, hf, hc, hn⟩) hm
  | incompleteEnumImplementation enum value =>
    obtain ⟨-, values, hs, -⟩ := he
    rw [hv enum] at hs
    cases hs
  | _ => exact hl

end GenerateError

theorem Document.Valid.lacks (hv : d.Valid n) (he : generate m d = .error e) : e.LacksImplementation := by
  by_contra hl
  have hm : e.Holds m d := (generate_decides m d).fault_of_eq_error he
  exact hv.not_holds (GenerateError.holds_of_not_lacks hl hm)

theorem withPlaceholders_not_lacks (he : generate (Implementations.empty.withPlaceholders d) d = .error e) :
    ¬e.LacksImplementation := by
  apply GenerateError.not_lacks_of_holds _ _ ((generate_decides _ d).fault_of_eq_error he)
  · intro type field hc
    rw [Implementations.withPlaceholders_fieldResolver?, if_pos hc]
    exact Option.some_ne_none _
  · intro enum
    rw [Implementations.withPlaceholders_enumValues?]
    rfl

theorem Document.Valid.withPlaceholders (hv : d.Valid m) : m.withPlaceholders d = m := by
  apply Implementations.withPlaceholders_of_present
  intro type field h
  obtain ⟨f, hf, hc, rfl⟩ := mem_calculatedFields.1 h
  exact hv.resolver hf hc

/-- Whether a document gives a registry with placeholders alone, and which outline the registry has, does not depend
on any implementations. Those that make a registry of it have all that placeholders would fill in; and where the
placeholders make one, others can only lack something. -/
theorem generate_placeholders (m : Implementations) (d : Document) :
    (∀ r, generate m d = .ok r → m.withPlaceholders d = m ∧
      ∃ r', generate (Implementations.empty.withPlaceholders d) d = .ok r' ∧ r'.outline = r.outline) ∧
    (∀ r', generate (Implementations.empty.withPlaceholders d) d = .ok r' →
      (∃ r, generate m d = .ok r) ∨ ∃ e, generate m d = .error e ∧ e.LacksImplementation) ∧
    ∀ e, generate (Implementations.empty.withPlaceholders d) d = .error e → ¬e.LacksImplementation := by
  refine ⟨fun r hr => ?_, fun r' hr' => ?_, fun e => withPlaceholders_not_lacks⟩
  · obtain ⟨hv, rfl⟩ := (generate_decides m d).eq_ok_iff.1 hr
    refine ⟨hv.withPlaceholders, ?_⟩
    cases hp : generate (Implementations.empty.withPlaceholders d) d with
    | error e => exact absurd (hv.lacks hp) (withPlaceholders_not_lacks hp)
    | ok r' =>
      obtain ⟨-, rfl⟩ := (generate_decides _ d).eq_ok_iff.1 hp
      exact ⟨_, rfl, by rw [d.registry_outline, d.registry_outline]⟩
  · obtain ⟨hv, -⟩ := (generate_decides _ d).eq_ok_iff.1 hr'
    cases hm : generate m d with
    | error e => exact .inr ⟨e, rfl, hv.lacks hm⟩
    | ok r => exact .inl ⟨r, rfl⟩

theorem generate_placeholders_extended :
    let hero : FieldDefinition := ⟨"hero", some [], .named "Episode"⟩
    let name : FieldDefinition := ⟨"name", none, .named "String"⟩
    let d : Document := ⟨[.item (.object ⟨"Query", [], [.item name]⟩), .item (.extension ⟨"Query", [], [.item hero]⟩),
      .item (.enum ⟨"Episode", [.item "JEDI", .item "EMPIRE"]⟩)]⟩
    let values := Implementations.empty.enumValue "Episode" "JEDI" (.int 6)
    let both := values.enumValue "Episode" "EMPIRE" (.int 5)
    let m := both.field "Query" "hero" (.constant (.string "JEDI"))
    generate values d = .error (.missingFieldImplementation "Query" "hero") ∧
      generate (values.withPlaceholders d) d = .error (.incompleteEnumImplementation "Episode" "EMPIRE") ∧
      ∃ r r', generate m d = .ok r ∧ generate (Implementations.empty.withPlaceholders d) d = .ok r' ∧
        r'.outline = r.outline := by
  intro hero name d values both m
  refine ⟨rfl, rfl, ?_⟩
  obtain ⟨r, hr⟩ : ∃ r, generate m d = .ok r := ⟨_, rfl⟩
  obtain ⟨-, r', hr', ho⟩ := (generate_placeholders m d).1 r hr
  exact ⟨r, r', hr, hr', ho⟩

end Schemata
