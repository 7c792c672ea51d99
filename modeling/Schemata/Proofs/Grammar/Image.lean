import Schemata.Proofs.Document.Limit
import Schemata.Proofs.Grammar.Writing

namespace Schemata

open Grammar

theorem exists_parse_iff {d : Document} : (∃ source, parse source = .ok d) ↔ d.WellFormed ∧ d.demand ≤ maxLevels := by
  rw [← writable_document_iff]
  constructor
  · rintro ⟨source, h⟩
    obtain ⟨ts, hs, hd, hn⟩ := parse_eq_ok_iff_form.1 h
    exact ⟨⟨ts, hs.wellFormed, hd⟩, hn⟩
  · rintro ⟨⟨ts, ht, hd⟩, hn⟩
    obtain ⟨source, hs⟩ := exists_splits_iff.2 ht
    exact ⟨source, parse_eq_ok_iff_form.2 ⟨ts, hs, hd, hn⟩⟩

/-- What is parsed is well-formed and of at most 64 levels; what is well-formed and of at most 63 levels is parsed from
some text. -/
theorem parse_image :
    (∀ (source : String) (d : Document), parse source = .ok d → d.WellFormed ∧ d.levels ≤ 64) ∧
      ∀ d : Document, d.WellFormed → d.levels ≤ 63 → ∃ source, parse source = .ok d := by
  constructor
  · intro source d h
    obtain ⟨hw, hn⟩ := exists_parse_iff.1 ⟨source, h⟩
    exact ⟨hw, (Document.demand_le_iff.1 hn).1⟩
  · intro d hw hl
    have demand : d.demand ≤ maxLevels := Nat.le_trans d.demand_le_levels (Nat.succ_le_succ hl)
    exact exists_parse_iff.2 ⟨hw, demand⟩

theorem parse_image_unusual :
    let numeral : Numeral := ⟨true, ['0'], ['5'], some ⟨'E', some '+', ['9', '9', '9']⟩⟩
    let x := Binary64.ofScientific numeral.negative numeral.significand numeral.scale
    let v : Value := .list [.string "\"\\\r", .number (.float x), .number (.int Int64.minValue),
      .object [("k", .enum "E"), ("k", .object [])]]
    let d : Document := ⟨[.comment ⟨"#\r"⟩, .item (.object ⟨"A", ["B", "B"],
      [.item ⟨"f", some [], .nonNull (.list (.named "A"))⟩, .comment ⟨"#a\r\r"⟩]⟩),
      .item (.interface ⟨"A", []⟩), .item (.inputObject ⟨"I", [.item ⟨"f", .named "true", some v⟩]⟩)]⟩
    d.WellFormed ∧ d.levels ≤ 63 ∧ ∃ source, parse source = .ok d := by
  intro numeral x v d
  have numeral_wellFormed : numeral.WellFormed := by
    have sign : ∀ c ∈ some '+', c = '+' ∨ c = '-' := fun _ hc => .inl (Option.some.inj hc).symm
    refine ⟨by decide, fun _ => rfl, List.all_eq_true.1 rfl, List.all_eq_true.1 rfl, ?_⟩
    intro e he
    obtain rfl := Option.some.inj he
    exact ⟨.inr rfl, sign, by decide, List.all_eq_true.1 rfl⟩
  have number : x.IsLiteral := ⟨numeral, numeral_wellFormed, .inl (by decide), rfl⟩
  have value : v.WellFormed := by
    have names : IsName "k" ∧ IsName "E" := by decide
    simp [v, Value.WellFormed, itemsWellFormed, fieldsWellFormed, Number.WellFormed, names, number]
  have comments : Comment.WellFormed ⟨"#\r"⟩ ∧ Comment.WellFormed ⟨"#a\r\r"⟩ :=
    ⟨⟨['\r'], by decide, by decide⟩, ⟨['a', '\r', '\r'], by decide, by decide⟩⟩
  have field : FieldDefinition.WellFormed ⟨"f", some [], .nonNull (.list (.named "A"))⟩ := by
    have type : IsName "A" := by decide
    refine ⟨by decide, ?_, fun _ h => TypeRef.noConfusion h, type⟩
    intro members hm
    obtain rfl := Option.some.inj hm
    exact List.forall_mem_nil _
  have object : ObjectDefinition.WellFormed ⟨"A", ["B", "B"],
      [.item ⟨"f", some [], .nonNull (.list (.named "A"))⟩, .comment ⟨"#a\r\r"⟩]⟩ :=
    ⟨by decide, by decide, by simpa [Member.WellFormed] using ⟨field, comments.2⟩⟩
  have interface : InterfaceDefinition.WellFormed ⟨"A", []⟩ := ⟨by decide, List.forall_mem_nil _⟩
  have input : InputValueDefinition.WellFormed ⟨"f", .named "true", some v⟩ := by
    have type : IsName "true" := by decide
    exact ⟨by decide, type, fun _ hx => Option.some.inj hx ▸ value⟩
  have inputObject : InputObjectDefinition.WellFormed ⟨"I", [.item ⟨"f", .named "true", some v⟩]⟩ :=
    ⟨by decide, by simpa [Member.WellFormed] using input⟩
  have document : d.WellFormed := by
    simp [d, Document.WellFormed, Member.WellFormed, TypeDefinition.WellFormed, comments, object, interface,
      inputObject]
  have levels : d.levels ≤ 63 := by decide
  exact ⟨document, levels, parse_image.2 d document levels⟩

end Schemata
