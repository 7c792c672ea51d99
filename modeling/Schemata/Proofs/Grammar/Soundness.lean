import Schemata.Proofs.Document.Depth
import Schemata.Proofs.Grammar.Reading

namespace Schemata.Grammar

open Schemata.Parser

variable {α β : Type} {p : Form α}

theorem eq_of_punctuator? {c : Char} {input rest : List Token} (h : punctuator? c input = some rest) :
    input = .punctuator c :: rest := by
  unfold punctuator? at h
  split at h
  · split at h
    · simp_all
    · cases h
  · cases h

theorem eq_of_expect {c : Char} {input rest : List Token} (h : expect c input = .ok rest) :
    input = .punctuator c :: rest := by
  unfold expect at h
  split at h
  · next hp => exact Except.ok.inj h ▸ eq_of_punctuator? hp
  · cases h

theorem eq_of_name? {input rest : List Token} {name : String} (h : name? input = some (name, rest)) :
    input = .name name :: rest := by
  unfold name? at h
  split at h
  · simp_all
  · cases h

theorem eq_of_expectName {what name : String} {input rest : List Token}
    (h : expectName what input = .ok (name, rest)) : input = .name name :: rest := by
  unfold expectName at h
  split at h
  · next hn => exact eq_of_name? (Except.ok.inj h ▸ hn)
  · cases h

theorem require_sound {cause : Cause} {read : OptionalReader α} (h : Sound (finds read) p) :
    Sound (gives (require cause read)) p := by
  intro input rest a hr
  simp only [gives, require, Except.bind_eq_ok_iff] at hr
  obtain ⟨r, hf, hr⟩ := hr
  cases r with
  | none => cases hr
  | some r =>
    obtain rfl : r = (a, rest) := by simpa using hr
    exact h hf

theorem many_sound {item : OptionalReader α} (h : Sound (finds item) p) :
    Sound (gives (many item)) (Many p) := by
  intro input rest as hr
  unfold gives at hr
  fun_induction many item input generalizing as rest with
  | case1 => cases hr
  | case2 input hi =>
    obtain ⟨rfl, rfl⟩ : [] = as ∧ input = rest := by simpa using hr
    exact ⟨[], rfl, .nil⟩
  | case3 input a mid hi _ ih =>
    simp only [Except.bind_eq_ok_iff, Prod.exists] at hr
    obtain ⟨others, rest', hm, hr⟩ := hr
    obtain ⟨rfl, rfl⟩ : a :: others = as ∧ rest' = rest := by simpa using hr
    obtain ⟨ts, rfl, hp⟩ := h hi
    obtain ⟨us, rfl, hps⟩ := ih hm
    exact ⟨ts ++ us, (List.append_assoc ..).symm, .cons hp hps⟩
  | case4 input a mid hi _ =>
    obtain ⟨rfl, rfl⟩ : [a] = as ∧ mid = rest := by simpa using hr
    obtain ⟨ts, rfl, hp⟩ := h hi
    exact ⟨ts, rfl, by simpa using Many.cons hp .nil⟩

theorem member_sound {item : OptionalReader α} (h : Sound (finds item) p) :
    Sound (finds (member item)) (Entry p) := by
  intro input rest m hr
  unfold finds member at hr
  split at hr
  · next text rest' =>
    obtain ⟨rfl, rfl⟩ : .comment ⟨text⟩ = m ∧ rest' = rest := by simpa using hr
    exact ⟨[.comment text], rfl, .comment text⟩
  · simp only [Except.bind_eq_ok_iff] at hr
    obtain ⟨r, hi, hr⟩ := hr
    simp only [Except.pure_eq_ok_iff, Option.map_eq_some_iff, Prod.mk.injEq] at hr
    obtain ⟨⟨a, rest'⟩, rfl, rfl, rfl⟩ := hr
    obtain ⟨ts, he, hp⟩ := h hi
    exact ⟨ts, he, .item hp⟩

theorem block_sound {item : OptionalReader α} (h : Sound (finds item) p) (opening closing : Char)
    {input mid rest : List Token} {members : List (Member α)}
    (hm : many (member item) input = .ok (members, mid)) (hc : expect closing mid = .ok rest) :
    ∃ ts, .punctuator opening :: input = ts ++ rest ∧ Block opening closing p ts members := by
  obtain ⟨ts, rfl, hts⟩ := many_sound (member_sound h) hm
  exact ⟨_, by simp [eq_of_expect hc], .mk hts⟩

theorem body_sound {item : OptionalReader α} (h : Sound (finds item) p) :
    Sound (gives (body item)) (Block '{' '}' p) := by
  intro input rest members hr
  simp only [gives, body, Except.bind_eq_ok_iff, Prod.exists, Except.pure_eq_ok_iff, Prod.mk.injEq] at hr
  obtain ⟨input', ho, members, mid, hm, rest, hc, rfl, rfl⟩ := hr
  obtain ⟨ts, he, hb⟩ := block_sound h '{' '}' hm hc
  exact ⟨ts, (eq_of_expect ho).trans he, hb⟩

theorem nested_eq_ok {read : OptionalReader α} {input : List Token} {r : Option (α × List Token)} :
    nested read input = .ok r ↔ read input = .ok r := by
  simp [nested]

theorem bang_sound {ts rest after : List Token} {t u : TypeRef} (h : BareTypeForm ts t)
    (hb : bang t rest = (u, after)) :
    ∃ us, ts ++ rest = us ++ after ∧ TypeForm us u ∧ u.levels = t.levels := by
  unfold bang at hb
  split at hb
  · next hp =>
    obtain ⟨rfl, rfl⟩ := Prod.mk.injEq .. ▸ hb
    exact ⟨ts ++ [.punctuator '!'], by simp [eq_of_punctuator? hp], .nonNull h, rfl⟩
  · obtain ⟨rfl, rfl⟩ := Prod.mk.injEq .. ▸ hb
    exact ⟨ts, rfl, .bare h, rfl⟩

theorem type?_sound (n : Nat) : Sound (finds (type? n)) (within TypeForm TypeRef.levels n) := by
  induction n with
  | zero => intro _ _ _ h; cases h
  | succ n ih =>
    intro input rest t h
    rw [finds, type?, nested_eq_ok] at h
    split at h
    · next name rest' =>
      obtain ⟨us, he, hf, hl⟩ := bang_sound (.named name) (Option.some.inj (Except.ok.inj h))
      exact ⟨us, he, hf, by simp [hl, TypeRef.levels]⟩
    · simp only [Except.bind_eq_ok_iff, Prod.exists, Except.pure_eq_ok_iff, Option.some.injEq] at h
      obtain ⟨inner, mid, hi, after, hc, hb⟩ := h
      obtain ⟨ts, rfl, hf, hl⟩ := require_sound ih hi
      obtain ⟨us, he, hu, hul⟩ := bang_sound (.list hf) hb
      refine ⟨us, ?_, hu, by simpa [hul, TypeRef.levels] using hl⟩
      rw [← he, eq_of_expect hc]
      simp
    · cases h

theorem objectField_sound {value : OptionalReader Value} {p : Form Value} (h : Sound (finds value) p) :
    Sound (finds (objectField value)) (ObjectFieldForm p) := by
  intro input rest f hr
  unfold finds objectField at hr
  split at hr
  · cases hr
  · next name mid hn =>
    simp only [Except.bind_eq_ok_iff, Prod.exists, Except.pure_eq_ok_iff, Option.some.injEq,
      Prod.mk.injEq] at hr
    obtain ⟨mid', hc, v, rest', hv, rfl, rfl⟩ := hr
    obtain ⟨ts, rfl, hp⟩ := require_sound h hv
    exact ⟨_, by rw [eq_of_name? hn, eq_of_expect hc]; rfl, .mk name hp⟩

theorem many_within {measure : α → Nat} {n : Nat} {ts : List Token} {members : List (Member α)} :
    Many (Entry (within p measure n)) ts members ↔
      Many (Entry p) ts members ∧ deepest measure (items members) ≤ n := by
  constructor
  · intro h
    induction h with
    | nil => exact ⟨.nil, by simp [items, deepest]⟩
    | cons first _ ih =>
      cases first with
      | comment text => exact ⟨.cons (.comment text) ih.1, ih.2⟩
      | item h =>
        refine ⟨.cons (.item h.1) ih.1, ?_⟩
        have := h.2
        have := ih.2
        simp only [items, List.filterMap_cons, Member.item?, deepest, Nat.max_le] at *
        omega
  · rintro ⟨h, hl⟩
    induction h with
    | nil => exact .nil
    | cons first _ ih =>
      cases first with
      | comment text => exact .cons (.comment text) (ih hl)
      | item h =>
        simp only [items, List.filterMap_cons, Member.item?, deepest, Nat.max_le] at hl
        exact .cons (.item ⟨h, hl.1⟩) (ih hl.2)

theorem block_within {measure : α → Nat} {n : Nat} {opening closing : Char} {ts : List Token}
    {members : List (Member α)} :
    Block opening closing (within p measure n) ts members ↔
      Block opening closing p ts members ∧ deepest measure (items members) ≤ n :=
  ⟨fun ⟨h⟩ => ⟨.mk (many_within.1 h).1, (many_within.1 h).2⟩, fun ⟨⟨h⟩, hl⟩ => .mk (many_within.2 ⟨h, hl⟩)⟩

theorem objectField_within {p : Form Value} {measure : Value → Nat} {n : Nat} {ts : List Token}
    {f : String × Value} :
    ObjectFieldForm (within p measure n) ts f ↔ within (ObjectFieldForm p) (fun f => measure f.2) n ts f :=
  ⟨fun ⟨name, h⟩ => ⟨.mk name h.1, h.2⟩, fun ⟨⟨name, h⟩, hl⟩ => .mk name ⟨h, hl⟩⟩

theorem Sound.mono {takes : List Token → α → List Token → Prop} {q : Form α} (h : Sound takes p)
    (hpq : ∀ ts a, p ts a → q ts a) : Sound takes q := by
  intro input rest a ht
  obtain ⟨ts, he, hp⟩ := h ht
  exact ⟨ts, he, hpq ts a hp⟩

theorem many_stops {item : OptionalReader α} (hs : Sound (finds item) p) (hp : ∀ ts a, p ts a → ts ≠ [])
    {input rest : List Token} {as : List α} (h : many item input = .ok (as, rest)) :
    item rest = .ok none := by
  fun_induction many item input generalizing as rest with
  | case1 => cases h
  | case2 input hi =>
    obtain ⟨-, rfl⟩ : [] = as ∧ input = rest := by simpa using h
    exact hi
  | case3 input a mid hi _ ih =>
    simp only [Except.bind_eq_ok_iff, Prod.exists] at h
    obtain ⟨others, rest', hm, h⟩ := h
    obtain ⟨-, rfl⟩ : a :: others = as ∧ rest' = rest := by simpa using h
    exact ih hm
  | case4 input a mid hi hlen =>
    obtain ⟨ts, rfl, hts⟩ := hs hi
    have := List.length_pos_iff.2 (hp _ _ hts)
    simp only [List.length_append] at hlen
    omega

theorem item_none_of_member {item : OptionalReader α} {input : List Token}
    (h : member item input = .ok none) : item input = .ok none := by
  unfold member at h
  split at h
  · cases h
  · simp only [Except.bind_eq_ok_iff, Except.pure_eq_ok_iff, Option.map_eq_none_iff] at h
    obtain ⟨r, hr, rfl⟩ := h
    exact hr

theorem list_sound {n : Nat} (ih : Sound (finds (value? n)) (within ValueForm Value.demand n))
    {input mid rest : List Token} {members : List (Member Value)}
    (hm : many (member (value? n)) input = .ok (members, mid)) (hc : expect ']' mid = .ok rest) :
    ∃ ts, .punctuator '[' :: input = ts ++ rest ∧
      within ValueForm Value.demand (n + 1) ts (.list (items members)) := by
  obtain ⟨ts, he, hb⟩ := block_sound ih '[' ']' hm hc
  obtain ⟨hb, hd⟩ := block_within.1 hb
  refine ⟨ts, he, .list hb, ?_⟩
  -- The end of the list was noticed by a try for one more element.
  have hstop : value? n mid = .ok none := item_none_of_member
    (many_stops (member_sound ih) (fun _ _ => (ValueForm.opened.within _ _).entry_ne_nil) hm)
  have hn : n ≠ 0 := by rintro rfl; cases hstop
  simp only [Value.demand, itemDemand_eq]
  omega

theorem object_sound {n : Nat} (ih : Sound (finds (value? n)) (within ValueForm Value.demand n))
    {input mid rest : List Token} {members : List (Member (String × Value))}
    (hm : many (member (objectField (value? n))) input = .ok (members, mid)) (hc : expect '}' mid = .ok rest) :
    ∃ ts, .punctuator '{' :: input = ts ++ rest ∧
      within ValueForm Value.demand (n + 1) ts (.object (items members)) := by
  have hfield : Sound (finds (objectField (value? n)))
      (within (ObjectFieldForm ValueForm) (fun f => f.2.demand) n) :=
    (objectField_sound ih).mono fun _ _ => objectField_within.1
  obtain ⟨ts, he, hb⟩ := block_sound hfield '{' '}' hm hc
  obtain ⟨hb, hd⟩ := block_within.1 hb
  refine ⟨ts, he, .object hb, ?_⟩
  simp only [Value.demand, fieldDemand_eq]
  omega

theorem value?_sound (n : Nat) : Sound (finds (value? n)) (within ValueForm Value.demand n) := by
  induction n with
  | zero => intro _ _ _ h; cases h
  | succ n ih =>
    intro input rest v h
    rw [finds, value?, nested_eq_ok] at h
    split at h
    · next text rest' =>
      split at h
      · next hn =>
        obtain ⟨rfl, rfl⟩ := by simpa using h
        exact ⟨[.number text], rfl, .number hn, by simp [Value.demand]⟩
      · cases h
    · next text rest' =>
      obtain ⟨rfl, rfl⟩ := by simpa using h
      exact ⟨[.string text], rfl, .string text, by simp [Value.demand]⟩
    · next text rest' =>
      obtain ⟨hv, rfl⟩ := by simpa using h
      refine ⟨[.name text], rfl, ?_⟩
      split at hv
      · next ht => exact ht ▸ hv ▸ ⟨.true, by simp [Value.demand]⟩
      · next ht =>
        split at hv
        · next hf => exact hf ▸ hv ▸ ⟨.false, by simp [Value.demand]⟩
        · next hf => exact hv ▸ ⟨.enum ht hf, by simp [Value.demand]⟩
    · simp only [Except.bind_eq_ok_iff, Prod.exists, Except.pure_eq_ok_iff, Option.some.injEq,
        Prod.mk.injEq] at h
      obtain ⟨members, mid, hm, after, hc, rfl, rfl⟩ := h
      exact list_sound ih hm hc
    · simp only [Except.bind_eq_ok_iff, Prod.exists, Except.pure_eq_ok_iff, Option.some.injEq,
        Prod.mk.injEq] at h
      obtain ⟨members, mid, hm, after, hc, rfl, rfl⟩ := h
      exact object_sound ih hm hc
    · cases h

theorem expectType_sound : Sound (gives expectType) (within TypeForm TypeRef.levels maxLevels) :=
  require_sound (type?_sound _)

theorem expectValue_sound : Sound (gives expectValue) (within ValueForm Value.demand maxLevels) :=
  require_sound (value?_sound _)

theorem inputValue_sound :
    Sound (finds inputValue) (within InputForm (InputValueDefinition.depth Value.demand) maxLevels) := by
  intro input rest d h
  unfold finds inputValue at h
  split at h
  · cases h
  · next name mid hn =>
    simp only [Except.bind_eq_ok_iff, Prod.exists] at h
    obtain ⟨mid', hc, t, after, ht, h⟩ := h
    obtain ⟨ts, rfl, hts, htl⟩ := expectType_sound ht
    split at h
    · obtain ⟨rfl, rfl⟩ := by simpa using h
      refine ⟨_, by rw [eq_of_name? hn, eq_of_expect hc]; rfl, .plain name hts, ?_⟩
      simpa [InputValueDefinition.depth, deepest] using htl
    · next after' hp =>
      simp only [Except.bind_eq_ok_iff, Prod.exists] at h
      obtain ⟨v, rest', hv, h⟩ := h
      obtain ⟨rfl, rfl⟩ := by simpa using h
      obtain ⟨us, rfl, hus, hul⟩ := expectValue_sound hv
      refine ⟨_, ?_, .default name hts hus, ?_⟩
      · rw [eq_of_name? hn, eq_of_expect hc, eq_of_punctuator? hp]
        simp
      · simpa [InputValueDefinition.depth, deepest, Nat.max_le] using ⟨htl, hul⟩

theorem arguments_sound : Sound (gives arguments) (within ArgumentsForm
    (fun a => deepest (InputValueDefinition.depth Value.demand) (items (a.getD []))) maxLevels) := by
  intro input rest a h
  unfold gives arguments at h
  split at h
  · obtain ⟨rfl, rfl⟩ := by simpa using h
    exact ⟨[], rfl, .none, by simp [items, deepest]⟩
  · next mid hp =>
    simp only [Except.bind_eq_ok_iff, Prod.exists, Except.pure_eq_ok_iff, Prod.mk.injEq] at h
    obtain ⟨members, after, hm, rest', hc, rfl, rfl⟩ := h
    obtain ⟨ts, he, hb⟩ := block_sound inputValue_sound '(' ')' hm hc
    obtain ⟨hb, hd⟩ := block_within.1 hb
    exact ⟨ts, (eq_of_punctuator? hp).trans he, .some hb, hd⟩

theorem field_sound :
    Sound (finds field) (within FieldForm (FieldDefinition.depth Value.demand) maxLevels) := by
  intro input rest f h
  unfold finds field at h
  split at h
  · cases h
  · next name mid hn =>
    simp only [Except.bind_eq_ok_iff, Prod.exists, Except.pure_eq_ok_iff, Option.some.injEq,
      Prod.mk.injEq] at h
    obtain ⟨a, mid', ha, after, hc, t, rest', ht, rfl, rfl⟩ := h
    obtain ⟨ts, rfl, hts, hal⟩ := arguments_sound ha
    obtain ⟨us, rfl, hus, hul⟩ := expectType_sound ht
    refine ⟨_, ?_, .mk name hts hus, ?_⟩
    · rw [eq_of_name? hn, eq_of_expect hc]
      simp
    · simpa [FieldDefinition.depth, Nat.max_le] using ⟨hul, hal⟩

theorem anotherInterface_sound : Sound (finds anotherInterface) InterfaceForm := by
  intro input rest name h
  unfold finds anotherInterface at h
  split at h
  · next mid hp =>
    simp only [Except.bind_eq_ok_iff, Prod.exists, Except.pure_eq_ok_iff, Option.some.injEq,
      Prod.mk.injEq] at h
    obtain ⟨name', rest', hn, rfl, rfl⟩ := h
    exact ⟨_, by rw [eq_of_punctuator? hp, eq_of_expectName hn]; rfl, .joined name'⟩
  · exact ⟨_, eq_of_name? (Except.ok.inj h), .plain name⟩

theorem interfaces_sound : Sound (gives interfaces) InterfacesForm := by
  intro input rest names h
  unfold gives interfaces at h
  split at h
  · simp only [Except.bind_eq_ok_iff, Prod.exists, Except.pure_eq_ok_iff, Prod.mk.injEq] at h
    obtain ⟨first, mid, hf, others, rest', ho, rfl, rfl⟩ := h
    obtain ⟨ts, rfl, hts⟩ := require_sound anotherInterface_sound hf
    obtain ⟨us, rfl, hus⟩ := many_sound anotherInterface_sound ho
    exact ⟨_, by simp, .some hts hus⟩
  · obtain ⟨rfl, rfl⟩ := by simpa using h
    exact ⟨[], rfl, .none⟩

theorem anotherMember_sound : Sound (finds anotherMember) UnionMemberForm := by
  intro input rest name h
  unfold finds anotherMember at h
  split at h
  · next mid hp =>
    simp only [Except.bind_eq_ok_iff, Prod.exists, Except.pure_eq_ok_iff, Option.some.injEq,
      Prod.mk.injEq] at h
    obtain ⟨name', rest', hn, rfl, rfl⟩ := h
    exact ⟨_, by rw [eq_of_punctuator? hp, eq_of_expectName hn]; rfl, .mk name'⟩
  · cases h

theorem objectDefinition_sound {input rest : List Token} {d : ObjectDefinition}
    (h : objectDefinition input = .ok (d, rest)) :
    ∃ ts, .name "type" :: input = ts ++ rest ∧ ObjectForm ts d ∧
      deepest (FieldDefinition.depth Value.demand) (items d.fields) ≤ maxLevels := by
  simp only [objectDefinition, Except.bind_eq_ok_iff, Prod.exists, Except.pure_eq_ok_iff,
    Prod.mk.injEq] at h
  obtain ⟨name, mid, hn, names, mid', hi, fields, rest', hb, rfl, rfl⟩ := h
  obtain ⟨ts, rfl, hts⟩ := interfaces_sound hi
  obtain ⟨us, rfl, hus⟩ := body_sound field_sound hb
  obtain ⟨hus, hd⟩ := block_within.1 hus
  exact ⟨_, by simp [eq_of_expectName hn], .mk name hts hus, hd⟩

def Definitions : Form TypeDefinition := within DefinitionForm (TypeDefinition.depth Value.demand) maxLevels

theorem interfaceDefinition_sound {input rest : List Token} {d : InterfaceDefinition}
    (h : interfaceDefinition input = .ok (d, rest)) :
    ∃ ts, .name "interface" :: input = ts ++ rest ∧ Definitions ts (.interface d) := by
  simp only [interfaceDefinition, Except.bind_eq_ok_iff, Prod.exists, Except.pure_eq_ok_iff,
    Prod.mk.injEq] at h
  obtain ⟨name, mid, hn, fields, rest', hb, rfl, rfl⟩ := h
  obtain ⟨ts, rfl, hts⟩ := body_sound field_sound hb
  obtain ⟨hts, hd⟩ := block_within.1 hts
  exact ⟨_, by rw [eq_of_expectName hn]; rfl, .interface name hts, hd⟩

theorem unionDefinition_sound {input rest : List Token} {d : UnionDefinition}
    (h : unionDefinition input = .ok (d, rest)) :
    ∃ ts, .name "union" :: input = ts ++ rest ∧ Definitions ts (.union d) := by
  simp only [unionDefinition, Except.bind_eq_ok_iff, Prod.exists, Except.pure_eq_ok_iff,
    Prod.mk.injEq] at h
  obtain ⟨name, mid, hn, mid', he, first, mid'', hf, others, rest', ho, rfl, rfl⟩ := h
  obtain ⟨ts, rfl, hts⟩ := many_sound anotherMember_sound ho
  refine ⟨_, ?_, .union name first hts, by simp [TypeDefinition.depth]⟩
  rw [eq_of_expectName hn, eq_of_expect he, eq_of_expectName hf]
  rfl

theorem scalarDefinition_sound {input rest : List Token} {d : ScalarDefinition}
    (h : scalarDefinition input = .ok (d, rest)) :
    ∃ ts, .name "scalar" :: input = ts ++ rest ∧ Definitions ts (.scalar d) := by
  simp only [scalarDefinition, Except.bind_eq_ok_iff, Prod.exists, Except.pure_eq_ok_iff,
    Prod.mk.injEq] at h
  obtain ⟨name, rest', hn, rfl, rfl⟩ := h
  exact ⟨_, by rw [eq_of_expectName hn]; rfl, .scalar name, by simp [TypeDefinition.depth]⟩

theorem enumDefinition_sound {input rest : List Token} {d : EnumDefinition}
    (h : enumDefinition input = .ok (d, rest)) :
    ∃ ts, .name "enum" :: input = ts ++ rest ∧ Definitions ts (.enum d) := by
  simp only [enumDefinition, Except.bind_eq_ok_iff, Prod.exists, Except.pure_eq_ok_iff,
    Prod.mk.injEq] at h
  obtain ⟨name, mid, hn, values, rest', hb, rfl, rfl⟩ := h
  have hname : Sound (finds fun input => .ok (name? input)) NameForm := fun _ _ name h =>
    ⟨_, eq_of_name? (Except.ok.inj h), .mk name⟩
  obtain ⟨ts, rfl, hts⟩ := body_sound hname hb
  exact ⟨_, by rw [eq_of_expectName hn]; rfl, .enum name hts, by simp [TypeDefinition.depth]⟩

theorem inputObjectDefinition_sound {input rest : List Token} {d : InputObjectDefinition}
    (h : inputObjectDefinition input = .ok (d, rest)) :
    ∃ ts, .name "input" :: input = ts ++ rest ∧ Definitions ts (.inputObject d) := by
  simp only [inputObjectDefinition, Except.bind_eq_ok_iff, Prod.exists, Except.pure_eq_ok_iff,
    Prod.mk.injEq] at h
  obtain ⟨name, mid, hn, fields, rest', hb, rfl, rfl⟩ := h
  obtain ⟨ts, rfl, hts⟩ := body_sound inputValue_sound hb
  obtain ⟨hts, hd⟩ := block_within.1 hts
  exact ⟨_, by rw [eq_of_expectName hn]; rfl, .inputObject name hts, hd⟩

theorem extensionDefinition_sound {input rest : List Token} {d : ObjectDefinition}
    (h : extensionDefinition input = .ok (d, rest)) :
    ∃ ts, .name "extend" :: input = ts ++ rest ∧ Definitions ts (.extension d) := by
  unfold extensionDefinition at h
  split at h
  · obtain ⟨ts, he, hts, hd⟩ := objectDefinition_sound h
    exact ⟨_, by rw [he]; rfl, .extension hts, hd⟩
  · cases h

theorem defining_eq_ok {make : α → TypeDefinition} {read : Reader α} {input rest : List Token}
    {d : TypeDefinition} :
    defining make read input = .ok (some (d, rest)) ↔ ∃ a, read input = .ok (a, rest) ∧ make a = d := by
  simp [defining]

theorem definition_sound : Sound (finds definition) Definitions := by
  intro input rest d h
  unfold finds definition at h
  split at h
  · obtain ⟨o, ho, rfl⟩ := defining_eq_ok.1 h
    obtain ⟨ts, he, hts, hd⟩ := objectDefinition_sound ho
    exact ⟨ts, he, .object hts, hd⟩
  · obtain ⟨i, hi, rfl⟩ := defining_eq_ok.1 h
    exact interfaceDefinition_sound hi
  · obtain ⟨u, hu, rfl⟩ := defining_eq_ok.1 h
    exact unionDefinition_sound hu
  · obtain ⟨s, hs, rfl⟩ := defining_eq_ok.1 h
    exact scalarDefinition_sound hs
  · obtain ⟨e, he, rfl⟩ := defining_eq_ok.1 h
    exact enumDefinition_sound he
  · obtain ⟨i, hi, rfl⟩ := defining_eq_ok.1 h
    exact inputObjectDefinition_sound hi
  · obtain ⟨o, ho, rfl⟩ := defining_eq_ok.1 h
    exact extensionDefinition_sound ho
  · cases h

theorem document_sound {ts : List Token} {d : Document} (h : document ts = .ok d) :
    DocumentForm ts d ∧ d.demand ≤ maxLevels := by
  simp only [document, Except.bind_eq_ok_iff, Prod.exists] at h
  obtain ⟨definitions, rest, hm, h⟩ := h
  split at h
  · next hr =>
    obtain rfl := Except.pure_eq_ok_iff.1 h
    obtain ⟨us, rfl, hus⟩ := many_sound (member_sound definition_sound) hm
    obtain ⟨hus, hd⟩ := many_within.1 hus
    rw [List.isEmpty_iff.1 hr, List.append_nil]
    exact ⟨.mk hus, hd⟩
  · cases h

end Schemata.Grammar
