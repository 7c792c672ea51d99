import Schemata.Literal
import Schemata.Proofs.Json.Range
import Schemata.Proofs.OrderedMap
import Schemata.Proofs.Outcome

namespace Schemata

variable {α β γ : Type}

def Numeral.Reads (n : Numeral) (v : Json) : Prop :=
  (n.IsWhole64 → v = .int n.wholeValue) ∧
    (¬n.IsWhole64 → ∃ x, v = .float x ∧ x.isFinite ∧ x.isNegative = n.negative)

namespace QueryLiteral

mutual

def leaves : QueryLiteral → List QueryLiteral
  | list items => itemLeaves items
  | object fields => fieldLeaves fields
  | int lexeme => [int lexeme]
  | float lexeme => [float lexeme]
  | string value => [string value]
  | boolean value => [boolean value]
  | null => [null]
  | enum name => [enum name]
  | variableRef name => [variableRef name]

def itemLeaves : List QueryLiteral → List QueryLiteral
  | [] => []
  | item :: items => item.leaves ++ itemLeaves items

def fieldLeaves : List (String × QueryLiteral) → List QueryLiteral
  | [] => []
  | (_, literal) :: fields => literal.leaves ++ fieldLeaves fields

end

def IsNumber (lexeme : String) : Prop := ∃ n : Numeral, n.Spells lexeme ∧ n.InRange

inductive Offends : QueryLiteral → LiteralError → Prop
  | variableRef (name : String) : Offends (.variableRef name) .unexpectedVariable
  | int {lexeme : String} : ¬IsNumber lexeme → Offends (.int lexeme) (.invalidNumber lexeme)
  | float {lexeme : String} : ¬IsNumber lexeme → Offends (.float lexeme) (.invalidNumber lexeme)

def FirstError (leaves : List QueryLiteral) (e : LiteralError) : Prop :=
  ∃ before l after, leaves = before ++ l :: after ∧ (∀ a ∈ before, ∀ e, ¬a.Offends e) ∧ l.Offends e

mutual

inductive Represents : QueryLiteral → Json → Prop
  | int {lexeme : String} {n : Numeral} {v : Json} : n.Spells lexeme → n.Reads v → Represents (.int lexeme) v
  | float {lexeme : String} {n : Numeral} {v : Json} : n.Spells lexeme → n.Reads v → Represents (.float lexeme) v
  | string (value : String) : Represents (.string value) (.string value)
  | boolean (value : Bool) : Represents (.boolean value) (.bool value)
  | null : Represents .null .null
  | enum (name : String) : Represents (.enum name) (.string name)
  | list {items : List QueryLiteral} {values : List Json} :
    RepresentItems items values → Represents (.list items) (.array values)
  | object {fields : List (String × QueryLiteral)} {members : List (String × Json)} :
    RepresentFields fields members → Represents (.object fields) (.object members)

inductive RepresentItems : List QueryLiteral → List Json → Prop
  | nil : RepresentItems [] []
  | cons {item : QueryLiteral} {items : List QueryLiteral} {v : Json} {values : List Json} :
    Represents item v → RepresentItems items values → RepresentItems (item :: items) (v :: values)

inductive RepresentFields : List (String × QueryLiteral) → List (String × Json) → Prop
  | nil : RepresentFields [] []
  | cons {key : String} {l : QueryLiteral} {v : Json} {fields : List (String × QueryLiteral)}
    {members : List (String × Json)} :
    Represents l v → RepresentFields fields members → RepresentFields ((key, l) :: fields) ((key, v) :: members)

end

mutual

def DistinctKeys : QueryLiteral → Prop
  | list items => itemsDistinct items
  | object fields => (fields.map Prod.fst).Nodup ∧ fieldsDistinct fields
  | int _ | float _ | string _ | boolean _ | null | enum _ | variableRef _ => True

def itemsDistinct : List QueryLiteral → Prop
  | [] => True
  | item :: items => item.DistinctKeys ∧ itemsDistinct items

def fieldsDistinct : List (String × QueryLiteral) → Prop
  | [] => True
  | (_, literal) :: fields => literal.DistinctKeys ∧ fieldsDistinct fields

end

structure CoercesLeafwise (l : QueryLiteral) : Prop where
  succeeds_iff : (∃ v, l.coerce = .ok v) ↔ (∀ name, .variableRef name ∉ l.leaves) ∧
    ∀ lexeme, .int lexeme ∈ l.leaves ∨ .float lexeme ∈ l.leaves → IsNumber lexeme
  error_iff : ∀ e, l.coerce = .error e ↔ FirstError l.leaves e
  represents : ∀ v, l.coerce = .ok v → l.DistinctKeys → l.Represents v
  ranged : ∀ lexeme (n : Numeral), .int lexeme ∈ l.leaves ∨ .float lexeme ∈ l.leaves → n.Spells lexeme → n.RangedBySize

theorem Offends.unique {l : QueryLiteral} {e e' : LiteralError} (h : l.Offends e) (h' : l.Offends e') : e = e' := by
  cases h <;> cases h' <;> rfl

theorem firstError_cons {a : QueryLiteral} {ls : List QueryLiteral} {e : LiteralError} :
    FirstError (a :: ls) e ↔ a.Offends e ∨ (∀ e, ¬a.Offends e) ∧ FirstError ls e := by
  constructor
  · rintro ⟨before, l, after, hs, hb, hl⟩
    cases before with
    | nil =>
      obtain ⟨rfl, rfl⟩ := List.cons.inj hs
      exact .inl hl
    | cons b before =>
      obtain ⟨rfl, rfl⟩ := List.cons.inj hs
      obtain ⟨own, others⟩ := List.forall_mem_cons.1 hb
      exact .inr ⟨own, before, l, after, rfl, others, hl⟩
  · rintro (h | ⟨own, before, l, after, rfl, hb, hl⟩)
    · exact ⟨[], a, ls, rfl, nofun, h⟩
    · exact ⟨a :: before, l, after, rfl, List.forall_mem_cons.2 ⟨own, hb⟩, hl⟩

theorem FirstError.unique {ls : List QueryLiteral} {e e' : LiteralError} (h : FirstError ls e) (h' : FirstError ls e') :
    e = e' := by
  induction ls with
  | nil =>
    obtain ⟨before, l, after, hs, -⟩ := h
    simp at hs
  | cons a ls ih =>
    rcases firstError_cons.1 h with here | ⟨none, later⟩ <;> rcases firstError_cons.1 h' with here' | ⟨none', later'⟩
    · exact here.unique here'
    · exact absurd here (none' e)
    · exact absurd here' (none e')
    · exact ih later later'

def Settles (leaves : List QueryLiteral) : Except LiteralError α → Prop
  | .ok _ => ∀ l ∈ leaves, ∀ e, ¬l.Offends e
  | .error e => FirstError leaves e

namespace Settles

variable {ls ls' : List QueryLiteral} {x : Except LiteralError α} {y : Except LiteralError β}

theorem map (h : Settles ls x) (f : α → β) : Settles ls (x.map f) := by
  cases x <;> exact h

theorem append (h : Settles ls x) (h' : Settles ls' y) (f : α → β → γ) :
    Settles (ls ++ ls') (do let a ← x; let b ← y; return f a b) := by
  cases x with
  | error e =>
    obtain ⟨before, l, after, rfl, hb, hl⟩ := h
    exact ⟨before, l, after ++ ls', by simp, hb, hl⟩
  | ok a =>
    cases y with
    | error e =>
      obtain ⟨before, l, after, rfl, hb, hl⟩ := h'
      exact ⟨ls ++ before, l, after, by simp, List.forall_mem_append.2 ⟨h, hb⟩, hl⟩
    | ok b => exact List.forall_mem_append.2 ⟨h, h'⟩

end Settles

theorem coerceNumber_eq_ok_iff {lexeme : String} {v : Json} :
    coerceNumber lexeme = .ok v ↔ Json.readNumber? lexeme = some v := by
  rw [coerceNumber]
  cases Json.readNumber? lexeme <;> simp

theorem coerceNumber_settles {lexeme : String} {l : QueryLiteral}
    (h : ∀ e, l.Offends e ↔ ¬IsNumber lexeme ∧ e = .invalidNumber lexeme) : Settles [l] (coerceNumber lexeme) := by
  rw [coerceNumber]
  cases hr : Json.readNumber? lexeme with
  | some v =>
    have number : IsNumber lexeme := exists_readNumber?_iff.1 ⟨v, hr⟩
    exact List.forall_mem_singleton.2 fun e he => ((h e).1 he).1 number
  | none =>
    have fails : ¬IsNumber lexeme := by
      rw [IsNumber, ← exists_readNumber?_iff, hr]
      simp
    exact ⟨[], l, [], rfl, nofun, (h _).2 ⟨fails, rfl⟩⟩

mutual

theorem coerce_settles : (l : QueryLiteral) → Settles l.leaves l.coerce
  | int lexeme => coerceNumber_settles fun e => ⟨fun | .int h => ⟨h, rfl⟩, fun | ⟨h, he⟩ => he ▸ .int h⟩
  | float lexeme => coerceNumber_settles fun e => ⟨fun | .float h => ⟨h, rfl⟩, fun | ⟨h, he⟩ => he ▸ .float h⟩
  | string _ | boolean _ | null | enum _ => List.forall_mem_singleton.2 nofun
  | list items => by
    rw [leaves, coerce]
    exact (coerceItems_settles items).map Json.array
  | object fields => by
    rw [leaves, coerce]
    exact (coerceFields_settles fields).map Json.ofMembers
  | variableRef name => ⟨[], .variableRef name, [], rfl, nofun, .variableRef name⟩

theorem coerceItems_settles : (items : List QueryLiteral) → Settles (itemLeaves items) (coerceItems items)
  | [] => nofun
  | item :: items => (coerce_settles item).append (coerceItems_settles items) fun v values => v :: values

theorem coerceFields_settles :
    (fields : List (String × QueryLiteral)) → Settles (fieldLeaves fields) (coerceFields fields)
  | [] => nofun
  | (key, l) :: fields => (coerce_settles l).append (coerceFields_settles fields) fun v values => (key, v) :: values

end

theorem coerce_ok_iff (l : QueryLiteral) : (∃ v, l.coerce = .ok v) ↔ ∀ a ∈ l.leaves, ∀ e, ¬a.Offends e := by
  have settled := l.coerce_settles
  cases hc : l.coerce with
  | ok v =>
    rw [hc] at settled
    exact iff_of_true ⟨v, rfl⟩ settled
  | error e =>
    rw [hc] at settled
    obtain ⟨before, a, after, hs, -, ha⟩ := settled
    refine iff_of_false (by simp) fun none => none a ?_ e ha
    simp [hs]

theorem coerce_error_iff (l : QueryLiteral) (e : LiteralError) : l.coerce = .error e ↔ FirstError l.leaves e := by
  have settled := l.coerce_settles
  cases hc : l.coerce with
  | ok v =>
    rw [hc] at settled
    refine iff_of_false (by simp) ?_
    rintro ⟨before, a, after, hs, -, ha⟩
    exact settled a (by simp [hs]) e ha
  | error e' =>
    rw [hc] at settled
    rw [Except.error.injEq]
    constructor
    · rintro rfl
      exact settled
    · exact settled.unique

theorem forall_not_offends_iff (ls : List QueryLiteral) : (∀ a ∈ ls, ∀ e, ¬a.Offends e) ↔
    (∀ name, .variableRef name ∉ ls) ∧ ∀ lexeme, .int lexeme ∈ ls ∨ .float lexeme ∈ ls → IsNumber lexeme := by
  constructor
  · intro h
    refine ⟨fun name hm => h _ hm _ (.variableRef name), fun lexeme hm => ?_⟩
    by_contra hn
    rcases hm with hm | hm
    · exact h _ hm _ (.int hn)
    · exact h _ hm _ (.float hn)
  · rintro ⟨constant, numbers⟩ a ha e he
    cases he with
    | variableRef name => exact constant name ha
    | int hn => exact hn (numbers _ (.inl ha))
    | float hn => exact hn (numbers _ (.inr ha))

theorem RepresentFields.keys : {fields : List (String × QueryLiteral)} → {members : List (String × Json)} →
    RepresentFields fields members → members.map Prod.fst = fields.map Prod.fst
  | [], [], .nil => rfl
  | _ :: _, _ :: _, .cons _ rest => congrArg (_ :: ·) rest.keys

theorem exists_reads {lexeme : String} {v : Json} (h : coerceNumber lexeme = .ok v) :
    ∃ n : Numeral, n.Spells lexeme ∧ n.Reads v := by
  obtain ⟨n, hn, hv⟩ := readNumber?_eq_some_iff.1 (coerceNumber_eq_ok_iff.1 h)
  refine ⟨n, hn, fun whole => ?_, fun scaled => ?_⟩
  · rw [ofNumeral?_whole whole] at hv
    exact (Option.some.inj hv).symm
  · rw [ofNumeral?_scaled scaled] at hv
    obtain ⟨x, hm, rfl⟩ := Option.map_eq_some_iff.1 hv
    exact ⟨_, rfl, (Numeral.magnitude?_isSize hn.1 hm).signed n.negative⟩

mutual

theorem coerce_represents : (l : QueryLiteral) → l.DistinctKeys → ∀ v, l.coerce = .ok v → l.Represents v
  | int _, _, v, h => by
    obtain ⟨n, hn, hv⟩ := exists_reads h
    exact .int hn hv
  | float _, _, v, h => by
    obtain ⟨n, hn, hv⟩ := exists_reads h
    exact .float hn hv
  | string value, _, _, h => Except.ok.inj h ▸ .string value
  | boolean value, _, _, h => Except.ok.inj h ▸ .boolean value
  | null, _, _, h => Except.ok.inj h ▸ .null
  | enum name, _, _, h => Except.ok.inj h ▸ .enum name
  | list items, hd, v, h => by
    obtain ⟨values, hv, rfl⟩ := Except.map_eq_ok_iff.1 h
    exact .list (coerceItems_represent items hd values hv)
  | object fields, hd, v, h => by
    obtain ⟨members, hm, rfl⟩ := Except.map_eq_ok_iff.1 h
    have represent := coerceFields_represent fields hd.2 members hm
    rw [Json.ofMembers, OrderedMap.ofList_entries (represent.keys ▸ hd.1)]
    exact .object represent

theorem coerceItems_represent : (items : List QueryLiteral) → itemsDistinct items →
    ∀ values, coerceItems items = .ok values → RepresentItems items values
  | [], _, values, h => Except.ok.inj h ▸ .nil
  | item :: items, hd, values, h => by
    obtain ⟨v, hv, h⟩ := Except.bind_eq_ok_iff.1 h
    obtain ⟨vs, hvs, h⟩ := Except.bind_eq_ok_iff.1 h
    obtain rfl := Except.ok.inj h
    exact .cons (coerce_represents item hd.1 v hv) (coerceItems_represent items hd.2 vs hvs)

theorem coerceFields_represent : (fields : List (String × QueryLiteral)) → fieldsDistinct fields →
    ∀ members, coerceFields fields = .ok members → RepresentFields fields members
  | [], _, members, h => Except.ok.inj h ▸ .nil
  | (key, l) :: fields, hd, members, h => by
    obtain ⟨v, hv, h⟩ := Except.bind_eq_ok_iff.1 h
    obtain ⟨ms, hms, h⟩ := Except.bind_eq_ok_iff.1 h
    obtain rfl := Except.ok.inj h
    exact .cons (coerce_represents l hd.1 v hv) (coerceFields_represent fields hd.2 ms hms)

end

/-- A literal is converted leaf by leaf, all or nothing. -/
theorem coerce_leafwise (l : QueryLiteral) : l.CoercesLeafwise where
  succeeds_iff := l.coerce_ok_iff.trans (forall_not_offends_iff l.leaves)
  error_iff := l.coerce_error_iff
  represents v h hd := l.coerce_represents hd v h
  ranged _ n _ hn := n.rangedBySize hn.1

-- The limits of 64 bits, and a number that is the first of two errors.
example :
    (object [("ids", list [int "18446744073709551615", int " -9223372036854775808\n"]), ("role", enum "ADMIN")]).coerce =
      .ok (.object [("ids", .array [.int (2 ^ 64 - 1), .int (-2 ^ 63)]), ("role", .string "ADMIN")]) := by
  decide +kernel

example : (list [object [("id", int "01")], variableRef "id"]).coerce = .error (.invalidNumber "01") := by
  decide +kernel

end QueryLiteral

end Schemata
