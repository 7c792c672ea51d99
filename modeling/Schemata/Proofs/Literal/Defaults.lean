import Schemata.Proofs.Literal

namespace Schemata

def IsInt64 (lexeme : String) : Prop :=
  lexeme ≠ "-0" ∧ ∃ n : Numeral, n.WellFormed ∧ n.text = lexeme.toList ∧ n.isIntegral ∧
    -2 ^ 63 ≤ n.wholeValue ∧ n.wholeValue < 2 ^ 63

namespace Numeral

variable {n : Numeral}

theorem whole_eq_zero (hn : n.WellFormed) (h : digitsValue n.whole = 0) : n.whole = ['0'] := by
  apply hn.leading
  obtain ⟨d, digits, hw⟩ := List.exists_cons_of_ne_nil hn.nonempty
  have digit : d.isDigit := hn.whole d (hw ▸ List.mem_cons_self)
  rw [hw, digitsValue_cons] at h
  have unit : 0 < 10 ^ digits.length := Nat.pow_pos (by decide)
  have product : digitsValue [d] * 10 ^ digits.length = 0 := by omega
  have zero : digitsValue [d] = 0 := (Nat.mul_eq_zero.1 product).resolve_right unit.ne'
  have low : 48 ≤ d.toNat := by
    simp only [Char.isDigit, Bool.and_eq_true, decide_eq_true_eq, UInt32.le_iff_toNat_le] at digit
    exact digit.1
  have code : '0'.toNat = 48 := rfl
  rw [digitsValue, List.foldl_cons, List.foldl_nil] at zero
  have same : d.toNat = '0'.toNat := by omega
  rw [hw, List.head?_cons, Char.toNat_inj.1 same]

theorem text_eq_negative_zero (hn : n.WellFormed) (hi : n.isIntegral) (hs : n.negative) (h : n.wholeValue = 0) :
    n.text = ['-', '0'] := by
  obtain ⟨fraction, exponent⟩ : n.fraction = [] ∧ n.exponent = none := by simpa [isIntegral] using hi
  have zero : digitsValue n.whole = 0 := by simpa [wholeValue, hs] using h
  simp [text, hs, fraction, exponent, whole_eq_zero hn zero]

theorem ofInt_text_ne (i : Int) : (ofInt i).text ≠ ['-', '0'] := by
  intro h
  have split := split?_eq_some_iff.2 ⟨ofInt_wellFormed i, h⟩
  have read : split? ['-', '0'] = some (⟨true, ['0'], [], none⟩, []) := rfl
  have same : ofInt i = ⟨true, ['0'], [], none⟩ := (Prod.mk.inj (Option.some.inj (split.symm.trans read))).1
  have zero : wholeValue ⟨true, ['0'], [], none⟩ = 0 := rfl
  have sign : (ofInt i).negative = true := by rw [same]
  have value := ofInt_wholeValue i
  rw [same, zero] at value
  simp [ofInt, ← value] at sign

end Numeral

theorem isInt64_ofInt (i : Int64) : IsInt64 (String.ofList (Numeral.ofInt i.toInt).text) := by
  refine ⟨fun h => ?_, _, Numeral.ofInt_wellFormed _, by rw [String.toList_ofList], rfl, ?_⟩
  · apply Numeral.ofInt_text_ne i.toInt
    rw [← String.toList_ofList (l := (Numeral.ofInt i.toInt).text), h]
    rfl
  · rw [Numeral.ofInt_wholeValue]
    exact ⟨i.le_toInt, i.toInt_lt⟩

theorem IsInt64.read {lexeme : String} (h : IsInt64 lexeme) :
    ∃ i : Int64, Number.read? lexeme = some (.int i) ∧ QueryLiteral.coerceNumber lexeme = .ok (.int i.toInt) := by
  obtain ⟨unsigned, n, hn, ht, integral, low, high⟩ := h
  have value : (Int64.ofInt n.wholeValue).toInt = n.wholeValue := Int64.toInt_ofInt_of_le low high
  refine ⟨Int64.ofInt n.wholeValue, Number.read?_eq_some_iff.2 ⟨n, hn, ht, ?_⟩, ?_⟩
  · rw [Number.ofNumeral, Int64.toInt_minValue, Int64.toInt_maxValue, if_pos ⟨integral, low, Int.le_sub_one_of_lt high⟩]
  · have spells : n.Spells lexeme := ⟨hn, [], [], List.forall_mem_nil _, List.forall_mem_nil _, by simp [ht]⟩
    have signed : ¬(n.negative ∧ n.wholeValue = 0) := by
      rintro ⟨negative, zero⟩
      apply unsigned
      rw [← String.toList_inj, ← ht, Numeral.text_eq_negative_zero hn integral negative zero]
      rfl
    rw [QueryLiteral.coerceNumber_eq_ok_iff, readNumber?_of_spells spells, value]
    exact ofNumeral?_whole ⟨integral, signed, low, by omega⟩

namespace Value

mutual

inductive WrittenAs : Value → QueryLiteral → Prop
  | string (text : String) : WrittenAs (.string text) (.string text)
  | boolean (value : Bool) : WrittenAs (.boolean value) (.boolean value)
  | enum (name : String) : WrittenAs (.enum name) (.enum name)
  | integer {lexeme : String} {x : Number} :
    IsInt64 lexeme → Number.read? lexeme = some x → WrittenAs (.number x) (.int lexeme)
  | list {items : List Value} {literals : List QueryLiteral} :
    ItemsWrittenAs items literals → WrittenAs (.list items) (.list literals)
  | object {fields : List (String × Value)} {literals : List (String × QueryLiteral)} :
    FieldsWrittenAs fields literals → WrittenAs (.object fields) (.ofFields literals)

inductive ItemsWrittenAs : List Value → List QueryLiteral → Prop
  | nil : ItemsWrittenAs [] []
  | cons {v : Value} {items : List Value} {l : QueryLiteral} {literals : List QueryLiteral} :
    WrittenAs v l → ItemsWrittenAs items literals → ItemsWrittenAs (v :: items) (l :: literals)

inductive FieldsWrittenAs : List (String × Value) → List (String × QueryLiteral) → Prop
  | nil : FieldsWrittenAs [] []
  | cons {name : String} {v : Value} {fields : List (String × Value)} {l : QueryLiteral}
    {literals : List (String × QueryLiteral)} :
    WrittenAs v l → FieldsWrittenAs fields literals → FieldsWrittenAs ((name, v) :: fields) ((name, l) :: literals)

end

mutual

def Whole : Value → Prop
  | number (.float _) => False
  | list items => itemsWhole items
  | object fields => fieldsWhole fields
  | boolean _ | enum _ | number (.int _) | string _ => True

def itemsWhole : List Value → Prop
  | [] => True
  | v :: items => v.Whole ∧ itemsWhole items

def fieldsWhole : List (String × Value) → Prop
  | [] => True
  | (_, v) :: fields => v.Whole ∧ fieldsWhole fields

end

mutual

theorem exists_writtenAs : (v : Value) → v.Whole → ∃ q, v.WrittenAs q
  | boolean b, _ => ⟨_, .boolean b⟩
  | enum name, _ => ⟨_, .enum name⟩
  | string text, _ => ⟨_, .string text⟩
  | number (.int i), _ => by
    have read := Number.read?_eq_some_iff.2 ⟨_, Numeral.ofInt_wellFormed i.toInt, String.toList_ofList.symm, rfl⟩
    rw [Number.ofNumeral_ofInt] at read
    exact ⟨_, .integer (isInt64_ofInt i) read⟩
  | list items, h => by
    obtain ⟨literals, hl⟩ := exists_itemsWrittenAs items h
    exact ⟨_, .list hl⟩
  | object fields, h => by
    obtain ⟨literals, hl⟩ := exists_fieldsWrittenAs fields h
    exact ⟨_, .object hl⟩

theorem exists_itemsWrittenAs : (items : List Value) → itemsWhole items → ∃ literals, ItemsWrittenAs items literals
  | [], _ => ⟨_, .nil⟩
  | v :: items, h => by
    obtain ⟨l, hl⟩ := exists_writtenAs v h.1
    obtain ⟨literals, hls⟩ := exists_itemsWrittenAs items h.2
    exact ⟨_, .cons hl hls⟩

theorem exists_fieldsWrittenAs : (fields : List (String × Value)) → fieldsWhole fields →
    ∃ literals, FieldsWrittenAs fields literals
  | [], _ => ⟨_, .nil⟩
  | (_, v) :: fields, h => by
    obtain ⟨l, hl⟩ := exists_writtenAs v h.1
    obtain ⟨literals, hls⟩ := exists_fieldsWrittenAs fields h.2
    exact ⟨_, .cons hl hls⟩

end

end Value

namespace QueryLiteral

theorem coerceFields_writeEntry {key : String} {l : QueryLiteral} {v : Json} (hl : l.coerce = .ok v) :
    {fields : List (String × QueryLiteral)} → {members : List (String × Json)} → coerceFields fields = .ok members →
    coerceFields (writeEntry key l fields) = .ok (writeEntry key v members)
  | [], members, h => by
    obtain rfl := Except.ok.inj h
    rw [writeEntry, coerceFields, hl]
    rfl
  | (k, l') :: fields, members, h => by
    obtain ⟨v', hv, h⟩ := Except.bind_eq_ok_iff.1 h
    obtain ⟨ms, hms, h⟩ := Except.bind_eq_ok_iff.1 h
    obtain rfl := Except.ok.inj h
    rw [writeEntry, writeEntry]
    by_cases hk : k = key
    · rw [if_pos hk, if_pos hk, coerceFields, hl, hms]
      rfl
    · rw [if_neg hk, if_neg hk, coerceFields, hv, coerceFields_writeEntry hl hms]
      rfl

theorem coerceFields_foldl_insert {m : OrderedMap QueryLiteral} {m' : OrderedMap Json}
    (hm : coerceFields m.entries = .ok m'.entries) :
    {fields : List (String × QueryLiteral)} → {members : List (String × Json)} → coerceFields fields = .ok members →
    coerceFields (fields.foldl (fun m f => m.insert f.1 f.2) m).entries =
      .ok (members.foldl (fun m f => m.insert f.1 f.2) m').entries
  | [], members, h => by
    obtain rfl := Except.ok.inj h
    exact hm
  | (key, l) :: fields, members, h => by
    obtain ⟨v, hv, h⟩ := Except.bind_eq_ok_iff.1 h
    obtain ⟨ms, hms, h⟩ := Except.bind_eq_ok_iff.1 h
    obtain rfl := Except.ok.inj h
    have first : coerceFields (m.insert key l).entries = .ok (m'.insert key v).entries := coerceFields_writeEntry hv hm
    exact coerceFields_foldl_insert first hms

theorem coerce_ofFields {fields : List (String × QueryLiteral)} {members : List (String × Json)}
    (h : coerceFields fields = .ok members) : (ofFields fields).coerce = .ok (.ofMembers members) := by
  have nothing : coerceFields OrderedMap.empty.entries = .ok OrderedMap.empty.entries := rfl
  have written : coerceFields (OrderedMap.ofList fields).entries = .ok (OrderedMap.ofList members).entries :=
    coerceFields_foldl_insert nothing h
  have again := OrderedMap.ofList_entries (OrderedMap.ofList members).keys_nodup
  rw [ofFields, coerce, written]
  exact congrArg (fun entries => Except.ok (Json.object entries)) again

end QueryLiteral

namespace Value

mutual

theorem WrittenAs.coerce {v : Value} {q : QueryLiteral} : v.WrittenAs q → q.coerce = .ok v.runtimeValue
  | .string _ | .boolean _ | .enum _ => rfl
  | .integer whole read => by
    obtain ⟨i, hi, value⟩ := whole.read
    obtain rfl := Option.some.inj (read.symm.trans hi)
    exact value
  | .list items => by
    rw [QueryLiteral.coerce, items.coerce]
    rfl
  | .object fields => QueryLiteral.coerce_ofFields fields.coerce

theorem ItemsWrittenAs.coerce {items : List Value} {literals : List QueryLiteral} :
    ItemsWrittenAs items literals → QueryLiteral.coerceItems literals = .ok (itemValues items)
  | .nil => rfl
  | .cons first others => by
    rw [QueryLiteral.coerceItems, first.coerce, others.coerce]
    rfl

theorem FieldsWrittenAs.coerce {fields : List (String × Value)} {literals : List (String × QueryLiteral)} :
    FieldsWrittenAs fields literals → QueryLiteral.coerceFields literals = .ok (fieldValues fields)
  | .nil => rfl
  | .cons first others => by
    rw [QueryLiteral.coerceFields, first.coerce, others.coerce]
    rfl

end

mutual

inductive Denotes : Value → Json → Prop
  | boolean (value : Bool) : Denotes (.boolean value) (.bool value)
  | enum (name : String) : Denotes (.enum name) (.string name)
  | number (x : Number) : Denotes (.number x) x.runtimeValue
  | string (text : String) : Denotes (.string text) (.string text)
  | list {items : List Value} {values : List Json} : ItemsDenote items values → Denotes (.list items) (.array values)
  | object {fields : List (String × Value)} {members : List (String × Json)} :
    members.map Prod.fst = (fields.map Prod.fst).eraseDups →
    (∀ name j, (name, j) ∈ members → ∀ v, fields.reverse.lookup name = some v → Denotes v j) →
    Denotes (.object fields) (.object members)

inductive ItemsDenote : List Value → List Json → Prop
  | nil : ItemsDenote [] []
  | cons {v : Value} {items : List Value} {j : Json} {values : List Json} :
    Denotes v j → ItemsDenote items values → ItemsDenote (v :: items) (j :: values)

end

theorem fieldValues_eq (fields : List (String × Value)) :
    fieldValues fields = fields.map fun f => (f.1, f.2.runtimeValue) := by
  induction fields with
  | nil => rfl
  | cons f fields ih => rw [fieldValues, ih, List.map_cons]

theorem fieldValues_map (fields : List (String × Value)) :
    OrderedMap.ofList (fieldValues fields) = (OrderedMap.ofList fields).mapValues fun _ v => v.runtimeValue := by
  rw [fieldValues_eq, OrderedMap.ofList_mapValues]

mutual

theorem denotes_runtimeValue : (v : Value) → v.Denotes v.runtimeValue
  | boolean b => .boolean b
  | enum name => .enum name
  | number x => .number x
  | string text => .string text
  | list items => .list (items_denote items)
  | object fields => by
    rw [runtimeValue, Json.ofMembers, fieldValues_map]
    refine .object ?_ fun name j hj v hv => ?_
    · rw [OrderedMap.mapValues_entries, List.map_map]
      exact OrderedMap.ofList_keys fields
    · obtain ⟨u, hu, rfl⟩ := OrderedMap.mapValues_get?.1 (OrderedMap.get?_eq_some_iff.2 hj)
      have last : (OrderedMap.ofList fields).get? name = some v := by rw [OrderedMap.ofList_get?_eq, hv]
      obtain rfl := Option.some.inj (hu.symm.trans last)
      exact fields_denote fields _ (OrderedMap.mem_of_mem_ofList (OrderedMap.get?_eq_some_iff.1 hu))

theorem items_denote : (items : List Value) → ItemsDenote items (itemValues items)
  | [] => .nil
  | v :: items => .cons v.denotes_runtimeValue (items_denote items)

theorem fields_denote : (fields : List (String × Value)) → ∀ f ∈ fields, f.2.Denotes f.2.runtimeValue
  | [] => nofun
  | (_, v) :: fields => List.forall_mem_cons.2 ⟨v.denotes_runtimeValue, fields_denote fields⟩

end

/-- A value without fractions can be written as the literal of a query, and whatever literal is written like it has the
value's meaning. -/
theorem coerce_writtenAs (v : Value) : (v.Whole → ∃ q, v.WrittenAs q) ∧
    ∀ q, v.WrittenAs q → q.coerce = .ok v.runtimeValue ∧ v.Denotes v.runtimeValue :=
  ⟨v.exists_writtenAs, fun _ h => ⟨h.coerce, v.denotes_runtimeValue⟩⟩

theorem coerce_writtenAs_repeated :
    let v : Value := .object [("a", .number (.int Int64.minValue)),
      ("b", .list [.object [("x", .enum "A"), ("y", .boolean true), ("x", .string "s")]]), ("a", .number (.int 7))]
    let q : QueryLiteral := .ofFields [("a", .int "-9223372036854775808"),
      ("b", .list [.ofFields [("x", .enum "A"), ("y", .boolean true), ("x", .string "s")]]), ("a", .int "7")]
    v.Whole ∧ v.WrittenAs q ∧ q.coerce =
      .ok (.object [("a", .int 7), ("b", .array [.object [("x", .string "s"), ("y", .bool true)]])]) := by
  intro v q
  have least : IsInt64 "-9223372036854775808" := isInt64_ofInt Int64.minValue
  have seven : IsInt64 "7" := isInt64_ofInt 7
  have inner : FieldsWrittenAs [("x", .enum "A"), ("y", .boolean true), ("x", .string "s")]
      [("x", .enum "A"), ("y", .boolean true), ("x", .string "s")] :=
    .cons (.enum "A") (.cons (.boolean true) (.cons (.string "s") .nil))
  have written : v.WrittenAs q := .object (.cons (.integer least rfl)
    (.cons (.list (.cons (.object inner) .nil)) (.cons (.integer seven rfl) .nil)))
  have whole : v.Whole := by simp [v, Whole, fieldsWhole, itemsWhole]
  exact ⟨whole, written, ((coerce_writtenAs v).2 q written).1⟩

end Value

end Schemata
