import Schemata.Proofs.Resolver.Placeholders

namespace Schemata

namespace Implementations

variable {m : Implementations} {type : String}

inductive Part
  | field (type name : String)
  | typeResolver (type : String)
  | scalar (type : String)
  | enumValue (type name : String)

def Part.owner : Part → String
  | field type _ | typeResolver type | scalar type | enumValue type _ => type

abbrev Part.Content : Part → Type
  | field _ _ => FieldResolver
  | typeResolver _ => TypeResolver
  | scalar _ => ScalarImplementation
  | enumValue _ _ => Json

def read (m : Implementations) : (p : Part) → Option p.Content
  | .field type name => m.fieldResolver? type name
  | .typeResolver type => m.typeResolver? type
  | .scalar type => m.scalar? type
  | .enumValue type name => (m.enumValues? type).bind fun values => values.get? name

def contentOf (t : TypeImplementation) : (p : Part) → Option p.Content
  | .field _ name => t.fields.get? name
  | .typeResolver _ => t.typeResolver
  | .scalar _ => t.scalar
  | .enumValue _ name => t.enumValues.get? name

theorem enumValues?_get? (m : Implementations) (type name : String) :
    ((m.enumValues? type).bind fun values => values.get? name) = ((m.get? type).getD {}).enumValues.get? name := by
  rw [enumValues?]
  cases m.get? type with
  | none => rfl
  | some t =>
    by_cases h : t.enumValues.isEmpty
    · have nothing : t.enumValues.entries = [] := List.isEmpty_iff.1 h
      simp [h, OrderedMap.get?, nothing]
    · simp [h]

theorem read_eq (m : Implementations) (p : Part) : m.read p = contentOf ((m.get? p.owner).getD {}) p := by
  cases p with
  | field type name => exact m.fieldResolver?_eq type name
  | typeResolver type =>
    rw [read, typeResolver?, contentOf, Part.owner]
    cases m.get? type <;> rfl
  | scalar type =>
    rw [read, scalar?, contentOf, Part.owner]
    cases m.get? type <;> rfl
  | enumValue type name => exact m.enumValues?_get? type name

theorem enumValues?_eq_none_iff : m.enumValues? type = none ↔ ∀ name, m.read (.enumValue type name) = none := by
  constructor
  · intro h name
    rw [read, h]
    rfl
  · intro h
    cases hv : m.enumValues? type with
    | none => rfl
    | some values =>
      have filled : values.isEmpty = false := by
        rw [enumValues?] at hv
        obtain ⟨t, -, ht⟩ := Option.bind_eq_some_iff.1 hv
        rw [Option.ite_none_left_eq_some] at ht
        rw [← Option.some.inj ht.2]
        simpa using ht.1
      -- A first entry there is one that can be looked up.
      obtain ⟨⟨name, value⟩, entries, he⟩ := List.exists_cons_of_ne_nil (List.isEmpty_eq_false_iff.1 filled)
      have found : m.read (.enumValue type name) = some value := by
        rw [read, hv, Option.bind_some, OrderedMap.get?, he, lookup_cons_eq, if_pos rfl]
      rw [h name] at found
      cases found

inductive Change
  | field (type name : String) (resolver : FieldResolver)
  | resolveType (type : String) (resolver : TypeResolver)
  | scalar (type : String) (s : ScalarImplementation)
  | enumValue (type name : String) (value : Json)
  | insert (type : String) (t : TypeImplementation)
  | placeholders (d : Document)

def change (m : Implementations) : Change → Implementations
  | .field type name resolver => m.field type name resolver
  | .resolveType type resolver => m.resolveType type resolver
  | .scalar type s => m.scalar type s
  | .enumValue type name value => m.enumValue type name value
  | .insert type t => m.insert type t
  | .placeholders d => m.withPlaceholders d

def changes (cs : List Change) : Implementations := cs.foldl change .empty

inductive Writes (m : Implementations) : Change → (p : Part) → Option p.Content → Prop
  | field (type name : String) (resolver : FieldResolver) :
    Writes m (.field type name resolver) (.field type name) (some resolver)
  | resolveType (type : String) (resolver : TypeResolver) :
    Writes m (.resolveType type resolver) (.typeResolver type) (some resolver)
  | scalar (type : String) (s : ScalarImplementation) : Writes m (.scalar type s) (.scalar type) (some s)
  | enumValue (type name : String) (value : Json) :
    Writes m (.enumValue type name value) (.enumValue type name) (some value)
  | insert (t : TypeImplementation) (p : Part) : Writes m (.insert p.owner t) p (contentOf t p)
  | placeholder {d : Document} {type : String} {f : FieldDefinition} (h : f ∈ d.objectFields type)
    (hc : f.isCalculated) (hn : m.fieldResolver? type f.name = none) :
    Writes m (.placeholders d) (.field type f.name) (some (.constant .null))

def put (t : TypeImplementation) : (p : Part) → p.Content → TypeImplementation
  | .field _ name, resolver => { t with fields := t.fields.insert name resolver }
  | .typeResolver _, resolver => { t with typeResolver := some resolver }
  | .scalar _, s => { t with scalar := some s }
  | .enumValue _ name, value => { t with enumValues := t.enumValues.insert name value }

theorem contentOf_put (t : TypeImplementation) (p : Part) (x : p.Content) : contentOf (put t p x) p = some x := by
  cases p with
  | field type name | enumValue type name => exact (OrderedMap.insert_get? ..).trans (if_pos rfl)
  | typeResolver type | scalar type => rfl

theorem contentOf_put_of_ne (t : TypeImplementation) {p q : Part} (x : q.Content) (owner : p.owner = q.owner)
    (other : p ≠ q) : contentOf (put t q x) p = contentOf t p := by
  cases q with
  | field type name =>
    cases p with
    | field type' name' =>
      have apart : name' ≠ name := fun same => other (by rw [same, show type' = type from owner])
      exact (OrderedMap.insert_get? ..).trans (if_neg apart)
    | typeResolver type' | scalar type' | enumValue type' name' => rfl
  | enumValue type name =>
    cases p with
    | enumValue type' name' =>
      have apart : name' ≠ name := fun same => other (by rw [same, show type' = type from owner])
      exact (OrderedMap.insert_get? ..).trans (if_neg apart)
    | field type' name' | typeResolver type' | scalar type' => rfl
  | typeResolver type =>
    cases p with
    | typeResolver type' => exact absurd (congrArg Part.typeResolver owner) other
    | field type' name' | scalar type' | enumValue type' name' => rfl
  | scalar type =>
    cases p with
    | scalar type' => exact absurd (congrArg Part.scalar owner) other
    | field type' name' | typeResolver type' | enumValue type' name' => rfl

def write (m : Implementations) (p : Part) (x : p.Content) : Implementations := m.modify p.owner fun t => put t p x

theorem write_read (m : Implementations) (p : Part) (x : p.Content) : (m.write p x).read p = some x := by
  rw [read_eq, write, modify_get?, if_pos rfl, Option.getD_some, contentOf_put]

theorem write_read_of_ne (m : Implementations) {p q : Part} (x : q.Content) (other : p ≠ q) :
    (m.write q x).read p = m.read p := by
  rw [read_eq, read_eq, write, modify_get?]
  by_cases owner : p.owner = q.owner
  · rw [if_pos owner, Option.getD_some, contentOf_put_of_ne _ x owner other, owner]
  · rw [if_neg owner]

theorem insert_read (t : TypeImplementation) (p : Part) :
    (m.insert type t).read p = if p.owner = type then contentOf t p else m.read p := by
  rw [read_eq, read_eq, get?, insert, OrderedMap.insert_get?]
  split <;> rfl

theorem Writes.read {c : Change} {p : Part} {x : Option p.Content} (h : Writes m c p x) : (m.change c).read p = x := by
  cases h with
  | field type name resolver => exact m.write_read (.field type name) resolver
  | resolveType type resolver => exact m.write_read (.typeResolver type) resolver
  | scalar type s => exact m.write_read (.scalar type) s
  | enumValue type name value => exact m.write_read (.enumValue type name) value
  | insert t p => exact (insert_read t p).trans (if_pos rfl)
  | @placeholder d type f hf hc hn =>
    have calculated : (type, f.name) ∈ d.calculatedFields := mem_calculatedFields.2 ⟨f, hf, hc, rfl⟩
    rw [change, Implementations.read, withPlaceholders_fieldResolver?, hn, if_pos calculated, Option.none_or]

theorem withPlaceholders_read_of_unwritten {d : Document} {p : Part} (h : ∀ x, ¬Writes m (.placeholders d) p x) :
    (m.withPlaceholders d).read p = m.read p := by
  cases p with
  | field type name =>
    rw [read, withPlaceholders_fieldResolver?, read]
    cases hn : m.fieldResolver? type name with
    | some resolver => rw [Option.some_or]
    | none =>
      have plain : (type, name) ∉ d.calculatedFields := by
        intro calculated
        obtain ⟨f, hf, hc, rfl⟩ := mem_calculatedFields.1 calculated
        exact h _ (.placeholder hf hc hn)
      rw [if_neg plain, Option.none_or]
  | typeResolver type => exact m.withPlaceholders_typeResolver? d type
  | scalar type => exact m.withPlaceholders_scalar? d type
  | enumValue type name => rw [read, withPlaceholders_enumValues?, read]

theorem change_read_of_unwritten {c : Change} {p : Part} (h : ∀ x, ¬Writes m c p x) :
    (m.change c).read p = m.read p := by
  cases c with
  | field type name resolver =>
    refine m.write_read_of_ne (q := .field type name) resolver ?_
    rintro rfl
    exact h _ (.field type name resolver)
  | resolveType type resolver =>
    refine m.write_read_of_ne (q := .typeResolver type) resolver ?_
    rintro rfl
    exact h _ (.resolveType type resolver)
  | scalar type s =>
    refine m.write_read_of_ne (q := .scalar type) s ?_
    rintro rfl
    exact h _ (.scalar type s)
  | enumValue type name value =>
    refine m.write_read_of_ne (q := .enumValue type name) value ?_
    rintro rfl
    exact h _ (.enumValue type name value)
  | insert type t =>
    have other : p.owner ≠ type := by
      rintro rfl
      exact h _ (.insert t p)
    exact (insert_read t p).trans (if_neg other)
  | placeholders d => exact withPlaceholders_read_of_unwritten h

def Unwritten (p : Part) : Implementations → List Change → Prop
  | _, [] => True
  | m, c :: cs => (∀ x, ¬Writes m c p x) ∧ Unwritten p (m.change c) cs

theorem foldl_read_of_unwritten {p : Part} {cs : List Change} (h : Unwritten p m cs) :
    (cs.foldl change m).read p = m.read p := by
  induction cs generalizing m with
  | nil => rfl
  | cons c cs ih => rw [List.foldl_cons, ih h.2, change_read_of_unwritten h.1]

def LastWritten (cs : List Change) (p : Part) (x : Option p.Content) : Prop :=
  Unwritten p .empty cs ∧ x = none ∨
    ∃ before c after, cs = before ++ c :: after ∧ Writes (changes before) c p x ∧
      Unwritten p (changes (before ++ [c])) after

theorem exists_last_write (p : Part) (m : Implementations) (cs : List Change) : Unwritten p m cs ∨
    ∃ before c after x, cs = before ++ c :: after ∧ Writes (before.foldl change m) c p x ∧
      Unwritten p ((before ++ [c]).foldl change m) after := by
  induction cs generalizing m with
  | nil => exact .inl trivial
  | cons c cs ih =>
    rcases ih (m.change c) with later | ⟨before, c', after, x, rfl, hw, later⟩
    · by_cases hc : ∃ x, Writes m c p x
      · obtain ⟨x, hw⟩ := hc
        exact .inr ⟨[], c, cs, x, rfl, hw, later⟩
      · exact .inl ⟨not_exists.1 hc, later⟩
    · exact .inr ⟨c :: before, c', after, x, rfl, hw, later⟩

theorem changes_read_lastWritten (cs : List Change) (p : Part) : LastWritten cs p ((changes cs).read p) := by
  rcases exists_last_write p .empty cs with unwritten | ⟨before, c, after, x, rfl, hw, later⟩
  · left
    refine ⟨unwritten, (foldl_read_of_unwritten unwritten).trans ?_⟩
    cases p <;> rfl
  · right
    refine ⟨before, c, after, rfl, ?_, later⟩
    have run : changes (before ++ c :: after) = after.foldl change ((before ++ [c]).foldl change .empty) := by
      rw [changes, ← List.foldl_append, List.append_assoc, List.singleton_append]
    have last : ((before ++ [c]).foldl change .empty).read p = x := by
      rw [List.foldl_append]
      exact hw.read
    rw [run, foldl_read_of_unwritten later, last]
    exact hw

theorem withPlaceholders_idem (m : Implementations) (d : Document) :
    (m.withPlaceholders d).withPlaceholders d = m.withPlaceholders d := by
  apply withPlaceholders_of_present
  intro type field hc
  rw [withPlaceholders_fieldResolver?, if_pos hc]
  cases m.fieldResolver? type field <;> rfl

/-- After any changes each part is as the last change that writes it left it. Placeholders that were filled in are not
filled in again, and an enum has values exactly if one of them is there. -/
theorem changes_lastWritten (cs : List Change) :
    (∀ p, LastWritten cs p ((changes cs).read p)) ∧
      (∀ d, ((changes cs).withPlaceholders d).withPlaceholders d = (changes cs).withPlaceholders d) ∧
      ∀ type, (changes cs).enumValues? type = none ↔ ∀ name, (changes cs).read (.enumValue type name) = none :=
  ⟨changes_read_lastWritten cs, (changes cs).withPlaceholders_idem, fun _ => enumValues?_eq_none_iff⟩

end Implementations

end Schemata
