import Mathlib.Data.List.Forall2
import Schemata.Json.Record

namespace Schemata.Json

variable {α : Type} {names : List String} {least : Nat} {j : Json} {fields : List (Option Json)}

inductive HasFields (names : List String) (least : Nat) : Json → List (Option Json) → Prop
  | object (members : List (String × Json)) :
    HasFields names least (.object members) (names.map fun name => members.lookup name)
  | array {items : List Json} {missing : Nat} (low : least ≤ items.length)
    (size : items.length + missing = names.length) :
    HasFields names least (.array items) (items.map some ++ List.replicate missing none)

theorem record?_eq_some_iff : j.record? names least = some fields ↔ j.HasFields names least fields := by
  cases j with
  | object members =>
    constructor
    · intro h
      exact Option.some.inj h ▸ .object members
    · rintro ⟨⟩
      rfl
  | array items =>
    rw [record?, Option.ite_none_right_eq_some]
    constructor
    · rintro ⟨⟨low, high⟩, h⟩
      exact Option.some.inj h ▸ .array low (by omega)
    · rintro (_ | @⟨_, missing, low, size⟩)
      have rest : names.length - items.length = missing := by omega
      exact ⟨⟨low, by omega⟩, by rw [rest]⟩
  | null | bool b | int n | float x | string s => exact iff_of_false nofun nofun

theorem HasFields.length_eq (h : j.HasFields names least fields) : fields.length = names.length := by
  cases h with
  | object members => exact List.length_map ..
  | array low size => simpa using size

def Reads (read : Json → Option α) (written : α → Json → Prop) : Prop :=
  ∀ j a, read j = some a ↔ written a j

inductive Optional (written : α → Json → Prop) : Option α → Option Json → Prop
  | absent : Optional written none none
  | null : Optional written none (some .null)
  | given {a : α} {j : Json} : written a j → Optional written (some a) (some j)

inductive Defaulted (fallback : α) (written : α → Json → Prop) : α → Option Json → Prop
  | absent : Defaulted fallback written fallback none
  | given {a : α} {j : Json} : written a j → Defaulted fallback written a (some j)

theorem getD_eq_iff {field : Option Json} {fallback value : Json} :
    field.getD fallback = value ↔ Defaulted fallback (fun value j => j = value) value field := by
  cases field with
  | none =>
    constructor
    · intro same
      exact same ▸ .absent
    · rintro ⟨⟩
      rfl
  | some j =>
    constructor
    · intro same
      exact .given same
    · rintro (_ | same)
      exact same

inductive Items (written : α → Json → Prop) : List α → Json → Prop
  | array {as : List α} {items : List Json} : List.Forall₂ written as items → Items written as (.array items)

theorem string?_reads : Reads string? fun s j => j = .string s := by
  intro j s
  cases j <;> simp [string?]

theorem array?_reads : Reads array? fun items j => j = .array items := by
  intro j items
  cases j <;> simp [array?]

theorem object?_reads : Reads object? fun members j => j = .object members := by
  intro j members
  cases j <;> simp [object?]

namespace Reads

variable {read : Json → Option α} {written : α → Json → Prop} {field : Option Json}

theorem required (h : Reads read written) {a : α} :
    required? read field = some a ↔ ∃ j, field = some j ∧ written a j := by
  cases field with
  | none => simp [required?]
  | some j => simp [required?, h j a]

theorem defaulted (h : Reads read written) {fallback a : α} :
    defaulted? fallback read field = some a ↔ Defaulted fallback written a field := by
  cases field with
  | none =>
    constructor
    · intro same
      exact Option.some.inj same ▸ .absent
    · rintro ⟨⟩
      rfl
  | some j =>
    constructor
    · intro taken
      exact .given ((h j a).1 taken)
    · rintro (_ | given)
      exact (h j a).2 given

theorem optional (h : Reads read written) (notNull : ∀ a, ¬written a .null) {x : Option α} :
    optional? read field = some x ↔ Optional written x field := by
  rcases field with _ | j
  · constructor
    · intro same
      exact Option.some.inj same ▸ .absent
    · rintro ⟨⟩
      rfl
  · by_cases isNull : j = .null
    · subst isNull
      constructor
      · intro same
        exact Option.some.inj same ▸ .null
      · rintro (_ | _ | given)
        · rfl
        · exact absurd given (notNull _)
    · have value : optional? read (some j) = (read j).map some := by
        cases j with
        | null => exact absurd rfl isNull
        | bool _ | int _ | float _ | string _ | array _ | object _ => rfl
      rw [value, Option.map_eq_some_iff]
      constructor
      · rintro ⟨a, taken, rfl⟩
        exact .given ((h j a).1 taken)
      · rintro (_ | _ | given)
        · exact absurd rfl isNull
        · exact ⟨_, (h j _).2 given, rfl⟩

theorem mapM (h : Reads read written) {items : List Json} {as : List α} :
    items.mapM read = some as ↔ List.Forall₂ written as items := by
  induction items generalizing as with
  | nil => simp [eq_comm]
  | cons item items ih =>
    simp only [List.mapM_cons, Option.bind_eq_bind, Option.bind_eq_some_iff, Option.pure_def, Option.some.injEq,
      List.forall₂_cons_right_iff, h item _, ih]
    constructor
    · rintro ⟨a, first, rest, others, rfl⟩
      exact ⟨a, rest, first, others, rfl⟩
    · rintro ⟨a, rest, first, others, rfl⟩
      exact ⟨a, first, rest, others, rfl⟩

theorem list (h : Reads read written) : Reads (list? read) (Items written) := by
  intro j as
  rw [list?, Option.bind_eq_bind, Option.bind_eq_some_iff]
  constructor
  · rintro ⟨items, isArray, taken⟩
    rw [(array?_reads j items).1 isArray]
    exact .array (h.mapM.1 taken)
  · rintro ⟨others⟩
    exact ⟨_, rfl, h.mapM.2 others⟩

end Reads

/-- A written value is read back, and whatever stands for it has one normal form. -/
structure ReadsBack (write : α → Json) (read : Json → Option α) (written : α → Json → Prop) : Prop where
  accepts : Reads read written
  restores (a : α) : read (write a) = some a
  normalizes {j normal : Json} (form : (read j).map write = some normal) :
    read normal = read j ∧ (read normal).map write = some normal

theorem Reads.readsBack {write : α → Json} {read : Json → Option α} {written : α → Json → Prop}
    (h : Reads read written) (hw : ∀ a, written a (write a)) : ReadsBack write read written := by
  have restores : ∀ a, read (write a) = some a := fun a => (h (write a) a).2 (hw a)
  refine ⟨h, restores, fun {j normal} form => ?_⟩
  obtain ⟨a, taken, rfl⟩ := Option.map_eq_some_iff.1 form
  rw [restores, taken]
  exact ⟨rfl, rfl⟩

end Schemata.Json
