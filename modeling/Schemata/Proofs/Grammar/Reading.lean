import Schemata.Document.Parser
import Schemata.Proofs.Grammar.Forms
import Schemata.Proofs.Outcome
/-!
Readers against forms. A reader is sound if what it takes is a form of what it gives, and complete if
it takes every form that is followed by nothing the form could go on with.
-/

namespace Schemata.Grammar

variable {α β : Type}

def within (p : Form α) (measure : α → Nat) (n : Nat) : Form α := fun ts a => p ts a ∧ measure a ≤ n

def Follows (cs : List Char) (input : List Token) : Prop := ∀ c ∈ cs, Parser.punctuator? c input = none

def gives (read : Reader α) (input : List Token) (a : α) (rest : List Token) : Prop :=
  read input = .ok (a, rest)

def finds (read : OptionalReader α) (input : List Token) (a : α) (rest : List Token) : Prop :=
  read input = .ok (some (a, rest))

def Sound (takes : List Token → α → List Token → Prop) (p : Form α) : Prop :=
  ∀ ⦃input rest : List Token⦄ ⦃a : α⦄, takes input a rest → ∃ ts, input = ts ++ rest ∧ p ts a

def Complete (takes : List Token → α → List Token → Prop) (p : Form α) (follow : List Token → Prop) : Prop :=
  ∀ ⦃ts rest : List Token⦄ ⦃a : α⦄, p ts a → follow rest → takes (ts ++ rest) a rest

def opens : Token → Bool
  | .name _ | .number _ | .string _ => true
  | .punctuator c => c == '[' || c == '{'
  | .comment _ => false

def Opened (p : Form α) : Prop := ∀ ⦃ts : List Token⦄ ⦃a : α⦄, p ts a → ∃ t us, ts = t :: us ∧ opens t

theorem Many.append {p : Form α} {ts us : List Token} {as bs : List α} (h : Many p ts as) (h' : Many p us bs) :
    Many p (ts ++ us) (as ++ bs) := by
  induction h with
  | nil => exact h'
  | cons first _ ih =>
    rw [List.append_assoc]
    exact .cons first ih

theorem NameForm.opened : Opened NameForm := by
  rintro _ _ ⟨name⟩
  exact ⟨_, _, rfl, rfl⟩

theorem ObjectFieldForm.opened (p : Form Value) : Opened (ObjectFieldForm p) := by
  rintro _ _ ⟨name, h⟩
  exact ⟨_, _, rfl, rfl⟩

theorem ValueForm.opened : Opened ValueForm := by
  intro ts v h
  cases h with
  | list h => cases h; exact ⟨_, _, rfl, rfl⟩
  | object h => cases h; exact ⟨_, _, rfl, rfl⟩
  | _ => exact ⟨_, _, rfl, rfl⟩

theorem InputForm.opened : Opened InputForm := by
  intro ts v h
  cases h <;> exact ⟨_, _, rfl, rfl⟩

theorem FieldForm.opened : Opened FieldForm := by
  rintro _ _ ⟨name, ha, ht⟩
  exact ⟨_, _, rfl, rfl⟩

theorem DefinitionForm.opened : Opened DefinitionForm := by
  intro ts d h
  cases h with
  | object h => cases h; exact ⟨_, _, rfl, rfl⟩
  | _ => exact ⟨_, _, rfl, rfl⟩

theorem Opened.within {p : Form α} (h : Opened p) (measure : α → Nat) (n : Nat) :
    Opened (within p measure n) := fun _ _ hp => h hp.1

theorem Opened.entry_ne_nil {p : Form α} (h : Opened p) {ts : List Token} {m : Member α}
    (hm : Entry p ts m) : ts ≠ [] := by
  cases hm with
  | comment text => simp
  | item hp =>
    obtain ⟨t, us, rfl, -⟩ := h hp
    simp

end Schemata.Grammar
