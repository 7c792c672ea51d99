import Schemata.Proofs.Grammar.Consuming

namespace Schemata.Grammar

open Schemata.Parser

variable {α β : Type}

def Specific : Reading α → Prop
  | .ok _ => True
  | .error f => f.cause ≠ .invalidDefinition

namespace Specific

theorem ok (a : α) : Specific (.ok a) := trivial

theorem fail {cause : Cause} (h : cause ≠ .invalidDefinition) (input : List Token) :
    Specific (fail cause input : Reading α) := h

theorem bind {x : Reading α} {f : α → Reading β} (h : Specific x) (hf : ∀ a, Specific (f a)) :
    Specific (x >>= f) := by
  cases x with
  | ok a => exact hf a
  | error e => exact h

theorem map {x : Reading α} (h : Specific x) (f : α → β) : Specific (x.map f) := by
  cases x with
  | ok a => trivial
  | error e => exact h

theorem nested {read : OptionalReader α} {input : List Token} (h : Specific (read input)) :
    Specific (nested read input) := by
  rw [Parser.nested]
  cases hx : read input with
  | ok o => trivial
  | error f =>
    rw [hx] at h
    exact h

theorem expect (c : Char) (input : List Token) : Specific (expect c input) := by
  rw [Parser.expect]
  split
  · trivial
  · exact .fail (by simp) input

theorem expectName (what : String) (input : List Token) : Specific (expectName what input) := by
  rw [Parser.expectName]
  split
  · trivial
  · exact .fail (by simp) input

variable {item : OptionalReader α}

theorem require (h : ∀ input, Specific (item input)) (what : String) (input : List Token) :
    Specific (require (.expected what) item input) := by
  apply (h input).bind
  intro o
  cases o with
  | none => exact .fail (by simp) input
  | some r => trivial

theorem many (h : ∀ input, Specific (item input)) (input : List Token) : Specific (many item input) := by
  have hi := h input
  fun_induction Parser.many item input with
  | case1 input f hx =>
    rw [hx] at hi
    exact hi
  | case2 => trivial
  | case3 input a rest hx hl ih => exact (ih (h rest)).bind fun _ => .ok _
  | case4 => trivial

theorem member (h : ∀ input, Specific (item input)) (input : List Token) : Specific (member item input) := by
  fun_cases Parser.member item input with
  | case1 => trivial
  | case2 input _ => exact (h input).bind fun _ => .ok _

theorem members (h : ∀ input, Specific (item input)) (input : List Token) :
    Specific (Parser.many (Parser.member item) input) := many (member h) input

theorem closed (h : ∀ input, Specific (item input)) (closing : Char) (input : List Token)
    {g : List (Member α) × List Token → List Token → Reading β} (hg : ∀ r rest, Specific (g r rest)) :
    Specific (do let r ← Parser.many (Parser.member item) input; let rest ← Parser.expect closing r.2; g r rest) := by
  apply (members h input).bind
  intro r
  exact (expect closing r.2).bind (hg r)

theorem body (h : ∀ input, Specific (item input)) (input : List Token) : Specific (body item input) :=
  (expect '{' input).bind fun rest => closed h '}' rest fun _ _ => .ok _

end Specific

theorem type?_specific (levels : Nat) (input : List Token) : Specific (type? levels input) := by
  induction levels generalizing input with
  | zero => exact .fail (by simp) input
  | succ levels ih =>
    rw [type?]
    apply Specific.nested
    split
    · trivial
    · next rest =>
      apply (Specific.require ih "Type" rest).bind
      rintro ⟨inner, rest⟩
      exact (Specific.expect ']' rest).bind fun _ => .ok _
    · trivial

theorem expectType_specific (input : List Token) : Specific (expectType input) :=
  .require (type?_specific maxLevels) "type" input

theorem objectField_specific {value : OptionalReader Value} (h : ∀ input, Specific (value input))
    (input : List Token) : Specific (objectField value input) := by
  rw [objectField]
  split
  · trivial
  · next name rest _ =>
    apply (Specific.expect ':' rest).bind
    intro rest
    exact (Specific.require h "Value" rest).bind fun _ => .ok _

theorem value?_specific (levels : Nat) (input : List Token) : Specific (value? levels input) := by
  induction levels generalizing input with
  | zero => exact .fail (by simp) input
  | succ levels ih =>
    rw [value?]
    apply Specific.nested
    split
    · next text rest =>
      split
      · trivial
      · exact .fail (by simp) rest
    · trivial
    · trivial
    · next rest => exact .closed ih ']' rest fun _ _ => .ok _
    · next rest => exact .closed (objectField_specific ih) '}' rest fun _ _ => .ok _
    · trivial

theorem expectValue_specific (input : List Token) : Specific (expectValue input) :=
  .require (value?_specific maxLevels) "Value" input

theorem inputValue_specific (input : List Token) : Specific (inputValue input) := by
  rw [inputValue]
  split
  · trivial
  · next name rest _ =>
    apply (Specific.expect ':' rest).bind
    intro rest
    apply (expectType_specific rest).bind
    rintro ⟨type, rest⟩
    dsimp only
    split
    · trivial
    · next rest _ => exact (expectValue_specific rest).bind fun _ => .ok _

theorem arguments_specific (input : List Token) : Specific (arguments input) := by
  rw [arguments]
  split
  · trivial
  · next rest _ => exact .closed inputValue_specific ')' rest fun _ _ => .ok _

theorem field_specific (input : List Token) : Specific (field input) := by
  rw [field]
  split
  · trivial
  · next name rest _ =>
    apply (arguments_specific rest).bind
    rintro ⟨arguments, rest⟩
    apply (Specific.expect ':' rest).bind
    intro rest
    exact (expectType_specific rest).bind fun _ => .ok _

theorem anotherInterface_specific (input : List Token) : Specific (anotherInterface input) := by
  rw [anotherInterface]
  split
  · next rest _ => exact (Specific.expectName _ rest).bind fun _ => .ok _
  · trivial

theorem interfaces_specific (input : List Token) : Specific (interfaces input) := by
  fun_cases interfaces input with
  | case1 rest =>
    apply (Specific.require anotherInterface_specific _ rest).bind
    rintro ⟨first, rest⟩
    exact (Specific.many anotherInterface_specific rest).bind fun _ => .ok _
  | case2 => trivial

theorem anotherMember_specific (input : List Token) : Specific (anotherMember input) := by
  rw [anotherMember]
  split
  · next rest _ => exact (Specific.expectName _ rest).bind fun _ => .ok _
  · trivial

theorem objectDefinition_specific (input : List Token) : Specific (objectDefinition input) := by
  apply (Specific.expectName _ input).bind
  rintro ⟨name, rest⟩
  apply (interfaces_specific rest).bind
  rintro ⟨interfaces, rest⟩
  exact (Specific.body field_specific rest).bind fun _ => .ok _

theorem unionDefinition_specific (input : List Token) : Specific (unionDefinition input) := by
  apply (Specific.expectName _ input).bind
  rintro ⟨name, rest⟩
  apply (Specific.expect '=' rest).bind
  intro rest
  apply (Specific.expectName _ rest).bind
  rintro ⟨first, rest⟩
  exact (Specific.many anotherMember_specific rest).bind fun _ => .ok _

theorem scalarDefinition_specific (input : List Token) : Specific (scalarDefinition input) :=
  (Specific.expectName _ input).bind fun _ => .ok _

theorem headed_specific {γ : Type} {item : OptionalReader α} (h : ∀ input, Specific (item input))
    (make : String → List (Member α) → γ) (input : List Token) : Specific (do
      let (name, input) ← expectName Pattern.name.description input
      let (members, input) ← body item input
      return (make name members, input) : Reading (γ × List Token)) := by
  apply (Specific.expectName _ input).bind
  rintro ⟨name, rest⟩
  exact (Specific.body h rest).bind fun _ => .ok _

theorem interfaceDefinition_specific (input : List Token) : Specific (interfaceDefinition input) :=
  headed_specific field_specific InterfaceDefinition.mk input

theorem enumDefinition_specific (input : List Token) : Specific (enumDefinition input) :=
  headed_specific (fun input => .ok (name? input)) EnumDefinition.mk input

theorem inputObjectDefinition_specific (input : List Token) : Specific (inputObjectDefinition input) :=
  headed_specific inputValue_specific InputObjectDefinition.mk input

theorem extensionDefinition_specific (input : List Token) : Specific (extensionDefinition input) := by
  fun_cases extensionDefinition input with
  | case1 rest => exact objectDefinition_specific rest
  | case2 input => exact .fail (by simp) input

theorem definition_specific (input : List Token) : Specific (definition input) := by
  fun_cases definition input with
  | case1 rest => exact (objectDefinition_specific rest).map _
  | case2 rest => exact (interfaceDefinition_specific rest).map _
  | case3 rest => exact (unionDefinition_specific rest).map _
  | case4 rest => exact (scalarDefinition_specific rest).map _
  | case5 rest => exact (enumDefinition_specific rest).map _
  | case6 rest => exact (inputObjectDefinition_specific rest).map _
  | case7 rest => exact (extensionDefinition_specific rest).map _
  | case8 => trivial

theorem document_invalid {input : List Token} {f : Failure} (h : document input = .error f)
    (hc : f.cause = .invalidDefinition) : f.input ≠ [] := by
  have inside := Specific.members definition_specific input
  rw [document] at h
  cases hm : many (member definition) input with
  | error g =>
    rw [hm] at h inside
    obtain rfl : g = f := Except.error.inj h
    exact absurd hc inside
  | ok r =>
    rw [hm, Except.ok_bind] at h
    dsimp only at h
    split at h
    · cases h
    · next left =>
      obtain rfl := Except.error.inj h
      rwa [List.isEmpty_iff] at left

end Schemata.Grammar

namespace Schemata

open Grammar

theorem Document.ofLexed_invalid {l : Lexed} {f : Failure} (h : ofLexed l = .error f)
    (hc : f.cause = .invalidDefinition) : f.input ≠ [] ∨ l.rest ≠ [] := by
  rw [ofLexed] at h
  cases hd : Parser.document l.tokens with
  | error g =>
    rw [hd] at h
    obtain rfl : g = f := Except.error.inj h
    exact .inl (document_invalid hd hc)
  | ok d =>
    rw [hd, Except.ok_bind] at h
    split at h
    · cases h
    · next left => exact .inr (by rwa [List.isEmpty_iff] at left)

end Schemata
