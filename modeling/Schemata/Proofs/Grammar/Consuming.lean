import Schemata.Document.Parser
import Schemata.Proofs.Outcome

namespace Schemata.Grammar

open Schemata.Parser

variable {α β : Type}

def Consumes (input : List Token) (left : α → Option (List Token)) : Reading α → Prop
  | .ok a => ∀ rest ∈ left a, rest <:+ input
  | .error f => f.input <:+ input

abbrev Consuming (read : Reader α) : Prop := ∀ input, Consumes input (fun r => some r.2) (read input)

abbrev MayConsume (read : OptionalReader α) : Prop :=
  ∀ input, Consumes input (fun o => o.map Prod.snd) (read input)

namespace Consumes

variable {input rest : List Token} {left : α → Option (List Token)}

theorem fail (cause : Cause) (input : List Token) : Consumes input left (fail cause input) := List.suffix_refl input

theorem ok {a : α} (h : left a = some rest) (hr : rest <:+ input) : Consumes input left (.ok a) := by
  intro rest' hr'
  obtain rfl : rest = rest' := Option.some.inj (h.symm.trans hr')
  exact hr

theorem all {a : α} (h : left a = some input) : Consumes input left (.ok a) := ok h (List.suffix_refl input)

theorem nothing {a : α} (h : left a = none) : Consumes input left (.ok a) := by
  intro rest hr
  rw [h] at hr
  cases hr

theorem mono {x : Reading α} (h : Consumes rest left x) (hr : rest <:+ input) : Consumes input left x := by
  cases x with
  | ok a => exact fun rest' h' => (h rest' h').trans hr
  | error f => exact List.IsSuffix.trans h hr

theorem bind {x : Reading α} {rests : α → List Token} {left : β → Option (List Token)} {f : α → Reading β}
    (h : Consumes input (fun a => some (rests a)) x) (hf : ∀ a, Consumes (rests a) left (f a)) :
    Consumes input left (x >>= f) := by
  cases x with
  | ok a => exact (hf a).mono (h _ rfl)
  | error e => exact h

theorem bind_attempt {x : Reading (Option (α × List Token))} {left : β → Option (List Token)}
    {f : Option (α × List Token) → Reading β} (h : Consumes input (fun o => o.map Prod.snd) x)
    (missing : Consumes input left (f none)) (found : ∀ r, Consumes r.2 left (f (some r))) :
    Consumes input left (x >>= f) := by
  cases x with
  | error e => exact h
  | ok o =>
    cases o with
    | none => exact missing
    | some r => exact (found r).mono (h r.2 rfl)

theorem mapError {x : Reading α} (h : Consumes input left x) {g : Failure → Failure}
    (hg : ∀ f, (g f).input = f.input) : Consumes input left (x.mapError g) := by
  cases x with
  | ok a => exact h
  | error f =>
    change (g f).input <:+ input
    rw [hg]
    exact h

end Consumes

theorem punctuator?_suffix {c : Char} {input rest : List Token} (h : punctuator? c input = some rest) :
    rest <:+ input := by
  unfold punctuator? at h
  split at h
  · next d after =>
    split at h
    · obtain rfl := Option.some.inj h
      exact List.suffix_cons _ after
    · cases h
  · cases h

theorem name?_suffix {input rest : List Token} {name : String} (h : name? input = some (name, rest)) :
    rest <:+ input := by
  unfold name? at h
  split at h
  · next text after =>
    obtain ⟨-, rfl⟩ := Prod.mk.inj (Option.some.inj h)
    exact List.suffix_cons _ after
  · cases h

theorem name?_consuming : MayConsume fun input => .ok (name? input) := by
  intro input rest hr
  obtain ⟨r, hn, rfl⟩ := Option.map_eq_some_iff.1 hr
  exact name?_suffix hn

theorem expect_consumes (c : Char) (input : List Token) : Consumes input some (expect c input) := by
  rw [expect]
  split
  · next rest h => exact .ok rfl (punctuator?_suffix h)
  · exact .fail _ input

theorem expectName_consuming (what : String) : Consuming (expectName what) := by
  intro input
  rw [expectName]
  split
  · next r h => exact .ok rfl (name?_suffix h)
  · exact .fail _ input

theorem require_consuming (cause : Cause) {read : OptionalReader α} (h : MayConsume read) :
    Consuming (require cause read) := by
  intro input
  apply (h input).bind_attempt
  · exact .fail cause input
  · intro r
    exact .all rfl

theorem many_consuming {item : OptionalReader α} (h : MayConsume item) : Consuming (many item) := by
  intro input
  -- What an item leaves is carried along the recursion: the items behind it leave an end of that.
  have hi := h input
  fun_induction many item input with
  | case1 input f hx =>
    rw [hx] at hi
    exact hi
  | case2 input hx => exact .all rfl
  | case3 input a rest hx hl ih =>
    rw [hx] at hi
    apply Consumes.mono _ (hi rest rfl)
    apply (ih (h rest)).bind
    intro r
    exact .all rfl
  | case4 input a rest hx hl =>
    rw [hx] at hi
    exact .ok rfl (hi rest rfl)

theorem member_consuming {item : OptionalReader α} (h : MayConsume item) : MayConsume (member item) := by
  intro input
  fun_cases member item input with
  | case1 text rest => exact .ok rfl (List.suffix_cons _ rest)
  | case2 input _ =>
    apply (h input).bind_attempt
    · exact .nothing rfl
    · intro r
      exact .all rfl

theorem members_consuming {item : OptionalReader α} (h : MayConsume item) : Consuming (many (member item)) :=
  many_consuming (member_consuming h)

theorem body_consuming {item : OptionalReader α} (h : MayConsume item) : Consuming (body item) := by
  intro input
  apply (expect_consumes '{' input).bind
  intro rest
  apply (members_consuming h rest).bind
  rintro ⟨members, rest⟩
  apply (expect_consumes '}' rest).bind
  intro rest
  exact .all rfl

theorem bang_suffix (t : TypeRef) (input : List Token) : (bang t input).2 <:+ input := by
  rw [bang]
  split
  · next rest h => exact punctuator?_suffix h
  · exact List.suffix_refl input

theorem nested_consuming {read : OptionalReader α} (h : MayConsume read) : MayConsume (nested read) :=
  fun input => (h input).mapError fun _ => rfl

theorem type?_consuming (levels : Nat) : MayConsume (type? levels) := by
  induction levels with
  | zero => exact fun input => .fail _ input
  | succ levels ih =>
    rw [type?]
    apply nested_consuming
    intro input
    dsimp only
    split
    · next text rest => exact .ok rfl ((bang_suffix _ rest).trans (List.suffix_cons _ rest))
    · next rest =>
      apply Consumes.mono _ (List.suffix_cons _ rest)
      apply (require_consuming _ ih rest).bind
      rintro ⟨inner, rest⟩
      apply (expect_consumes ']' rest).bind
      intro rest
      exact .ok rfl (bang_suffix _ rest)
    · exact .nothing rfl

theorem expectType_consuming : Consuming expectType := require_consuming _ (type?_consuming maxLevels)

theorem objectField_consuming {value : OptionalReader Value} (h : MayConsume value) :
    MayConsume (objectField value) := by
  intro input
  rw [objectField]
  split
  · exact .nothing rfl
  · next name rest hn =>
    apply Consumes.mono _ (name?_suffix hn)
    apply (expect_consumes ':' rest).bind
    intro rest
    apply (require_consuming _ h rest).bind
    rintro ⟨v, rest⟩
    exact .all rfl

theorem value?_consuming (levels : Nat) : MayConsume (value? levels) := by
  induction levels with
  | zero => exact fun input => .fail _ input
  | succ levels ih =>
    rw [value?]
    apply nested_consuming
    intro input
    dsimp only
    split
    · next text rest =>
      apply Consumes.mono _ (List.suffix_cons _ rest)
      split
      · exact .all rfl
      · exact .fail _ rest
    · next text rest => exact .ok rfl (List.suffix_cons _ rest)
    · next text rest => exact .ok rfl (List.suffix_cons _ rest)
    · next rest =>
      apply Consumes.mono _ (List.suffix_cons _ rest)
      apply (members_consuming ih rest).bind
      rintro ⟨members, rest⟩
      apply (expect_consumes ']' rest).bind
      intro rest
      exact .all rfl
    · next rest =>
      apply Consumes.mono _ (List.suffix_cons _ rest)
      apply (members_consuming (objectField_consuming ih) rest).bind
      rintro ⟨members, rest⟩
      apply (expect_consumes '}' rest).bind
      intro rest
      exact .all rfl
    · exact .nothing rfl

theorem expectValue_consuming : Consuming expectValue := require_consuming _ (value?_consuming maxLevels)

theorem inputValue_consuming : MayConsume inputValue := by
  intro input
  rw [inputValue]
  split
  · exact .nothing rfl
  · next name rest hn =>
    apply Consumes.mono _ (name?_suffix hn)
    apply (expect_consumes ':' rest).bind
    intro rest
    apply (expectType_consuming rest).bind
    rintro ⟨type, rest⟩
    dsimp only
    split
    · exact .all rfl
    · next rest hp =>
      apply Consumes.mono _ (punctuator?_suffix hp)
      apply (expectValue_consuming rest).bind
      rintro ⟨value, rest⟩
      exact .all rfl

theorem arguments_consuming : Consuming arguments := by
  intro input
  rw [arguments]
  split
  · exact .all rfl
  · next rest hp =>
    apply Consumes.mono _ (punctuator?_suffix hp)
    apply (members_consuming inputValue_consuming rest).bind
    rintro ⟨members, rest⟩
    apply (expect_consumes ')' rest).bind
    intro rest
    exact .all rfl

theorem field_consuming : MayConsume field := by
  intro input
  rw [field]
  split
  · exact .nothing rfl
  · next name rest hn =>
    apply Consumes.mono _ (name?_suffix hn)
    apply (arguments_consuming rest).bind
    rintro ⟨arguments, rest⟩
    apply (expect_consumes ':' rest).bind
    intro rest
    apply (expectType_consuming rest).bind
    rintro ⟨type, rest⟩
    exact .all rfl

theorem anotherInterface_consuming : MayConsume anotherInterface := by
  intro input
  rw [anotherInterface]
  split
  · next rest hp =>
    apply Consumes.mono _ (punctuator?_suffix hp)
    apply (expectName_consuming _ rest).bind
    rintro ⟨name, rest⟩
    exact .all rfl
  · exact name?_consuming input

theorem interfaces_consuming : Consuming interfaces := by
  intro input
  fun_cases interfaces input with
  | case1 rest =>
    apply Consumes.mono _ (List.suffix_cons _ rest)
    apply (require_consuming _ anotherInterface_consuming rest).bind
    rintro ⟨first, rest⟩
    apply (many_consuming anotherInterface_consuming rest).bind
    rintro ⟨others, rest⟩
    exact .all rfl
  | case2 input => exact .all rfl

theorem anotherMember_consuming : MayConsume anotherMember := by
  intro input
  rw [anotherMember]
  split
  · next rest hp =>
    apply Consumes.mono _ (punctuator?_suffix hp)
    apply (expectName_consuming _ rest).bind
    rintro ⟨name, rest⟩
    exact .all rfl
  · exact .nothing rfl

theorem objectDefinition_consuming : Consuming objectDefinition := by
  intro input
  apply (expectName_consuming _ input).bind
  rintro ⟨name, rest⟩
  apply (interfaces_consuming rest).bind
  rintro ⟨interfaces, rest⟩
  apply (body_consuming field_consuming rest).bind
  rintro ⟨fields, rest⟩
  exact .all rfl

theorem unionDefinition_consuming : Consuming unionDefinition := by
  intro input
  apply (expectName_consuming _ input).bind
  rintro ⟨name, rest⟩
  apply (expect_consumes '=' rest).bind
  intro rest
  apply (expectName_consuming _ rest).bind
  rintro ⟨first, rest⟩
  apply (many_consuming anotherMember_consuming rest).bind
  rintro ⟨others, rest⟩
  exact .all rfl

theorem scalarDefinition_consuming : Consuming scalarDefinition := by
  intro input
  apply (expectName_consuming _ input).bind
  rintro ⟨name, rest⟩
  exact .all rfl

theorem headed_consuming {γ : Type} {item : OptionalReader α} (h : MayConsume item)
    (make : String → List (Member α) → γ) : Consuming fun input => do
      let (name, input) ← expectName Pattern.name.description input
      let (members, input) ← body item input
      return (make name members, input) := by
  intro input
  apply (expectName_consuming _ input).bind
  rintro ⟨name, rest⟩
  apply (body_consuming h rest).bind
  rintro ⟨members, rest⟩
  exact .all rfl

theorem interfaceDefinition_consuming : Consuming interfaceDefinition :=
  headed_consuming field_consuming InterfaceDefinition.mk

theorem enumDefinition_consuming : Consuming enumDefinition := headed_consuming name?_consuming EnumDefinition.mk

theorem inputObjectDefinition_consuming : Consuming inputObjectDefinition :=
  headed_consuming inputValue_consuming InputObjectDefinition.mk

theorem extensionDefinition_consuming : Consuming extensionDefinition := by
  intro input
  fun_cases extensionDefinition input with
  | case1 rest => exact (objectDefinition_consuming rest).mono (List.suffix_cons _ rest)
  | case2 input => exact .fail _ input

theorem defining_consumes (make : α → TypeDefinition) {read : Reader α} (h : Consuming read) (t : Token)
    (rest : List Token) : Consumes (t :: rest) (fun o => o.map Prod.snd) (defining make read rest) := by
  apply Consumes.mono _ (List.suffix_cons t rest)
  have hr := h rest
  rw [defining]
  cases hx : read rest with
  | error f =>
    rw [hx] at hr
    exact hr
  | ok r =>
    rw [hx] at hr
    exact .ok rfl (hr r.2 rfl)

theorem definition_consuming : MayConsume definition := by
  intro input
  fun_cases definition input with
  | case1 rest => exact defining_consumes _ objectDefinition_consuming _ rest
  | case2 rest => exact defining_consumes _ interfaceDefinition_consuming _ rest
  | case3 rest => exact defining_consumes _ unionDefinition_consuming _ rest
  | case4 rest => exact defining_consumes _ scalarDefinition_consuming _ rest
  | case5 rest => exact defining_consumes _ enumDefinition_consuming _ rest
  | case6 rest => exact defining_consumes _ inputObjectDefinition_consuming _ rest
  | case7 rest => exact defining_consumes _ extensionDefinition_consuming _ rest
  | case8 => exact .nothing rfl

theorem document_fails_within {input : List Token} {f : Failure} (h : document input = .error f) :
    f.input <:+ input := by
  have whole : Consumes input (fun _ => none) (document input) := by
    apply (members_consuming definition_consuming input).bind
    rintro ⟨definitions, rest⟩
    dsimp only
    split
    · exact .nothing rfl
    · exact .fail _ rest
  rw [h] at whole
  exact whole

end Schemata.Grammar

namespace Schemata

open Grammar

theorem Document.ofLexed_fails_within {l : Lexed} {f : Failure} (h : ofLexed l = .error f) : f.input <:+ l.tokens := by
  rw [ofLexed] at h
  cases hd : Parser.document l.tokens with
  | error g =>
    rw [hd] at h
    obtain rfl : g = f := Except.error.inj h
    exact document_fails_within hd
  | ok d =>
    rw [hd, Except.ok_bind] at h
    split at h
    · cases h
    · obtain rfl := Except.error.inj h
      exact List.nil_suffix

end Schemata
