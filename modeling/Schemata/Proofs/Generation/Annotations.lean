import Schemata.Proofs.Describe.Origins
import Schemata.Proofs.Grammar.Acceptance

namespace Schemata

open Text Grammar

variable {t u : TypeRef} {d : Document} {s : Scope} {rest : List Char}

namespace TypeRef

def tokens : TypeRef → List Token
  | named name => [.name name]
  | list inner => .punctuator '[' :: (inner.tokens ++ [.punctuator ']'])
  | nonNull inner => inner.tokens ++ [.punctuator '!']

theorem tokens_form (h : t.WellFormed) :
    TypeForm t.tokens t ∧ ((∀ inner, t ≠ .nonNull inner) → BareTypeForm t.tokens t) := by
  have bare {t : TypeRef} (ht : BareTypeForm t.tokens t) :
      TypeForm t.tokens t ∧ ((∀ inner, t ≠ .nonNull inner) → BareTypeForm t.tokens t) := ⟨.bare ht, fun _ => ht⟩
  induction t with
  | named name => exact bare (.named name)
  | list inner ih => exact bare (.list (ih h).1)
  | nonNull inner ih => exact ⟨.nonNull ((ih h.2).2 h.1), fun hn => absurd rfl (hn inner)⟩

end TypeRef

theorem lex_punctuator {c : Char} (hc : isPunctuator c) (rest : List Char) :
    (lex (c :: rest)).tokens = .punctuator c :: (lex rest).tokens :=
  lex_of_starts (.punctuator rest hc)

theorem lex_name {name : String} (h : IsName name) (stop : Stops isNameContinue rest) :
    (lex (name.toList ++ rest)).tokens = .name name :: (lex rest).tokens := by
  obtain ⟨c, cs, hn, start, others⟩ := h
  have split : Pattern.name.split? (name.toList ++ rest) = some (name.toList, rest) := by
    rw [hn, List.cons_append, Pattern.split?, Pattern.splitName?, if_pos start, stop.takeWhile others,
      stop.dropWhile others]
  have first := Token.Starts.pattern split
  rw [String.ofList_toList] at first
  exact lex_of_starts first

theorem lex_type (h : t.WellFormed) (stop : ∀ name, t = .named name → Stops isNameContinue rest) :
    (lex (t.text.toList ++ rest)).tokens = t.tokens ++ (lex rest).tokens := by
  induction t generalizing rest with
  | named name => exact lex_name h (stop name rfl)
  | list inner ih =>
    have closing : Stops isNameContinue (']' :: rest) := .cons (by decide) rest
    have text : (TypeRef.list inner).text.toList ++ rest = '[' :: (inner.text.toList ++ ']' :: rest) := by
      simp [TypeRef.text]
    rw [text, lex_punctuator (by decide), ih h fun _ _ => closing, lex_punctuator (by decide)]
    simp [TypeRef.tokens]
  | nonNull inner ih =>
    have mark : Stops isNameContinue ('!' :: rest) := .cons (by decide) rest
    have text : (TypeRef.nonNull inner).text.toList ++ rest = inner.text.toList ++ '!' :: rest := by
      simp [TypeRef.text]
    rw [text, ih h.2 fun _ _ => mark, lex_punctuator (by decide)]
    simp [TypeRef.tokens]

theorem expectType_text (h : t.WellFormed) (hl : t.levels ≤ maxLevels)
    (stop : ∀ name, t = .named name → Stops isNameContinue rest) (unmarked : Follows ['!'] (lex rest).tokens) :
    Parser.expectType (lex (t.text.toList ++ rest)).tokens = .ok (t, (lex rest).tokens) := by
  rw [lex_type h stop]
  exact expectType_complete ⟨(TypeRef.tokens_form h).1, hl⟩ unmarked

theorem text_injective (h : t.WellFormed) (hl : t.levels ≤ maxLevels) (hu : u.WellFormed) (hul : u.levels ≤ maxLevels)
    (same : t.text = u.text) : t = u := by
  have ended : Follows ['!'] (lex []).tokens := by
    rw [lex_of_none rfl]
    exact fun _ _ => rfl
  have read := expectType_text h hl (fun _ _ => .nil) ended
  rw [same, expectType_text hu hul (fun _ _ => .nil) ended] at read
  exact (Prod.mk.inj (Except.ok.inj read)).1.symm

namespace TypeRef

def everywhere (t : TypeRef) : Document := ⟨[
  .item (.object ⟨"T", [], [.item ⟨"f", some [.item ⟨"a", t, none⟩], t⟩]⟩),
  .item (.inputObject ⟨"I", [.item ⟨"f", t, none⟩]⟩)]⟩

def everywhereText (t : TypeRef) : String :=
  "type T\x7bf(a:" ++ t.text ++ "):" ++ t.text ++ "\x7dinput I\x7bf:" ++ t.text ++ "\x7d"

end TypeRef

theorem parse_everywhere (h : t.WellFormed) (hl : t.levels ≤ maxLevels) : parse t.everywhereText = .ok t.everywhere := by
  obtain ⟨ts, type_writes, form⟩ := (prints_type h).1
  have names : IsName "type" ∧ IsName "T" ∧ IsName "f" ∧ IsName "a" ∧ IsName "input" ∧ IsName "I" := by decide
  obtain ⟨type, object, f, a, input, inputObject⟩ := names
  -- From the end of the text to its start, each piece with what stands behind it.
  have last := (type_writes.append (Writes.nil.punctuator (c := '}') rfl) (.cons rfl _)).punctuator (c := ':') rfl
  have body := (last.name_append f (.cons rfl _)).punctuator (c := '{') rfl
  have second := ((body.name_append inputObject (.cons rfl _)).separator (c := ' ') rfl).name_append input (.cons rfl _)
  have field := (type_writes.append (second.punctuator (c := '}') rfl) (.cons rfl _)).punctuator (c := ':') rfl
  have argument := (type_writes.append (field.punctuator (c := ')') rfl) (.cons rfl _)).punctuator (c := ':') rfl
  have arguments := (argument.name_append a (.cons rfl _)).punctuator (c := '(') rfl
  have fields := (arguments.name_append f (.cons rfl _)).punctuator (c := '{') rfl
  have first := ((fields.name_append object (.cons rfl _)).separator (c := ' ') rfl).name_append type (.cons rfl _)
  have argument_form : Block '(' ')' InputForm _ [.item ⟨"a", t, none⟩] := .mk (.cons (.item (.plain "a" form)) .nil)
  have field_form : Block '{' '}' FieldForm _ [.item ⟨"f", some [.item ⟨"a", t, none⟩], t⟩] :=
    .mk (.cons (.item (.mk "f" (.some argument_form) form)) .nil)
  have input_form : Block '{' '}' InputForm _ [.item ⟨"f", t, none⟩] := .mk (.cons (.item (.plain "f" form)) .nil)
  have document : DocumentForm _ t.everywhere :=
    .mk (.cons (.item (.object (.mk "T" .none field_form))) (.cons (.item (.inputObject "I" input_form)) .nil))
  refine parse_eq_ok_iff_form.2 ⟨_, ?_, document, ?_⟩
  · simpa [TypeRef.everywhereText] using first.splits
  · simpa [TypeRef.everywhere, Document.demand, Document.depth, Document.typeDefinitions, TypeDefinition.depth,
      FieldDefinition.depth, InputValueDefinition.depth, items, Member.item?, deepest] using hl

theorem annotationOf_innermost {c : Context} {kind : Kind} (h : c.scope.kind? t.innermostName = some kind) :
    (c.annotationOf t).innermost = ⟨t.innermostName, kind⟩ := by
  induction t with
  | named name =>
    rw [TypeRef.innermostName] at h
    rw [Context.annotationOf, h]
    rfl
  | list inner ih => exact ih h
  | nonNull inner ih => exact ih h

structure Scope.Carries (s : Scope) (d : Document) (position : TypePosition) (t : TypeRef) : Prop where
  accepts : (∃ a, s.resolve position t = .ok a) ↔
    ∃ kind, d.HasKind t.innermostName kind ∧ (position = .output ∨ kind ≠ .object)
  written : ∀ a, s.resolve position t = .ok a → a.written = t
  text : ∀ a, s.resolve position t = .ok a → a.text = t.text
  innermost : ∀ a kind, s.resolve position t = .ok a → d.HasKind t.innermostName kind →
    a.innermost = ⟨t.innermostName, kind⟩
  refuses : ∀ e, s.resolve position t = .error e → e = .undefinedType t.innermostName

theorem ofDocument_agrees (h : Scope.ofDocument d = .ok s) : s.Agrees d := by
  have declared : (Scope.ofDocument d).Decides _ d.scope fun _ => True := ofDocument_decides fun _ _ => trivial
  obtain ⟨names, rfl⟩ := declared.eq_ok_iff.1 h
  exact scope_agrees names

theorem scope_carries (hs : s.Agrees d) (position : TypePosition) (t : TypeRef) : s.Carries d position t := by
  let c : Context := ⟨s, .empty⟩
  have resolved : (s.resolve position t).Decides _ (c.annotationOf t) (· = .undefinedType t.innermostName) :=
    Context.resolve_decides (c := c) fun _ => rfl
  have meant {a : Annotation} (h : s.resolve position t = .ok a) : a = c.annotationOf t :=
    (resolved.eq_ok_iff.1 h).2
  have written {a : Annotation} (h : s.resolve position t = .ok a) : a.written = t := by
    rw [meant h, written_annotationOf]
  constructor
  · rw [resolved.exists_ok_iff]
    simp only [hs t.innermostName, Kind.isInput, bne_iff_ne, c]
  · exact fun a => written
  · intro a h
    rw [← a.text_written, written h]
  · intro a kind h hk
    rw [meant h, annotationOf_innermost ((hs _ _).2 hk)]
  · exact fun e => resolved.fault_of_eq_error

/-- A type that can be written, of at most 64 levels, is read back from its text wherever one may stand, and no other
has the same text. A scope resolves a type if its innermost name is known and, for an argument or input field, is not
that of an object type; it keeps the wrappers and the text, and records the kind of the name. -/
theorem typeRef_carried :
    (∀ t : TypeRef, t.WellFormed → t.levels ≤ 64 →
      (∀ rest, (∀ name, t = .named name → Stops isNameContinue rest) → Follows ['!'] (lex rest).tokens →
        Parser.expectType (lex (t.text.toList ++ rest)).tokens = .ok (t, (lex rest).tokens)) ∧
      parse t.everywhereText = .ok t.everywhere ∧
      ∀ u : TypeRef, u.WellFormed → u.levels ≤ 64 → t.text = u.text → t = u) ∧
    ∀ (d : Document) (s : Scope), Scope.ofDocument d = .ok s → ∀ position t, s.Carries d position t := by
  constructor
  · intro t h hl
    refine ⟨fun rest stop unmarked => expectType_text h hl stop unmarked, parse_everywhere h hl, ?_⟩
    exact fun u hu hul same => text_injective h hl hu hul same
  · exact fun d s h position t => scope_carries (ofDocument_agrees h) position t

theorem typeRef_carried_deepest :
    let t : TypeRef := .nonNull ((TypeRef.list)^[63] (.nonNull (.named "User")))
    let d : Document := ⟨[.item (.object ⟨"User", [], []⟩)]⟩
    t.WellFormed ∧ t.levels = 64 ∧ parse t.everywhereText = .ok t.everywhere ∧
      ∃ s, Scope.ofDocument d = .ok s ∧ (∃ a, s.resolve .output t = .ok a ∧ a.text = t.text) ∧
        s.resolve .input t = .error (.undefinedType "User") := by
  intro t d
  have written : t.WellFormed := by
    have name : IsName "User" := by decide
    simp [t, TypeRef.WellFormed, name]
  have levels : t.levels = 64 := by decide
  have scope : Scope.ofDocument d = .ok d.scope := by rfl
  have output := typeRef_carried.2 d _ scope .output t
  have input := typeRef_carried.2 d _ scope .input t
  have object : d.HasKind t.innermostName .object := .inl ⟨_, List.mem_singleton_self _, rfl, rfl⟩
  obtain ⟨a, ha⟩ := output.accepts.2 ⟨_, object, .inl rfl⟩
  refine ⟨written, levels, (typeRef_carried.1 t written levels.le).2.1, d.scope, scope, ⟨a, ha, output.text a ha⟩, ?_⟩
  cases h : d.scope.resolve .input t with
  | error e => exact congrArg _ (input.refuses e h)
  | ok a =>
    obtain ⟨kind, hk, out | other⟩ := input.accepts.1 ⟨a, h⟩
    · cases out
    · have same := (input.innermost a kind h hk).symm.trans (input.innermost a _ h object)
      exact absurd (congrArg NamedRef.kind same) other

end Schemata
