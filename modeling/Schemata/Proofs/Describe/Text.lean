import Mathlib.Data.List.Forall2
import Schemata.Proofs.Describe.Document
import Schemata.Proofs.Document.WellFormed
import Schemata.Proofs.Generation.References
import Schemata.Proofs.Grammar.Reading
import Schemata.Proofs.Number.Writing
import Schemata.Proofs.Text.Pieces
import Schemata.Proofs.Token.Composing

namespace Schemata

open Grammar Text
open Describe (comments members descriptionLines)

variable {α β γ : Type}

/-! ### Printable registries -/

structure InputValue.Printable (v : InputValue) : Prop where
  name : IsName v.name
  type : v.type.written.WellFormed
  defaultValue : ∀ j ∈ v.defaultValue, j.Plain ∧ ∃ x : Value, x.runtimeValue = j

structure Field.Printable (f : Field) : Prop where
  name : IsName f.name
  type : f.type.written.WellFormed
  inputs : ∀ v ∈ f.inputs, v.Printable

structure ObjectType.Printable (t : ObjectType) : Prop where
  name : IsName t.name
  interfaces : ∀ i ∈ t.interfaces, IsName i.name
  fields : ∀ f ∈ t.fields.values, f.Printable

structure InterfaceType.Printable (t : InterfaceType) : Prop where
  name : IsName t.name
  fields : ∀ f ∈ t.fields.values, f.Printable

structure UnionType.Printable (t : UnionType) : Prop where
  name : IsName t.name
  nonempty : t.members.keys ≠ []
  members : ∀ m ∈ t.members.keys, IsName m

def ScalarType.Printable (t : ScalarType) : Prop := IsName t.name

structure EnumType.Printable (t : EnumType) : Prop where
  name : IsName t.name
  values : ∀ v ∈ t.values.values, IsName v.name

structure InputObjectType.Printable (t : InputObjectType) : Prop where
  name : IsName t.name
  fields : ∀ v ∈ t.fields.values, v.Printable

structure Registry.Printable (r : Registry) : Prop where
  objects : ∀ t ∈ r.objects.values, t.Printable
  interfaces : ∀ t ∈ r.interfaces.values, t.Printable
  unions : ∀ t ∈ r.unions.values, t.Printable
  scalars : ∀ t ∈ r.scalars.values, t.Printable
  enums : ∀ t ∈ r.enums.values, t.Printable
  inputObjects : ∀ t ∈ r.inputObjects.values, t.Printable

/-! ### Texts and forms -/

/-- A text that writes tokens of this form. -/
def Prints (p : Form α) (text : List Char) (a : α) : Prop := ∃ ts, Writes text ts ∧ p ts a

variable {p : Form α} {text : List Char} {cs : List Char} {ts : List Token}

theorem Writes.name {name : String} (h : IsName name) : Writes name.toList [.name name] :=
  .token (t := .name name) h nofun

theorem Writes.number {text : String} (h : (Token.number text).WellFormed) : Writes text.toList [.number text] :=
  .token (t := .number text) h nofun

theorem Writes.string {text : String} (h : (Token.string text).WellFormed) : Writes text.toList [.string text] :=
  .token (t := .string text) h nofun

theorem Writes.name_append {name : String} (h : IsName name) (hw : Writes cs ts) (hb : Bounded cs) :
    Writes (name.toList ++ cs) (.name name :: ts) :=
  (Writes.name h).append hw hb

theorem Bounded.separator {c : Char} (h : isSeparator c) (cs : List Char) : Bounded (c :: cs) :=
  .cons (by rw [isBoundary, h, Bool.true_or]) cs

theorem Prints.entry {a : α} (h : Prints p text a) : Prints (Entry p) text (.item a) := by
  obtain ⟨ts, hw, hp⟩ := h
  exact ⟨ts, hw, .item hp⟩

theorem Prints.single {a : α} (h : Prints p text a) : Prints (Many p) text [a] := by
  obtain ⟨ts, hw, hp⟩ := h
  have one : Many p (ts ++ []) [a] := .cons hp .nil
  exact ⟨_, hw, List.append_nil ts ▸ one⟩

theorem Prints.many_append {as bs : List α} (h : Prints (Many p) text as) (h' : Prints (Many p) cs bs)
    (hb : Bounded cs) : Prints (Many p) (text ++ cs) (as ++ bs) := by
  obtain ⟨ts, hw, hp⟩ := h
  obtain ⟨us, hw', hp'⟩ := h'
  exact ⟨_, hw.append hw' hb, hp.append hp'⟩

theorem prints_nil : Prints (Many p) [] [] := ⟨[], .nil, .nil⟩

theorem Prints.separator {c : Char} {a : α} (hc : isSeparator c) (h : Prints p text a) : Prints p (c :: text) a := by
  obtain ⟨ts, hw, hp⟩ := h
  exact ⟨ts, hw.separator hc, hp⟩

theorem Prints.separators {sep : List Char} {a : α} (hs : ∀ c ∈ sep, isSeparator c) (h : Prints p text a) :
    Prints p (sep ++ text) a := by
  induction sep with
  | nil => exact h
  | cons c sep ih =>
    obtain ⟨hc, hs⟩ := List.forall_mem_cons.1 hs
    exact (ih hs).separator hc

theorem prints_flatMap {text : β → List Char} {parts : β → List α} {bs : List β}
    (h : ∀ b ∈ bs, Prints (Many p) (text b) (parts b)) (hb : ∀ b ∈ bs, Bounded (text b)) :
    Prints (Many p) (bs.flatMap text) (bs.flatMap parts) ∧ Bounded (bs.flatMap text) := by
  induction bs with
  | nil => exact ⟨prints_nil, .nil⟩
  | cons b bs ih =>
    obtain ⟨first, others⟩ := List.forall_mem_cons.1 h
    obtain ⟨bounded, others_bounded⟩ := List.forall_mem_cons.1 hb
    obtain ⟨ih, ih_bounded⟩ := ih others others_bounded
    exact ⟨first.many_append ih ih_bounded, bounded.append ih_bounded⟩

theorem prints_intercalate {sep : List Char} (hs : ∀ c ∈ sep, isSeparator c) (hn : sep ≠ []) {texts : List (List Char)}
    {parts : List (List α)} (h : List.Forall₂ (Prints (Many p)) texts parts) :
    Prints (Many p) (sep.intercalate texts) parts.flatten := by
  induction h with
  | nil => exact prints_nil
  | @cons text part texts parts first others ih =>
    cases others with
    | nil => simpa using first
    | @cons next _ texts _ _ _ =>
      have bounded : Bounded (sep ++ sep.intercalate (next :: texts)) := by
        obtain ⟨c, sep, rfl⟩ := List.exists_cons_of_ne_nil hn
        exact .separator (hs c List.mem_cons_self) _
      rw [List.intercalate_cons_cons, List.append_assoc, List.flatten_cons]
      exact first.many_append (ih.separators hs) bounded

theorem forall₂_map {R : β → γ → Prop} {f : α → β} {g : α → γ} {as : List α} (h : ∀ a ∈ as, R (f a) (g a)) :
    List.Forall₂ R (as.map f) (as.map g) := by
  rw [List.forall₂_map_left_iff, List.forall₂_map_right_iff, List.forall₂_same]
  exact h

theorem prints_intercalate_items {sep : List Char} (hs : ∀ c ∈ sep, isSeparator c) (hn : sep ≠ []) {text : β → List Char}
    {define : β → α} {bs : List β} (h : ∀ b ∈ bs, Prints p (text b) (define b)) :
    Prints (Many p) (sep.intercalate (bs.map text)) (bs.map define) := by
  have pieces := prints_intercalate hs hn (forall₂_map fun b hb => (h b hb).single)
  rwa [← List.flatMap_def, ← List.map_eq_flatMap] at pieces

/-! ### Types and default values -/

theorem prints_type {t : TypeRef} (h : t.WellFormed) :
    Prints TypeForm t.text.toList t ∧ ((∀ inner, t ≠ .nonNull inner) → Prints BareTypeForm t.text.toList t) := by
  have bare {t : TypeRef} (hp : Prints BareTypeForm t.text.toList t) :
      Prints TypeForm t.text.toList t ∧ ((∀ inner, t ≠ .nonNull inner) → Prints BareTypeForm t.text.toList t) := by
    obtain ⟨ts, hw, ht⟩ := hp
    exact ⟨⟨ts, hw, .bare ht⟩, fun _ => ⟨ts, hw, ht⟩⟩
  induction t with
  | named name => exact bare ⟨_, .name h, .named name⟩
  | list inner ih =>
    obtain ⟨ts, hw, ht⟩ := (ih h).1
    have closed : Writes (inner.text.toList ++ [']']) (ts ++ [.punctuator ']']) :=
      hw.append (Writes.nil.punctuator rfl) (.cons rfl _)
    refine bare ⟨_, ?_, .list ht⟩
    simpa [TypeRef.text] using closed.punctuator (c := '[') rfl
  | nonNull inner ih =>
    obtain ⟨ts, hw, ht⟩ := (ih h.2).2 h.1
    have marked : Writes (inner.text.toList ++ ['!']) (ts ++ [.punctuator '!']) :=
      hw.append (Writes.nil.punctuator rfl) (.cons rfl _)
    refine ⟨⟨_, ?_, .nonNull ht⟩, fun hn => absurd rfl (hn inner)⟩
    simpa [TypeRef.text] using marked

theorem prints_number {text : String} {n : Number} (h : Number.read? text = some n) :
    Prints ValueForm text.toList (.number n) := by
  obtain ⟨m, hm, ht, -⟩ := Number.read?_eq_some_iff.1 h
  exact ⟨_, .number ⟨m, hm, ht.symm⟩, .number h⟩

theorem flatMap_escapeChar {cs : List Char} (h : ∀ c ∈ cs, 0x20 ≤ c.toNat) : cs.flatMap Json.escapeChar = escape cs := by
  induction cs with
  | nil => rfl
  | cons c cs ih =>
    obtain ⟨hc, hcs⟩ := List.forall_mem_cons.1 h
    rw [List.flatMap_cons, ih hcs, escape]
    by_cases hq : c = '"'
    · simp [Json.escapeChar, hq]
    · by_cases hb : c = '\\'
      · simp [Json.escapeChar, hb]
      · have control (d : Char) (hd : d.toNat < 0x20) : c ≠ d := by
          rintro rfl
          omega
        have printable : ¬c.toNat < 0x20 := by omega
        simp [Json.escapeChar, hq, hb, control, printable]

theorem prints_string {s : String} (h : ∀ c ∈ s.toList, 0x20 ≤ c.toNat) :
    Prints ValueForm (Json.quote s).toList (.string s) := by
  have no_break : '\n' ∉ s.toList := fun hm => absurd (h _ hm) (by decide)
  have text : (Json.quote s).toList = quote s.toList := by
    simp [Json.quote, quote, flatMap_escapeChar h]
  have form := ValueForm.string (Json.quote s)
  rw [text, unquote_quote, String.ofList_toList] at form
  exact ⟨_, .string ⟨s.toList, no_break, text⟩, form⟩

theorem itemTexts_eq (items : List Json) : Json.itemTexts items = items.map Json.text := by
  induction items with
  | nil => rfl
  | cons item items ih => rw [Json.itemTexts, List.map_cons, ih]

theorem itemLiterals_eq (items : List Json) : itemLiterals items = items.map Json.literal := by
  induction items with
  | nil => rfl
  | cons item items ih => rw [itemLiterals, List.map_cons, ih]

theorem prints_list {js : List Json} (h : ∀ j ∈ js, Prints ValueForm j.text.toList j.literal) :
    Prints ValueForm (Json.array js).text.toList (Json.array js).literal := by
  have comma : ∀ c ∈ [','], isSeparator c := List.all_eq_true.1 rfl
  have entries := prints_intercalate_items comma (List.cons_ne_nil _ _) fun j hj => (h j hj).entry
  obtain ⟨ts, hw, hm⟩ := entries
  have closed : Writes ([','].intercalate (js.map fun j => j.text.toList) ++ [']']) (ts ++ [.punctuator ']']) :=
    hw.append (Writes.nil.punctuator rfl) (.cons rfl _)
  have form := ValueForm.list (.mk hm)
  have literals : items (js.map fun j => Member.item j.literal) = itemLiterals js := by
    rw [itemLiterals_eq, ← items_map_item (js.map Json.literal), List.map_map]
    rfl
  rw [literals] at form
  refine ⟨_, ?_, form⟩
  have text : (Json.array js).text.toList = '[' :: ([','].intercalate (js.map fun j => j.text.toList) ++ [']']) := by
    simp [Json.text, itemTexts_eq, Function.comp_def]
  rw [text]
  exact closed.punctuator rfl

mutual

theorem prints_literal : (v : Value) → v.runtimeValue.Plain →
    Prints ValueForm v.runtimeValue.text.toList v.runtimeValue.literal
  | .boolean true, _ => ⟨_, .name (by decide), .true⟩
  | .boolean false, _ => ⟨_, .name (by decide), .false⟩
  | .enum _, h | .string _, h => prints_string h
  | .number (.int i), _ => by
    have number := prints_number (Number.read?_intText i)
    simpa [Value.runtimeValue, Number.runtimeValue, Json.literal, Json.text] using number
  | .number (.float x), h => by
    have finite : x.isFinite := Json.ofBinary64_plain h
    have value : (Value.number (.float x)).runtimeValue = .float x := ofBinary64_of_finite finite
    rw [value]
    exact prints_number (Number.read?_floatText finite)
  | .list vs, h => prints_list (prints_literals vs h)

theorem prints_literals : (vs : List Value) → plainItems (itemValues vs) →
    ∀ j ∈ itemValues vs, Prints ValueForm j.text.toList j.literal
  | [], _ => nofun
  | v :: vs, h => List.forall_mem_cons.2 ⟨prints_literal v h.1, prints_literals vs h.2⟩

end

/-! ### Arguments and fields -/

theorem prints_inputValue {v : InputValue} (h : v.Printable) :
    Prints InputForm (Describe.inputValue v).toList v.definition := by
  obtain ⟨name, type, defaultValue⟩ := h
  obtain ⟨ts, type_writes, type_form⟩ := (prints_type type).1
  rw [Describe.inputValue, InputValue.definition, ← v.type.text_written]
  cases hd : v.defaultValue with
  | none =>
    have typed := (type_writes.separator (c := ' ') rfl).punctuator (c := ':') rfl
    have text : (v.name ++ ": " ++ v.type.written.text ++ "").toList =
        v.name.toList ++ (':' :: ' ' :: v.type.written.text.toList) := by simp
    refine ⟨_, ?_, .plain v.name type_form⟩
    rw [Option.map_none, Option.getD_none, text]
    exact .name_append name typed (.cons rfl _)
  | some j =>
    obtain ⟨plain, x, rfl⟩ := defaultValue j hd
    obtain ⟨us, value_writes, value_form⟩ := prints_literal x plain
    have value := ((value_writes.separator (c := ' ') rfl).punctuator (c := '=') rfl).separator (c := ' ') rfl
    have typed := ((type_writes.append value (.separator rfl _)).separator (c := ' ') rfl).punctuator (c := ':') rfl
    have text : (v.name ++ ": " ++ v.type.written.text ++ (" = " ++ x.runtimeValue.text)).toList =
        v.name.toList ++ (':' :: ' ' :: (v.type.written.text.toList ++ ' ' :: '=' :: ' ' :: x.runtimeValue.text.toList)) := by
      simp
    refine ⟨_, ?_, .default v.name type_form value_form⟩
    rw [Option.map_some, Option.getD_some, text]
    exact .name_append name typed (.cons rfl _)

theorem members_undescribed (define : β → α) (bs : List β) :
    members (fun _ => none) define bs = bs.map fun b => .item (define b) := by
  rw [members, writeRuns, List.flatMap_map, List.map_eq_flatMap]
  rfl

theorem prints_arguments {arguments : Option (OrderedMap InputValue)}
    (h : ∀ args ∈ arguments, ∀ v ∈ args.values, v.Printable) :
    Prints ArgumentsForm ((arguments.map Describe.arguments).getD "").toList
      (arguments.map fun args => members (fun _ => none) InputValue.definition args.values) ∧
        Bounded ((arguments.map Describe.arguments).getD "").toList := by
  cases arguments with
  | none => exact ⟨⟨[], .nil, .none⟩, .nil⟩
  | some args =>
    have comma : ∀ c ∈ [',', ' '], isSeparator c := List.all_eq_true.1 rfl
    have entries := prints_intercalate_items comma (List.cons_ne_nil _ _) fun v hv =>
      (prints_inputValue (h args rfl v hv)).entry
    obtain ⟨ts, hw, hm⟩ := entries
    have closed := (hw.append (Writes.nil.punctuator (c := ')') rfl) (.cons rfl _)).punctuator (c := '(') rfl
    have text : (Describe.arguments args).toList =
        '(' :: ([',', ' '].intercalate (args.values.map fun v => (Describe.inputValue v).toList) ++ [')']) := by
      simp [Describe.arguments, Function.comp_def]
    simp only [Option.map_some, Option.getD_some, members_undescribed]
    rw [text]
    exact ⟨⟨_, closed, .some (.mk hm)⟩, .cons rfl _⟩

theorem prints_field {f : Field} (h : f.Printable) :
    Prints FieldForm (f.name ++ (f.arguments.map Describe.arguments).getD "" ++ ": " ++ f.type.text).toList
      f.definition := by
  obtain ⟨name, type, inputs⟩ := h
  have args : ∀ args ∈ f.arguments, ∀ v ∈ args.values, v.Printable := by
    intro args ha v hv
    apply inputs v
    rw [Field.inputs, ha]
    exact hv
  obtain ⟨us, type_writes, type_form⟩ := (prints_type type).1
  obtain ⟨⟨ts, args_writes, args_form⟩, bounded⟩ := prints_arguments args
  have typed := (type_writes.separator (c := ' ') rfl).punctuator (c := ':') rfl
  have parts := args_writes.append typed (.cons rfl _)
  rw [← f.type.text_written]
  refine ⟨_, ?_, .mk f.name args_form type_form⟩
  have text : (f.name ++ (f.arguments.map Describe.arguments).getD "" ++ ": " ++ f.type.written.text).toList =
      f.name.toList ++ (((f.arguments.map Describe.arguments).getD "").toList ++ ':' :: ' ' :: f.type.written.text.toList) := by
    simp
  rw [text]
  exact .name_append name parts (bounded.append (.cons rfl _))

/-! ### Descriptions -/

theorem endedLines_subset {c : Char} {ls : List (List Char)} (h : ∀ l ∈ ls, c ∉ l) : ∀ l ∈ endedLines ls, c ∉ l := by
  fun_induction endedLines ls with
  | case1 => exact nofun
  | case2 last he => exact nofun
  | case3 last he => exact h
  | case4 line rest hr ih =>
    obtain ⟨first, others⟩ := List.forall_mem_cons.1 h
    refine List.forall_mem_cons.2 ⟨fun hc => first ?_, ih others⟩
    rw [dropReturn] at hc
    split at hc
    · exact List.dropLast_subset _ hc
    · exact hc

theorem no_break_of_mem_lines {text line : String} (h : line ∈ Text.lines text) : '\n' ∉ line.toList := by
  obtain ⟨l, hl, rfl⟩ := List.mem_map.1 h
  rw [String.toList_ofList]
  exact endedLines_subset (not_mem_pieces _) l hl

def endLines (ls : List String) : List Char := ls.flatMap fun l => l.toList ++ ['\n']

theorem endLines_append (ls ls' : List String) : endLines (ls ++ ls') = endLines ls ++ endLines ls' :=
  List.flatMap_append

theorem intercalate_endLines (ls : List String) (last : String) :
    ("\n".intercalate (ls ++ [last])).toList = endLines ls ++ last.toList := by
  induction ls with
  | nil => simp [endLines]
  | cons l ls ih =>
    have nonempty : ls ++ [last] ≠ [] := by simp
    rw [List.cons_append, String.intercalate_cons_of_ne_nil nonempty, String.toList_append, ih]
    simp [endLines]

theorem prints_description {indent : String} (hi : ∀ c ∈ indent.toList, isSeparator c) (description : Option String)
    {ms : List (Member α)} (h : Prints (Many (Entry p)) text ms) :
    Prints (Many (Entry p)) (endLines (descriptionLines indent description) ++ text)
      ((comments description).map .comment ++ ms) := by
  cases description with
  | none => exact h
  | some content =>
    have no_break : ∀ line ∈ Text.lines content, '\n' ∉ line.toList := fun _ => no_break_of_mem_lines
    simp only [comments, descriptionLines]
    generalize Text.lines content = lines at no_break
    induction lines with
    | nil => exact h
    | cons line lines ih =>
      obtain ⟨first, others⟩ := List.forall_mem_cons.1 no_break
      obtain ⟨ts, hw, hm⟩ := ih others
      have blank_line : '\n' ∉ ' ' :: line.toList := by simpa using first
      have written := Prints.separators hi ⟨_, .comment blank_line hw, Many.cons (.comment _) hm⟩
      simpa [endLines] using written

theorem bounded_indented (line : String) (ls : List String) : Bounded (endLines (("  " ++ line) :: ls)) := by
  have text : endLines (("  " ++ line) :: ls) = ' ' :: ' ' :: (line.toList ++ '\n' :: endLines ls) := by simp [endLines]
  rw [text]
  exact .separator rfl _

theorem prints_members (description : β → Option String) {define : β → α} {text : β → String} {bs : List β}
    {lines : β → List String} (hl : ∀ b, lines b = descriptionLines "  " (description b) ++ ["  " ++ text b])
    (h : ∀ b ∈ bs, Prints p (text b).toList (define b)) :
    Prints (Many (Entry p)) (endLines (bs.flatMap lines)) (members description define bs) ∧
      Bounded (endLines (bs.flatMap lines)) := by
  have indent : ∀ c ∈ "  ".toList, isSeparator c := List.all_eq_true.1 rfl
  have line_end : Bounded ['\n'] := .separator rfl _
  have piece : ∀ b ∈ bs, Prints (Many (Entry p)) (endLines (lines b))
      ((comments (description b)).map .comment ++ [.item (define b)]) := by
    intro b hb
    have item := (((h b hb).entry.single).separator (c := ' ') rfl).separator (c := ' ') rfl
    have line := item.many_append (prints_nil.separator (c := '\n') rfl) line_end
    rw [List.append_nil] at line
    have described := prints_description indent (description b) line
    rw [hl, endLines_append]
    simpa [endLines] using described
  have bounded : ∀ b ∈ bs, Bounded (endLines (lines b)) := by
    intro b hb
    rw [hl]
    cases description b with
    | none => exact bounded_indented _ _
    | some content =>
      rw [descriptionLines]
      cases Text.lines content with
      | nil => exact bounded_indented _ _
      | cons line lines =>
        rw [List.map_cons, String.append_assoc]
        exact bounded_indented _ _
  have all := prints_flatMap piece bounded
  rw [members, writeRuns, List.flatMap_map]
  simpa [endLines, List.flatMap_assoc] using all

/-! ### Types -/

theorem prints_joined {c : Char} {q : Form String} (hc : isPunctuator c)
    (hq : ∀ name, q [.punctuator c, .name name] name) {names : List String} (h : ∀ n ∈ names, IsName n) :
    Prints (Many q) (names.flatMap fun name => ' ' :: c :: ' ' :: name.toList) names ∧
      Bounded (names.flatMap fun name => ' ' :: c :: ' ' :: name.toList) := by
  have piece : ∀ name ∈ names, Prints (Many q) (' ' :: c :: ' ' :: name.toList) [name] := by
    intro name hn
    have joined := (((Writes.name (h name hn)).separator (c := ' ') rfl).punctuator hc).separator (c := ' ') rfl
    exact Prints.single ⟨_, joined, hq name⟩
  have all := prints_flatMap piece fun _ _ => Bounded.separator rfl _
  rwa [← List.map_eq_flatMap, List.map_id'] at all

theorem intercalate_joined (sep name : String) (names : List String) :
    (sep.intercalate (name :: names)).toList = name.toList ++ names.flatMap fun n => sep.toList ++ n.toList := by
  induction names generalizing name with
  | nil => simp
  | cons n names ih =>
    rw [String.intercalate_cons_cons, String.toList_append, ih]
    simp

theorem prints_interfaces {refs : List NamedRef} (h : ∀ i ∈ refs, IsName i.name) :
    let text := if refs.isEmpty then "" else " implements " ++ " & ".intercalate (refs.map NamedRef.name)
    Prints InterfacesForm text.toList (refs.map NamedRef.name) ∧ Bounded text.toList := by
  cases refs with
  | nil => exact ⟨⟨[], .nil, .none⟩, .nil⟩
  | cons ref refs =>
    obtain ⟨first, others⟩ := List.forall_mem_cons.1 h
    have names : ∀ n ∈ refs.map NamedRef.name, IsName n := List.forall_mem_map.2 others
    obtain ⟨⟨ts, hw, hm⟩, bounded⟩ := prints_joined (c := '&') rfl InterfaceForm.joined names
    have word : IsName "implements" := by decide
    have listed := (Writes.name_append first hw bounded).separator (c := ' ') rfl
    have written := (Writes.name_append word listed (.separator rfl _)).separator (c := ' ') rfl
    have text : (" implements " ++ " & ".intercalate ((ref :: refs).map NamedRef.name)).toList = ' ' ::
        ("implements".toList ++ ' ' :: (ref.name.toList ++
          (refs.map NamedRef.name).flatMap fun name => ' ' :: '&' :: ' ' :: name.toList)) := by
      rw [String.toList_append, List.map_cons, intercalate_joined]
      simp
    simp only [List.isEmpty_cons, Bool.false_eq_true, if_false]
    rw [text]
    exact ⟨⟨_, written, .some (.plain ref.name) hm⟩, .separator rfl _⟩

def PrintsRun (text : String) (run : List Comment × TypeDefinition) : Prop :=
  Prints (Many (Entry DefinitionForm)) text.toList (run.1.map .comment ++ [.item run.2])

section

variable {description : Option String} {head : String} {body : List String} {t : TypeDefinition}

theorem no_indent : ∀ c ∈ "".toList, isSeparator c := by simp

theorem prints_line (h : Prints DefinitionForm head.toList t) :
    PrintsRun (Describe.line description head) (comments description, t) := by
  rw [PrintsRun, Describe.line, intercalate_endLines]
  exact prints_description no_indent description h.entry.single

theorem prints_block {ms : List (Member α)} {hs : List Token} (hh : Writes head.toList hs)
    (hb : Prints (Many (Entry p)) (endLines body) ms ∧ Bounded (endLines body))
    (hd : ∀ ts, Block '{' '}' p ts ms → DefinitionForm (hs ++ ts) t) :
    PrintsRun (Describe.block description head body) (comments description, t) := by
  obtain ⟨⟨ts, hw, hm⟩, bounded⟩ := hb
  have closed := hw.append (Writes.nil.punctuator (c := '}') rfl) (.cons rfl _)
  have braces := ((closed.separator (c := '\n') rfl).punctuator (c := '{') rfl).separator (c := ' ') rfl
  have form : Prints DefinitionForm (head.toList ++ ' ' :: '{' :: '\n' :: (endLines body ++ ['}'])) t :=
    ⟨_, hh.append braces (.separator rfl _), hd _ (.mk hm)⟩
  have text : (Describe.block description head body).toList =
      endLines (descriptionLines "" description) ++ (head.toList ++ ' ' :: '{' :: '\n' :: (endLines body ++ ['}'])) := by
    rw [Describe.block, intercalate_endLines]
    simp [endLines]
  rw [PrintsRun, text]
  exact prints_description no_indent description form.entry.single

end

theorem prints_fields {fields : OrderedMap Field} (h : ∀ f ∈ fields.values, f.Printable) :
    Prints (Many (Entry FieldForm)) (endLines (fields.values.flatMap Describe.fieldLines))
      (members Field.description Field.definition fields.values) ∧
        Bounded (endLines (fields.values.flatMap Describe.fieldLines)) := by
  apply prints_members _ _ fun f hf => prints_field (h f hf)
  intro f
  rw [Describe.fieldLines]
  simp only [String.append_assoc]

theorem prints_object {t : ObjectType} (h : t.Printable) :
    PrintsRun (Describe.object t) (comments t.description, .object t.definition) := by
  obtain ⟨⟨ts, hw, hi⟩, bounded⟩ := prints_interfaces h.interfaces
  have word : IsName "type" := by decide
  have named := (Writes.name_append h.name hw bounded).separator (c := ' ') rfl
  have written := Writes.name_append word named (.separator rfl _)
  have head : Writes ("type " ++ t.name ++ if t.interfaces.isEmpty then "" else
      " implements " ++ " & ".intercalate (t.interfaces.map NamedRef.name)).toList (.name "type" :: .name t.name :: ts) := by
    simpa using written
  exact prints_block head (prints_fields h.fields) fun us hf => .object (.mk t.name hi hf)

theorem writes_head (keyword : String) {name : String} (hk : IsName keyword) (hn : IsName name) :
    Writes (keyword ++ " " ++ name).toList [.name keyword, .name name] := by
  have named := (Writes.name hn).separator (c := ' ') rfl
  simpa using Writes.name_append hk named (.separator rfl _)

theorem prints_interface {t : InterfaceType} (h : t.Printable) :
    PrintsRun (Describe.interface t) (comments t.description, .interface t.definition) :=
  prints_block (writes_head "interface" (by decide) h.name) (prints_fields h.fields) fun _ hf =>
    .interface t.name hf

theorem prints_union {t : UnionType} (h : t.Printable) :
    PrintsRun (Describe.union t) (comments t.description, .union t.definition) := by
  obtain ⟨name, nonempty, names⟩ := h
  rw [Describe.union, UnionType.definition]
  obtain ⟨first, others, he⟩ := List.exists_cons_of_ne_nil nonempty
  rw [he] at names ⊢
  obtain ⟨first_name, names⟩ := List.forall_mem_cons.1 names
  obtain ⟨⟨ts, hw, hm⟩, bounded⟩ := prints_joined (c := '|') rfl UnionMemberForm.mk names
  have word : IsName "union" := by decide
  have listed := (Writes.name_append first_name hw bounded).separator (c := ' ') rfl
  have equals := (listed.punctuator (c := '=') rfl).separator (c := ' ') rfl
  have named := (Writes.name_append name equals (.separator rfl _)).separator (c := ' ') rfl
  have written := Writes.name_append word named (.separator rfl _)
  refine prints_line ⟨_, ?_, .union t.name first hm⟩
  rw [String.toList_append, intercalate_joined]
  simpa using written

theorem prints_scalar {t : ScalarType} (h : t.Printable) :
    PrintsRun (Describe.scalar t) (comments t.description, .scalar t.definition) :=
  prints_line ⟨_, writes_head "scalar" (by decide) h, .scalar t.name⟩

theorem prints_enum {t : EnumType} (h : t.Printable) :
    PrintsRun (Describe.enum t) (comments t.description, .enum t.definition) := by
  have values := prints_members EnumValue.description (fun _ => rfl) fun v hv =>
    ⟨_, Writes.name (h.values v hv), NameForm.mk v.name⟩
  exact prints_block (writes_head "enum" (by decide) h.name) values fun _ hv => .enum t.name hv

theorem prints_inputObject {t : InputObjectType} (h : t.Printable) :
    PrintsRun (Describe.inputObject t) (comments t.description, .inputObject t.definition) := by
  have fields := prints_members InputValue.description (fun _ => rfl) fun v hv =>
    prints_inputValue (h.fields v hv)
  exact prints_block (writes_head "input" (by decide) h.name) fields fun _ hf => .inputObject t.name hf

theorem prints_registry {r : Registry} (h : r.Printable) :
    Prints DocumentForm (Describe.registry r).toList r.document := by
  have blank_line : ∀ c ∈ ['\n', '\n'], isSeparator c := List.all_eq_true.1 rfl
  have blocks : List.Forall₂ PrintsRun _ r.runs :=
    List.rel_append (List.rel_append (List.rel_append (List.rel_append (List.rel_append
      (forall₂_map fun t ht => prints_object (h.objects t ht))
      (forall₂_map fun t ht => prints_interface (h.interfaces t ht)))
      (forall₂_map fun t ht => prints_union (h.unions t ht)))
      (forall₂_map fun t ht => prints_scalar (h.scalars t ht)))
      (forall₂_map fun t ht => prints_enum (h.enums t ht)))
      (forall₂_map fun t ht => prints_inputObject (h.inputObjects t ht))
  have pieces := prints_intercalate blank_line (List.cons_ne_nil _ _)
    (List.forall₂_map_left_iff.2 (List.forall₂_map_right_iff.2 blocks))
  rw [← List.flatMap_def] at pieces
  obtain ⟨ts, hw, hm⟩ := pieces
  refine ⟨ts, ?_, .mk hm⟩
  rw [Describe.registry, String.toList_intercalate]
  exact hw

end Schemata
