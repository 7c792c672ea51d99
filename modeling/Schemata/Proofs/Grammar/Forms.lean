import Schemata.Document.Basic
import Schemata.Token.Basic
/-!
The grammar of schema documents. A form relates a sequence of tokens to what it stands for, and each
rule is a constructor; nothing is said of the order in which alternatives are tried.

    document   = (comment | definition)*
    definition = object | "extend" object
               | "interface" name "{" (comment | field)* "}" | "union" name "=" name ("|" name)*
               | "scalar" name | "enum" name "{" (comment | name)* "}"
               | "input" name "{" (comment | input)* "}"
    object     = "type" name ("implements" ("&"? name)+)? "{" (comment | field)* "}"
    field      = name ("(" (comment | input)* ")")? ":" type
    input      = name ":" type ("=" value)?
    type       = (name | "[" type "]") "!"?
    value      = number | string | "true" | "false" | name
               | "[" (comment | value)* "]" | "{" (comment | name ":" value)* "}"

A name token may be any word, except that the two booleans are no enum names. Comments within values
count for nothing.
-/

namespace Schemata.Grammar

abbrev Form (α : Type) := List Token → α → Prop

variable {α : Type}

inductive Many (p : Form α) : Form (List α)
  | nil : Many p [] []
  | cons {ts us : List Token} {a : α} {as : List α} (first : p ts a) (others : Many p us as) :
      Many p (ts ++ us) (a :: as)

inductive Entry (p : Form α) : Form (Member α)
  | comment (text : String) : Entry p [.comment text] (.comment ⟨text⟩)
  | item {ts : List Token} {a : α} (h : p ts a) : Entry p ts (.item a)

inductive Block (opening closing : Char) (p : Form α) : Form (List (Member α))
  | mk {ts : List Token} {members : List (Member α)} (h : Many (Entry p) ts members) :
      Block opening closing p (.punctuator opening :: (ts ++ [.punctuator closing])) members

inductive NameForm : Form String
  | mk (name : String) : NameForm [.name name] name

mutual

inductive BareTypeForm : Form TypeRef
  | named (name : String) : BareTypeForm [.name name] (.named name)
  | list {ts : List Token} {t : TypeRef} (h : TypeForm ts t) :
      BareTypeForm (.punctuator '[' :: (ts ++ [.punctuator ']'])) (.list t)

inductive TypeForm : Form TypeRef
  | bare {ts : List Token} {t : TypeRef} (h : BareTypeForm ts t) : TypeForm ts t
  | nonNull {ts : List Token} {t : TypeRef} (h : BareTypeForm ts t) :
      TypeForm (ts ++ [.punctuator '!']) (.nonNull t)

end

inductive ObjectFieldForm (p : Form Value) : Form (String × Value)
  | mk (name : String) {ts : List Token} {v : Value} (h : p ts v) :
      ObjectFieldForm p (.name name :: .punctuator ':' :: ts) (name, v)

inductive ValueForm : Form Value
  | number {text : String} {n : Number} (h : Number.read? text = some n) :
      ValueForm [.number text] (.number n)
  | string (text : String) : ValueForm [.string text] (.string (String.ofList (unquote text.toList)))
  | true : ValueForm [.name "true"] (.boolean Bool.true)
  | false : ValueForm [.name "false"] (.boolean Bool.false)
  | enum {name : String} (ht : name ≠ "true") (hf : name ≠ "false") : ValueForm [.name name] (.enum name)
  | list {ts : List Token} {members : List (Member Value)} (h : Block '[' ']' ValueForm ts members) :
      ValueForm ts (.list (items members))
  | object {ts : List Token} {members : List (Member (String × Value))}
      (h : Block '{' '}' (ObjectFieldForm ValueForm) ts members) : ValueForm ts (.object (items members))

inductive InputForm : Form InputValueDefinition
  | plain (name : String) {ts : List Token} {t : TypeRef} (h : TypeForm ts t) :
      InputForm (.name name :: .punctuator ':' :: ts) ⟨name, t, none⟩
  | default (name : String) {ts us : List Token} {t : TypeRef} {v : Value} (ht : TypeForm ts t)
      (hv : ValueForm us v) :
      InputForm (.name name :: .punctuator ':' :: (ts ++ .punctuator '=' :: us)) ⟨name, t, some v⟩

inductive ArgumentsForm : Form (Option (List (Member InputValueDefinition)))
  | none : ArgumentsForm [] none
  | some {ts : List Token} {members : List (Member InputValueDefinition)}
      (h : Block '(' ')' InputForm ts members) : ArgumentsForm ts (some members)

inductive FieldForm : Form FieldDefinition
  | mk (name : String) {ts us : List Token} {arguments : Option (List (Member InputValueDefinition))}
      {t : TypeRef} (ha : ArgumentsForm ts arguments) (ht : TypeForm us t) :
      FieldForm (.name name :: (ts ++ .punctuator ':' :: us)) ⟨name, arguments, t⟩

inductive InterfaceForm : Form String
  | plain (name : String) : InterfaceForm [.name name] name
  | joined (name : String) : InterfaceForm [.punctuator '&', .name name] name

inductive InterfacesForm : Form (List String)
  | none : InterfacesForm [] []
  | some {ts us : List Token} {name : String} {names : List String} (first : InterfaceForm ts name)
      (others : Many InterfaceForm us names) :
      InterfacesForm (.name "implements" :: (ts ++ us)) (name :: names)

inductive ObjectForm : Form ObjectDefinition
  | mk (name : String) {ts us : List Token} {interfaces : List String}
      {fields : List (Member FieldDefinition)} (hi : InterfacesForm ts interfaces)
      (hf : Block '{' '}' FieldForm us fields) :
      ObjectForm (.name "type" :: .name name :: (ts ++ us)) ⟨name, interfaces, fields⟩

inductive UnionMemberForm : Form String
  | mk (name : String) : UnionMemberForm [.punctuator '|', .name name] name

inductive DefinitionForm : Form TypeDefinition
  | object {ts : List Token} {d : ObjectDefinition} (h : ObjectForm ts d) : DefinitionForm ts (.object d)
  | extension {ts : List Token} {d : ObjectDefinition} (h : ObjectForm ts d) :
      DefinitionForm (.name "extend" :: ts) (.extension d)
  | interface (name : String) {ts : List Token} {fields : List (Member FieldDefinition)}
      (h : Block '{' '}' FieldForm ts fields) :
      DefinitionForm (.name "interface" :: .name name :: ts) (.interface ⟨name, fields⟩)
  | union (name first : String) {ts : List Token} {others : List String}
      (h : Many UnionMemberForm ts others) :
      DefinitionForm (.name "union" :: .name name :: .punctuator '=' :: .name first :: ts)
        (.union ⟨name, first :: others⟩)
  | scalar (name : String) : DefinitionForm [.name "scalar", .name name] (.scalar ⟨name⟩)
  | enum (name : String) {ts : List Token} {values : List (Member String)}
      (h : Block '{' '}' NameForm ts values) :
      DefinitionForm (.name "enum" :: .name name :: ts) (.enum ⟨name, values⟩)
  | inputObject (name : String) {ts : List Token} {fields : List (Member InputValueDefinition)}
      (h : Block '{' '}' InputForm ts fields) :
      DefinitionForm (.name "input" :: .name name :: ts) (.inputObject ⟨name, fields⟩)

inductive DocumentForm : Form Document
  | mk {ts : List Token} {definitions : List (Member TypeDefinition)}
      (h : Many (Entry DefinitionForm) ts definitions) : DocumentForm ts ⟨definitions⟩

end Schemata.Grammar
