import Schemata.Binary.Codec
import Schemata.Document.Basic

namespace Schemata.Binary

namespace Codec

def number : Codec Number where
  write
    | .int value => tag.write 0 ++ int64.write value
    | .float value => tag.write 1 ++ binary64.write value
  read bytes := do
    let (kind, bytes) ← tag.read bytes
    match kind with
    | 0 => (int64.read bytes).map fun p => (.int p.1, p.2)
    | 1 => (binary64.read bytes).map fun p => (.float p.1, p.2)
    | _ => none

def writeType : TypeRef → Bytes
  | .named name => tag.write 0 ++ string.write name
  | .list inner => tag.write 1 ++ writeType inner
  | .nonNull inner => tag.write 2 ++ writeType inner

def readType : (bound : Nat) → Bytes → Option (TypeRef × Bytes)
  | 0, _ => none
  | bound + 1, bytes => do
    let (kind, bytes) ← tag.read bytes
    match kind with
    | 0 => (string.read bytes).map fun p => (.named p.1, p.2)
    | 1 => (readType bound bytes).map fun p => (.list p.1, p.2)
    | 2 => (readType bound bytes).map fun p => (.nonNull p.1, p.2)
    | _ => none

/-- Each level of nesting takes a byte, so the number of bytes bounds the levels. -/
def type : Codec TypeRef := ⟨writeType, fun bytes => readType bytes.length bytes⟩

mutual

def writeValue : Value → Bytes
  | .boolean value => tag.write 0 ++ bool.write value
  | .enum name => tag.write 1 ++ string.write name
  | .list items => tag.write 2 ++ length.write items.length ++ writeItems items
  | .number value => tag.write 3 ++ number.write value
  | .object fields => tag.write 4 ++ length.write fields.length ++ writeFields fields
  | .string value => tag.write 5 ++ string.write value

def writeItems : List Value → Bytes
  | [] => []
  | item :: items => writeValue item ++ writeItems items

def writeFields : List (String × Value) → Bytes
  | [] => []
  | (name, value) :: fields => string.write name ++ writeValue value ++ writeFields fields

end

def readValue : (bound : Nat) → Bytes → Option (Value × Bytes)
  | 0, _ => none
  | bound + 1, bytes => do
    let (kind, bytes) ← tag.read bytes
    match kind with
    | 0 => (bool.read bytes).map fun p => (.boolean p.1, p.2)
    | 1 => (string.read bytes).map fun p => (.enum p.1, p.2)
    | 2 => (readList (readValue bound) bytes).map fun p => (.list p.1, p.2)
    | 3 => (number.read bytes).map fun p => (.number p.1, p.2)
    | 4 =>
      let field (bytes : Bytes) : Option ((String × Value) × Bytes) := do
        let (name, bytes) ← string.read bytes
        let (value, bytes) ← readValue bound bytes
        return ((name, value), bytes)
      (readList field bytes).map fun p => (.object p.1, p.2)
    | 5 => (string.read bytes).map fun p => (.string p.1, p.2)
    | _ => none

def value : Codec Value := ⟨writeValue, fun bytes => readValue bytes.length bytes⟩

def comment : Codec Comment := string.convert .mk Comment.text

def member {α : Type} (c : Codec α) : Codec (Member α) where
  write
    | .comment a => tag.write 0 ++ comment.write a
    | .item a => tag.write 1 ++ c.write a
  read bytes := do
    let (kind, bytes) ← tag.read bytes
    match kind with
    | 0 => (comment.read bytes).map fun p => (.comment p.1, p.2)
    | 1 => (c.read bytes).map fun p => (.item p.1, p.2)
    | _ => none

def inputValue : Codec InputValueDefinition :=
  (string.pair (type.pair value.option)).convert
    (fun p => ⟨p.1, p.2.1, p.2.2⟩) (fun v => (v.name, v.type, v.defaultValue))

def field : Codec FieldDefinition :=
  (string.pair (inputValue.member.list.option.pair type)).convert
    (fun p => ⟨p.1, p.2.1, p.2.2⟩) (fun f => (f.name, f.arguments, f.type))

def object : Codec ObjectDefinition :=
  (string.pair (string.list.pair field.member.list)).convert
    (fun p => ⟨p.1, p.2.1, p.2.2⟩) (fun o => (o.name, o.interfaces, o.fields))

def interface : Codec InterfaceDefinition :=
  (string.pair field.member.list).convert (fun p => ⟨p.1, p.2⟩) (fun i => (i.name, i.fields))

def union : Codec UnionDefinition :=
  (string.pair string.list).convert (fun p => ⟨p.1, p.2⟩) (fun u => (u.name, u.members))

def scalar : Codec ScalarDefinition := string.convert .mk ScalarDefinition.name

def enum : Codec EnumDefinition :=
  (string.pair string.member.list).convert (fun p => ⟨p.1, p.2⟩) (fun e => (e.name, e.values))

def inputObject : Codec InputObjectDefinition :=
  (string.pair inputValue.member.list).convert (fun p => ⟨p.1, p.2⟩) (fun i => (i.name, i.fields))

def definition : Codec (Member TypeDefinition) where
  write
    | .comment c => tag.write 0 ++ comment.write c
    | .item (.enum d) => tag.write 1 ++ enum.write d
    | .item (.inputObject d) => tag.write 2 ++ inputObject.write d
    | .item (.interface d) => tag.write 3 ++ interface.write d
    | .item (.object d) => tag.write 4 ++ object.write d
    | .item (.scalar d) => tag.write 5 ++ scalar.write d
    | .item (.extension d) => tag.write 6 ++ object.write d
    | .item (.union d) => tag.write 7 ++ union.write d
  read bytes := do
    let (kind, bytes) ← tag.read bytes
    match kind with
    | 0 => (comment.read bytes).map fun p => (.comment p.1, p.2)
    | 1 => (enum.read bytes).map fun p => (.item (.enum p.1), p.2)
    | 2 => (inputObject.read bytes).map fun p => (.item (.inputObject p.1), p.2)
    | 3 => (interface.read bytes).map fun p => (.item (.interface p.1), p.2)
    | 4 => (object.read bytes).map fun p => (.item (.object p.1), p.2)
    | 5 => (scalar.read bytes).map fun p => (.item (.scalar p.1), p.2)
    | 6 => (object.read bytes).map fun p => (.item (.extension p.1), p.2)
    | 7 => (union.read bytes).map fun p => (.item (.union p.1), p.2)
    | _ => none

def document : Codec Document := definition.list.convert .mk Document.definitions

end Codec

end Schemata.Binary

namespace Schemata.Document

def encode (d : Document) : Binary.Bytes := Binary.Codec.document.write d

def decode? (bytes : Binary.Bytes) : Option Document := (Binary.Codec.document.read bytes).map Prod.fst

end Schemata.Document
