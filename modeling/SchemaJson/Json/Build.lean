import SchemaJson.Json.Decode
import SchemaJson.Schema.ArgType

/-! Building constructor arguments from decoded fields. -/

namespace SchemaJson

namespace Sequence

/-- All items up to the first failure, with the number of items looked at. -/
def readAll {α : Type} : List (Except Error α) → Nat × Except Error (List α)
  | [] => (0, .ok [])
  | .error error :: _ => (1, .error error)
  | .ok a :: rest =>
    let (taken, result) := readAll rest
    (taken + 1, result.map (a :: ·))

def growable {α : Type} (items : List (Except Error α)) : Nat × Except Error (List α) :=
  readAll items

/-- Exactly `size` items. Missing ones are `blank`, and items past the last place are not
looked at. -/
def fixed {α : Type} (size : Nat) (blank : α) (items : List (Except Error α)) :
    Nat × Except Error (List α) :=
  let (taken, result) := readAll (items.take size)
  (taken, result.map fun list => list ++ List.replicate (size - list.length) blank)

/-- Bytes a sequence of unknown length reserves. -/
def initialBytes : Nat := 4096

/-- Elements a sequence of unknown length reserves room for. -/
def initialCapacity (elementSize : Nat) : Nat := max 1 (initialBytes / max 1 elementSize)

end Sequence

namespace ArgType

def mismatch (argument : ArgType) (field : Field) : Error :=
  .build (.wrongField argument.name field.typeName)

def build (classes : ClassReader) : ArgType → Field → Except Error Value
  | scalar type, field =>
    match field with
    | .scalar content =>
      if content.type = type then .ok (.scalar content)
      else .error (mismatch (scalar type) field)
    | _ => .error (mismatch (scalar type) field)
  | record typeName, field =>
    match field with
    | .record found stored =>
      if found = typeName then .ok (.record typeName stored)
      else .error (.build (.differentClass typeName))
    | _ => .error (mismatch (record typeName) field)
  | growable element, field =>
    match field with
    | .array view =>
      let items := (view.fields classes).map fun item => item.bind (element.build classes)
      (Sequence.growable items).2.map .list
    | _ => .error (mismatch (growable element) field)
  | fixed element size, field =>
    match field with
    | .array view =>
      let items := (view.fields classes).map fun item => item.bind (element.build classes)
      (Sequence.fixed size (element.blank classes.blank) items).2.map .list
    | _ => .error (mismatch (fixed element size) field)
  | nullable wrapper content, field =>
    match field with
    | .null => .ok (.absent wrapper)
    | _ => (content.build classes field).map (.present wrapper)

def buildAll (classes : ClassReader) : List ArgType → List Field → Except Error (List Value)
  | [], _ => .ok []
  | _ :: _, [] => .error (.build .tooFewFields)
  | type :: types, field :: fields => do
    let value ← type.build classes field
    return value :: (← buildAll classes types fields)

end ArgType

end SchemaJson
