import SchemaJson.Json.Encode
import SchemaJson.Json.Object

/-! A registry keeps the schemas that were bound, so that a class is bound once, and can replace
them. Classes nested in a value always have their declared schemas. -/

namespace SchemaJson

structure Registry where
  /-- Schemas by the full names of their types, the latest first. -/
  schemas : List (String × Schema)
  deriving DecidableEq, Repr

namespace Registry

def empty : Registry := ⟨[]⟩

def find? (registry : Registry) (typeName : String) : Option Schema :=
  registry.schemas.lookup typeName

def contains (registry : Registry) (typeName : String) : Bool :=
  (registry.find? typeName).isSome

def size (registry : Registry) : Nat := registry.schemas.length

def isEmpty (registry : Registry) : Bool := registry.schemas.isEmpty

/-- Keeps a schema in the place of any earlier one. -/
def register (registry : Registry) (typeName : String) (schema : Schema) : Registry :=
  ⟨(typeName, schema) :: registry.schemas.filter fun entry => entry.1 != typeName⟩

/-- The schema of a class, bound and kept when it is first asked for. -/
def schema (registry : Registry) (catalog : Catalog) (typeName : String) :
    Except Error Schema × Registry :=
  match registry.find? typeName with
  | some schema => (.ok schema, registry)
  | none =>
    match catalog.schema typeName with
    | .ok schema => (.ok schema, registry.register typeName schema)
    | .error error => (.error error, registry)

def decode (registry : Registry) (catalog : Catalog) (typeName : String) (text : Bytes)
    (options : ReadOptions) : Except Error Value × Registry :=
  let (schema, registry) := registry.schema catalog typeName
  let value := do
    let stored ← (← schema).decode (catalog.reader options.maxDepth) text options
    return .record typeName stored
  (value, registry)

def encode (registry : Registry) (catalog : Catalog) (typeName : String) (stored : List Value)
    (options : WriteOptions) : Except Error Bytes × Registry :=
  let (schema, registry) := registry.schema catalog typeName
  let text := do
    let entries := catalog.memberEntries typeName (Value.entries catalog stored)
    Write.document options ((← schema).write entries)
  (text, registry)

end Registry

end SchemaJson
