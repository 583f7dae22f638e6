import SchemaJson.Date.Text
import SchemaJson.Json.Writer
import SchemaJson.Number.Shortest
import SchemaJson.Schema.Catalog

/-! Writing values. A value is written into whatever is open; a member that is absent is left out
of its object. -/

namespace SchemaJson

/-- A step that writes. What was written stays, also when the step fails. -/
abbrev Write := ExceptT Error (StateM Writer)

namespace Write

def put (step : Writer → Writer) : Write Unit := modify step

/-- Opens a container, unless too many are open already. -/
def begin (container : Container) : Write Unit := do
  let writer ← get
  if writer.options.maxDepth < writer.pending.length then
    throw (.encode (.depthExceeded writer.options.maxDepth))
  put (.begin container)

def finish (container : Container) : Write Unit := put (.finish container)

def nonFiniteName (format : FloatFormat) (bits : Nat) : String :=
  if format.isInfinite bits then if format.isNegative bits then "-inf" else "inf" else "NaN"

def float (format : FloatFormat) (bits : Nat) : Write Unit :=
  if format.isFinite bits then put (.number (format.documentLayout.write format bits))
  else throw (.encode (.notFinite (nonFiniteName format bits)))

def scalar : Scalar → Write Unit
  | .integer _ value => put (.number (decimalInt value))
  | .float format bits => float format bits
  | .bool value => put (.bool value)
  | .text content => put (.string content)
  | .date instant => put (.string instant.write)

/-- Quotes numbers during one step only. -/
def quotingNumbers (quote : Bool) (step : Write Unit) : Write Unit := fun writer =>
  let (result, writer) := step (writer.withNumbersQuoted quote)
  (result, writer.withNumbersQuoted false)

end Write

/-- One element or member value that is to be written. -/
structure Entry where
  isAbsent : Bool
  write : Write Unit

namespace Write

def elements : List Entry → Write Unit
  | [] => return ()
  | entry :: entries => do
    entry.write
    elements entries

def array (entries : List Entry) : Write Unit := do
  begin .array
  elements entries
  finish .array

def members (className : String) : List Member → List Entry → Write Unit
  | member :: rest, entry :: entries =>
    if entry.isAbsent then
      if member.nullable then members className rest entries
      else throw (.encode (.absentMember className member.name))
    else do
      put (.key member.name)
      quotingNumbers member.tag.isQuotedNumber entry.write
      members className rest entries
  | _, _ => return ()

end Write

def Schema.write (schema : Schema) (entries : List Entry) : Write Unit := do
  if entries.length ≠ schema.table.size then
    throw (.encode (.memberCount schema.className entries.length schema.table.size))
  Write.begin .object
  Write.members schema.className schema.table.members entries
  Write.finish .object

namespace Catalog

/-- The entries of a class's members, from the entries of its stored arguments. -/
def memberEntries (catalog : Catalog) (typeName : String) (stored : List Entry) : List Entry :=
  match catalog.find? typeName with
  | some decl => decl.memberValues.filterMap fun position => stored[position]?
  | none => []

def writeRecord (catalog : Catalog) (typeName : String) (stored : List Entry) : Write Unit := do
  let schema ← catalog.schema typeName
  schema.write (catalog.memberEntries typeName stored)

end Catalog

mutual

def Value.entry (catalog : Catalog) : Value → Entry
  | .scalar content => ⟨false, Write.scalar content⟩
  | .absent _ => ⟨true, Write.put .null⟩
  | .present _ content => ⟨false, (content.entry catalog).write⟩
  | .list items => ⟨false, Write.array (Value.entries catalog items)⟩
  | .record typeName stored =>
    ⟨false, catalog.writeRecord typeName (Value.entries catalog stored)⟩

def Value.entries (catalog : Catalog) : List Value → List Entry
  | [] => []
  | value :: values => value.entry catalog :: Value.entries catalog values

end

namespace Write

/-- The text that a step writes into an empty document. -/
def document (options : WriteOptions) (step : Write Unit) : Except Error Bytes :=
  match step (.start options) with
  | (.ok (), writer) => .ok writer.text
  | (.error error, _) => .error error

end Write

namespace Catalog

def encode (catalog : Catalog) (value : Value) (options : WriteOptions) : Except Error Bytes :=
  Write.document options (value.entry catalog).write

def encodeArray (catalog : Catalog) (values : List Value) (options : WriteOptions) :
    Except Error Bytes :=
  catalog.encode (.list values) options

end Catalog

end SchemaJson
