import SchemaJson.Json.Build
import SchemaJson.Schema.Catalog

/-! Reading objects. All members are walked first and the texts of the declared ones kept; then
the required ones must be there; then every text is decoded and the arguments are built. -/

namespace SchemaJson

namespace Scan

/-- The members from the cursor to the closing brace, as the text of each declared one. The latest
text of a member replaces earlier ones. Every member takes a byte, so as many steps as there are
bytes ahead are enough. -/
def members (table : MemberTable) :
    (steps : Nat) → (given : List (Option Span)) → Scan (List (Option Span))
  | 0, _ => fail .unexpectedEnd
  | steps + 1, given => do
    let name ← name
    let span ← value
    let given := match table.find? name.text with
      | some position => given.set position (some span)
      | none => given
    skipBlanks
    let cursor ← get
    let byte ← separator .unterminatedObject
    if byte = Ascii.comma then members table steps given
    else if byte = Ascii.closeBrace then return given
    else throw (.structural (.mismatchedClose (Char.ofNat byte.toNat)) cursor.offset)

/-- The texts of the declared members of one object. The cursor ends after the closing brace and
the blanks behind it. -/
def memberTexts (table : MemberTable) (className : String) : Scan (List (Option Span)) := do
  let nothing := List.replicate table.size none
  skipBlanks
  let start ← get
  if start.peek? = some Ascii.openBrace then
    move (.advance 1)
    skipBlanks
    let cursor ← get
    if cursor.peek? = some Ascii.closeBrace then
      move (.advance 1)
      skipBlanks
      return nothing
    else members table cursor.ahead.length nothing
  else throw (.classStart className start.offset)

end Scan

/-- Whether the member has the text it needs. -/
def Member.isSatisfied (member : Member) (given : Option Span) : Bool :=
  member.nullable || given.isSome

/-- The field of a member. One that is nullable and absent or `null` is empty. -/
def Member.decode (classes : ClassReader) (member : Member) (given : Option Span)
    (context : Context) : Except Error Field :=
  match given with
  | none => .ok .null
  | some span =>
    if member.nullable && span.isNull then .ok .null
    else span.decode classes member.name member.tag context

namespace MemberTable

def missing? (table : MemberTable) (given : List (Option Span)) : Option Member :=
  ((table.members.zip given).find? fun entry => !entry.1.isSatisfied entry.2).map Prod.fst

def fields (classes : ClassReader) (table : MemberTable) (given : List (Option Span))
    (context : Context) : Except Error (List Field) :=
  (table.members.zip given).mapM fun entry => entry.1.decode classes entry.2 context

end MemberTable

namespace Schema

def arguments (classes : ClassReader) (schema : Schema) (given : List (Option Span))
    (context : Context) : Except Error (List Value) :=
  match schema.table.missing? given with
  | some member => .error (.missingMember schema.className member.name)
  | none => do
    let fields ← schema.table.fields classes given context
    ArgType.buildAll classes schema.signature.arguments fields

def readObject (classes : ClassReader) (schema : Schema) (context : Context) :
    Scan (List Value) := do
  let given ← Scan.memberTexts schema.table schema.className
  schema.arguments classes given context

def decode (classes : ClassReader) (schema : Schema) (text : Bytes) (options : ReadOptions) :
    Except Error (List Value) :=
  let root : Scan (List Value) := do
    let stored ← schema.readObject classes (.root options.maxDepth)
    Scan.finish options.allowTrailing
    return stored
  (root.run.run (.ofText text)).1

/-- Objects one after the other up to the first failure or the end of the text, each with the
cursor behind it. Every object takes a byte, so as many steps as there are bytes ahead, and one for
the end, are enough. -/
def stream (classes : ClassReader) (schema : Schema) (context : Context) :
    (steps : Nat) → Cursor → List (Except Error (List Value) × Cursor)
  | 0, _ => []
  | steps + 1, cursor =>
    let (result, cursor) := (schema.readObject classes context).run.run cursor
    if result.isOk && !cursor.atEnd then
      (result, cursor) :: stream classes schema context steps cursor
    else [(result, cursor)]

def decodeAll (classes : ClassReader) (schema : Schema) (text : Bytes) (options : ReadOptions) :
    List (Except Error (List Value) × Cursor) :=
  schema.stream classes (.root options.maxDepth) (text.length + 1) (.ofText text)

end Schema

namespace Catalog

/-- A reader for classes nested at most so many levels. Past them the depth limit is reached,
which a context that allows no more levels has reported before. -/
def reader (catalog : Catalog) : (levels : Nat) → ClassReader
  | 0 =>
    { read := fun _ span context =>
        .error (.structural (.depthExceeded context.maxDepth) span.offset)
      blank := catalog.blank }
  | levels + 1 =>
    { read := fun typeName span context => do
        let schema ← catalog.schema typeName
        ((schema.readObject (catalog.reader levels) context).run.run (.ofSpan span)).1
      blank := catalog.blank }

def decode (catalog : Catalog) (typeName : String) (text : Bytes) (options : ReadOptions) :
    Except Error Value := do
  let schema ← catalog.schema typeName
  let stored ← schema.decode (catalog.reader options.maxDepth) text options
  return .record typeName stored

def decodeArray (catalog : Catalog) (element : ArgType) (text : Bytes) (options : ReadOptions) :
    Except Error Value := do
  match element.elementTag? with
  | some tag =>
    let view ← ArrayView.ofDocument text tag options
    (ArgType.growable element).build (catalog.reader options.maxDepth) (.array view)
  | none => throw (.build (.notAnElement element.name))

end Catalog

end SchemaJson
