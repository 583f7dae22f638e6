import SchemaJson.Date.Text
import SchemaJson.Json.Field
import SchemaJson.Json.Scan
import SchemaJson.Number.Decimal
import SchemaJson.Number.Integer
import SchemaJson.Config

/-! Decoding a value's text as its declared type, and walking the elements of an array. -/

namespace SchemaJson

structure ClassReader where
  /-- The arguments a class value is constructed from, read from its text. -/
  read : (typeName : String) → Span → Context → Except Error (List Value)
  /-- The arguments of the class value that fills a place no element reaches. -/
  blank : (typeName : String) → List Value

def NumberKind.read (kind : NumberKind) (text : Bytes) : Option Scalar :=
  match kind with
  | .integer kind => (kind.read text).map (.integer kind)
  | .float format => (format.read text).map (.float format)

def Quoting.allows : Quoting → Shape → Bool
  | never, shape => shape == .literal
  | always, shape => shape == .string
  | maybe, shape => shape == .literal || shape == .string

/-- A literal is true when it starts with a `t` of either case. -/
def readBool : Bytes → Option Bool
  | [] => none
  | first :: _ => some (first == 0x74 || first == 0x54)

/-- The value of a span declared as a type without parts. -/
def Span.scalar? (span : Span) : Tag → Option Scalar
  | .number kind quoting =>
    if quoting.allows span.shape then kind.read (Bytes.withoutBlankEnd span.text) else none
  | .bool => if span.shape == .literal then (readBool span.text).map .bool else none
  | .string => if span.shape == .string then some (.text span.text) else none
  | .date => if span.shape == .string then (Instant.read span.text).map .date else none
  | .record _ | .array _ => none

def Span.invalid (span : Span) (label : Bytes) (tag : Tag) : Error :=
  .invalidValue label tag.describe span.text span.offset

/-- The field a span decodes to. `label` names the member in errors. -/
def Span.decode (classes : ClassReader) (label : Bytes) (tag : Tag) (span : Span)
    (context : Context) : Except Error Field :=
  match tag with
  | .record typeName => do
    let inner ← context.deeper span.offset
    return .record typeName (← classes.read typeName span inner)
  | .array element => do
    if span.shape = .array then
      let inner ← context.deeper span.offset
      return .array ⟨span, element, label, inner⟩
    else throw (span.invalid label tag)
  | _ =>
    match span.scalar? tag with
    | some scalar => .ok (.scalar scalar)
    | none => .error (span.invalid label tag)

namespace Scan

/-- One element of an array with the separator after it, and whether it is the last. -/
def element : Scan (Span × Bool) := do
  let span ← value
  skipBlanks
  let cursor ← get
  let byte ← separator .unterminatedArray
  if byte = Ascii.comma then return (span, false)
  else if byte = Ascii.closeBracket then return (span, true)
  else throw (.structural (.mismatchedClose (Char.ofNat byte.toNat)) cursor.offset)

/-- The elements from the cursor on, and why the walk broke off if it did. Every element takes a
byte, so as many steps as there are bytes ahead are enough. -/
def elements : (steps : Nat) → StateM Cursor (List Span × Option Error)
  | 0 => do return ([], some (.structural .unexpectedEnd (← get).offset))
  | steps + 1 => do
    match ← element.run with
    | .error error => return ([], some error)
    | .ok (span, true) => return ([span], none)
    | .ok (span, false) =>
      let (spans, fault) ← elements steps
      return (span :: spans, fault)

/-- The opening bracket of an array; whether the closing one follows. -/
def arrayStart : Scan Bool := do
  skipBlanks
  let cursor ← get
  if cursor.peek? = some Ascii.openBracket then
    move (.advance 1)
    skipBlanks
    return (← get).peek? == some Ascii.closeBracket
  else fail (.unexpectedCharacter (cursor.char?.getD '\x00'))

/-- The elements of a whole array. The cursor of an array without elements ends in front of the
closing bracket, that of any other array behind it. -/
def arrayElements : StateM Cursor (List Span × Option Error) := do
  match ← arrayStart.run with
  | .error error => return ([], some error)
  | .ok true => return ([], none)
  | .ok false => elements (← get).ahead.length

end Scan

namespace ArrayView

def ofDocument (text : Bytes) (element : Tag) (options : ReadOptions) : Except Error ArrayView :=
  let root : Scan ArrayView := do
    Scan.skipBlanks
    let cursor ← get
    match cursor.peek? with
    | none => Scan.fail .unexpectedEnd
    | some byte =>
      if byte = Ascii.openBracket then
        let span ← Scan.value
        Scan.finish options.allowTrailing
        return ⟨span, element, Bytes.ofString "[]", .root options.maxDepth⟩
      else Scan.fail (.unexpectedCharacter (cursor.char?.getD (Char.ofNat byte.toNat)))
  (root.run.run (.ofText text)).1

/-- The texts of the elements in order, and why the walk broke off if it did. -/
def spans (view : ArrayView) : List Span × Option Error :=
  (Scan.arrayElements.run (.ofSpan view.span)).1

def untilError {α : Type} : List (Except Error α) → List (Except Error α)
  | [] => []
  | .ok a :: rest => .ok a :: untilError rest
  | .error error :: _ => [.error error]

/-- The elements in order. A failure is the last of them. -/
def fields (classes : ClassReader) (view : ArrayView) : List (Except Error Field) :=
  let (spans, fault) := view.spans
  untilError (spans.map (fun span => span.decode classes view.label view.element view.context)
    ++ fault.toList.map .error)

end ArrayView

end SchemaJson
