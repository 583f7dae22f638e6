import SchemaJson.Config

/-! A writer of documents. It keeps the brackets that are open, so that it knows which comma and
which line break the next element or key owes. -/

namespace SchemaJson

inductive Container where
  | object | array
  deriving DecidableEq, Repr

namespace Container

def opening : Container → UInt8
  | object => Ascii.openBrace
  | array => Ascii.openBracket

def closing : Container → UInt8
  | object => Ascii.closeBrace
  | array => Ascii.closeBracket

end Container

/-- A container that was opened and not closed yet. -/
structure OpenContainer where
  container : Container
  isEmpty : Bool
  deriving DecidableEq, Repr

structure Writer where
  options : WriteOptions
  out : Array UInt8
  /-- What is open, the innermost first. -/
  pending : List OpenContainer
  numbersQuoted : Bool
  deriving DecidableEq, Repr

namespace Writer

def start (options : WriteOptions) : Writer := ⟨options, #[], [], false⟩

def text (writer : Writer) : Bytes := writer.out.toList

def put (bytes : Bytes) (writer : Writer) : Writer := { writer with out := writer.out ++ bytes }

/-- The width of the indent has no bound, where a machine word would overflow once more blanks are
owed than memory can hold. -/
def newline (depth : Nat) (writer : Writer) : Writer :=
  writer.put (Ascii.newline :: List.replicate (depth * writer.options.indent) Ascii.space)

/-- The comma and the line break in front of an element or a key. -/
def startEntry (writer : Writer) : Writer :=
  match writer.pending with
  | [] => writer
  | inner :: outer =>
    let separated := if inner.isEmpty then writer else writer.put [Ascii.comma]
    let marked := { separated with pending := { inner with isEmpty := false } :: outer }
    if writer.options.pretty then marked.newline writer.pending.length else marked

/-- What is owed in front of a value. A member's value follows its key directly. -/
def startValue (writer : Writer) : Writer :=
  match writer.pending with
  | ⟨.array, _⟩ :: _ => writer.startEntry
  | _ => writer

def begin (container : Container) (writer : Writer) : Writer :=
  let opened := writer.startValue.put [container.opening]
  { opened with pending := ⟨container, true⟩ :: opened.pending }

/-- Closes whatever was opened last, with the bracket of the container that is named. -/
def finish (container : Container) (writer : Writer) : Writer :=
  match writer.pending with
  | [] => writer.put [container.closing]
  | inner :: outer =>
    let closed := { writer with pending := outer }
    let broken :=
      if writer.options.pretty && !inner.isEmpty then closed.newline outer.length else closed
    broken.put [container.closing]

def withNumbersQuoted (quoted : Bool) (writer : Writer) : Writer :=
  { writer with numbersQuoted := quoted }

/-- Whether a backslash in front of these bytes starts an escape that is kept. -/
def startsEscape : Bytes → Bool
  | [] => false
  | byte :: _ =>
    [Ascii.quote, Ascii.backslash, 0x2f, 0x62, 0x66, 0x6e, 0x72, 0x74, 0x75].contains byte

def hexDigit (n : Nat) : UInt8 := UInt8.ofNat (if n < 10 then 0x30 + n else 0x57 + n)

/-- A text as the content of a string. Escapes that are there already are kept; a quote, any other
backslash and a control byte are escaped. `kept` tells that the next byte belongs to an escape. -/
def escapeFrom : (kept : Bool) → Bytes → Bytes
  | _, [] => []
  | true, byte :: rest => byte :: escapeFrom false rest
  | false, byte :: rest =>
    if byte = Ascii.backslash then
      if startsEscape rest then byte :: escapeFrom true rest
      else byte :: byte :: escapeFrom false rest
    else if byte = Ascii.quote then Ascii.backslash :: byte :: escapeFrom false rest
    else if byte < 0x20 then
      Ascii.backslash :: 0x75 :: 0x30 :: 0x30 :: hexDigit (byte.toNat / 16)
        :: hexDigit (byte.toNat % 16) :: escapeFrom false rest
    else byte :: escapeFrom false rest

def escape (text : Bytes) : Bytes := escapeFrom false text

def quoted (text : Bytes) : Bytes := Ascii.quote :: escape text ++ [Ascii.quote]

def key (name : Bytes) (writer : Writer) : Writer :=
  let named := writer.startEntry.put (quoted name ++ [Ascii.colon])
  if writer.options.pretty then named.put [Ascii.space] else named

def null (writer : Writer) : Writer := writer.startValue.put [0x6e, 0x75, 0x6c, 0x6c]

def bool (value : Bool) (writer : Writer) : Writer :=
  writer.startValue.put
    (if value then [0x74, 0x72, 0x75, 0x65] else [0x66, 0x61, 0x6c, 0x73, 0x65])

def string (text : Bytes) (writer : Writer) : Writer := writer.startValue.put (quoted text)

def number (text : Bytes) (writer : Writer) : Writer :=
  writer.startValue.put
    (if writer.numbersQuoted then Ascii.quote :: text ++ [Ascii.quote] else text)

end Writer

end SchemaJson
