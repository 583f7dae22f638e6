import SchemaJson.Bytes

/-! A cursor that moves forward over a text, and the spans it cuts out of it. Positions are offsets
in the whole document, also when the cursor walks a part of it. -/

namespace SchemaJson

/-- How a value is written. -/
inductive Shape where
  /-- What stands between the quotes. -/
  | string
  /-- The whole text from bracket to bracket. -/
  | array
  /-- The whole text from brace to brace. -/
  | object
  /-- Text without quotes or brackets. -/
  | literal
  deriving DecidableEq, Repr

/-- The raw text of one value and its offset in the document. -/
structure Span where
  text : Bytes
  offset : Nat
  shape : Shape
  deriving DecidableEq, Repr

def Span.isNull (span : Span) : Bool :=
  span.shape == .literal && span.text == [0x6e, 0x75, 0x6c, 0x6c]

structure Cursor where
  text : Bytes
  /-- Bytes of the text already passed. -/
  index : Nat
  ahead : Bytes
  /-- Offset of the text in the document. -/
  base : Nat
  /-- The separator taken after the latest value. -/
  latestSeparator : Option UInt8
  deriving DecidableEq, Repr

namespace Cursor

def ofText (text : Bytes) : Cursor := ⟨text, 0, text, 0, none⟩

def ofSpan (span : Span) : Cursor := ⟨span.text, 0, span.text, span.offset, none⟩

/-- The place in the document. The sum has no bound, and fits a machine word for any text in memory. -/
def offset (cursor : Cursor) : Nat := cursor.base + cursor.index

def bytesLeft (cursor : Cursor) : Nat := cursor.text.length - cursor.index

def atEnd (cursor : Cursor) : Bool := cursor.ahead.isEmpty

def peek? (cursor : Cursor) : Option UInt8 := cursor.ahead.head?

/-- Moves on by so many bytes, or to the end of the text if that is nearer. -/
def advance (count : Nat) (cursor : Cursor) : Cursor :=
  { cursor with
    index := cursor.index + (cursor.ahead.take count).length
    ahead := cursor.ahead.drop count }

def skipBlanks (cursor : Cursor) : Cursor :=
  cursor.advance (cursor.ahead.takeWhile isBlank).length

/-- The text ahead, or nothing when the cursor is inside a character. -/
def textAhead (cursor : Cursor) : Bytes :=
  if Bytes.startsChar cursor.ahead then cursor.ahead else []

/-- The character at the cursor; inside a character the single byte counts as one. -/
def char? (cursor : Cursor) : Option Char :=
  match Bytes.firstChar? cursor.ahead with
  | some c => some c
  | none => cursor.peek?.map fun byte => Char.ofNat byte.toNat

def between (cursor : Cursor) (first last : Nat) (shape : Shape) : Span :=
  { text := if first ≤ last then Bytes.cut (cursor.text.drop first) (last - first) else []
    offset := cursor.base + first
    shape }

/-- The text of so many bytes that starts `skipped` bytes ahead. -/
def capture (cursor : Cursor) (skipped length : Nat) (shape : Shape) : Span :=
  { text := Bytes.cut (cursor.ahead.drop skipped) length
    offset := cursor.offset + skipped
    shape }

end Cursor

end SchemaJson
