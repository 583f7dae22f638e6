import SchemaJson.Error
import SchemaJson.Json.Cursor

/-! Finding where a value ends without decoding it. An array or object ends at the bracket that
balances its first one, a string at the next quote that is not escaped, and any other value at
the next separator. -/

namespace SchemaJson

/-- A step over a document. The cursor stays where it got to, also when the step fails. -/
abbrev Scan := ExceptT Error (StateM Cursor)

/-- How far the search for a closing bracket has come. -/
structure Nesting where
  depth : Nat
  quoted : Bool
  escaped : Bool
  deriving DecidableEq, Repr

namespace Nesting

def start : Nesting := ⟨0, false, false⟩

/-- Takes one byte. The byte after a backslash counts for nothing, and no bracket counts between
quotes. -/
def step (openByte closeByte : UInt8) (nesting : Nesting) (byte : UInt8) : Nesting :=
  if nesting.escaped then { nesting with escaped := false }
  else if byte = Ascii.backslash then { nesting with escaped := true }
  else if byte = Ascii.quote then { nesting with quoted := !nesting.quoted }
  else if nesting.quoted then nesting
  else if byte = openByte then { nesting with depth := nesting.depth + 1 }
  else if byte = closeByte then { nesting with depth := nesting.depth - 1 }
  else nesting

def closes (openByte closeByte : UInt8) (nesting : Nesting) (byte : UInt8) : Bool :=
  !nesting.escaped && !nesting.quoted && byte != Ascii.backslash && byte != Ascii.quote
    && byte != openByte && byte == closeByte && nesting.depth ≤ 1

end Nesting

/-- Bytes in front of the one that closes the outermost bracket. -/
def matchingBracketFrom (openByte closeByte : UInt8) :
    (nesting : Nesting) → (passed : Nat) → Bytes → Option Nat
  | _, _, [] => none
  | nesting, passed, byte :: rest =>
    if nesting.closes openByte closeByte byte then some passed
    else
      let nesting := nesting.step openByte closeByte byte
      matchingBracketFrom openByte closeByte nesting (passed + 1) rest

/-- Index of the bracket that closes the one a text starts with. -/
def matchingBracket? (openByte closeByte : UInt8) (text : Bytes) : Option Nat :=
  matchingBracketFrom openByte closeByte .start 0 text

def unescapedQuoteFrom : (escaped : Bool) → (passed : Nat) → Bytes → Option Nat
  | _, _, [] => none
  | true, passed, _ :: rest => unescapedQuoteFrom false (passed + 1) rest
  | false, passed, byte :: rest =>
    if byte = Ascii.quote then some passed
    else unescapedQuoteFrom (byte == Ascii.backslash) (passed + 1) rest

/-- Index of the first quote that no backslash escapes. -/
def unescapedQuote? (text : Bytes) : Option Nat := unescapedQuoteFrom false 0 text

def isSeparator (byte : UInt8) : Bool :=
  byte == Ascii.comma || byte == Ascii.closeBrace || byte == Ascii.closeBracket

namespace Scan

def move (step : Cursor → Cursor) : Scan Unit := modify step

def skipBlanks : Scan Unit := move .skipBlanks

def fail {α : Type} (fault : StructureFault) : Scan α := do
  throw (.structural fault (← get).offset)

/-- The content of a string. The cursor is at its opening quote. -/
def string : Scan Span := do
  let cursor ← get
  move (.advance 1)
  match unescapedQuote? (← get).ahead with
  | none => throw (.structural .unterminatedString cursor.offset)
  | some length =>
    move (.advance (length + 1))
    return cursor.capture 1 length .string

def bracketed (openByte closeByte : UInt8) (shape : Shape) (unterminated : StructureFault) :
    Scan Span := do
  let cursor ← get
  match matchingBracket? openByte closeByte cursor.ahead with
  | none => fail unterminated
  | some last =>
    move (.advance (last + 1))
    return cursor.capture 0 (last + 1) shape

def array : Scan Span :=
  bracketed Ascii.openBracket Ascii.closeBracket .array .unterminatedArray

def object : Scan Span :=
  bracketed Ascii.openBrace Ascii.closeBrace .object .unterminatedObject

/-- The text up to the next separator, without the blanks in front of that. -/
def literal : Scan Span := do
  let cursor ← get
  let (run, rest) := cursor.ahead.span fun byte => !isSeparator byte
  match rest with
  | [] => fail .missingSeparator
  | _ :: _ =>
    move (.advance run.length)
    return cursor.capture 0 (Bytes.withoutBlankEnd run).length .literal

/-- The next value. The separator after it stays. -/
def value : Scan Span := do
  skipBlanks
  match (← get).peek? with
  | none => fail .unexpectedEnd
  | some byte =>
    if byte = Ascii.quote then string
    else if byte = Ascii.openBracket then array
    else if byte = Ascii.openBrace then object
    else if isSeparator byte || byte == Ascii.colon then
      fail (.unexpectedCharacter (Char.ofNat byte.toNat))
    else literal

/-- The separator after a value, and the blanks around it. -/
def separator (atEnd : StructureFault) : Scan UInt8 := do
  skipBlanks
  let cursor ← get
  match cursor.peek? with
  | none => fail atEnd
  | some byte =>
    if isSeparator byte then
      move fun cursor => { cursor.advance 1 with latestSeparator := some byte }
      skipBlanks
      return byte
    else fail (.unexpectedCharacter (cursor.char?.getD (Char.ofNat byte.toNat)))

def separatedValue : Scan Span := do
  let span ← value
  let _ ← separator .missingSeparator
  return span

/-- A member name and the colon after it. -/
def name : Scan Span := do
  skipBlanks
  let start ← get
  match start.peek? with
  | none => fail .unexpectedEnd
  | some byte =>
    if byte = Ascii.quote then
      let span ← string
      skipBlanks
      let cursor ← get
      if cursor.peek? = some Ascii.colon then
        move (.advance 1)
        skipBlanks
        return span
      else throw (.name .missingColon cursor.offset)
    else throw (.name (.ofByte byte) start.offset)

/-- Nothing but blanks may follow, unless other text is allowed. -/
def finish (allowed : Bool) : Scan Unit := do
  skipBlanks
  if allowed || (← get).atEnd then return () else fail .trailingCharacters

end Scan

end SchemaJson
