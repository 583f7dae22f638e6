/-! Texts as lists of bytes. Offsets and lengths count bytes, a cut falls between two characters,
and a text becomes a `String` only where a person reads it. -/

namespace SchemaJson

abbrev Bytes := List UInt8

namespace Ascii

abbrev quote : UInt8 := 0x22
abbrev backslash : UInt8 := 0x5c
abbrev comma : UInt8 := 0x2c
abbrev colon : UInt8 := 0x3a
abbrev openBracket : UInt8 := 0x5b
abbrev closeBracket : UInt8 := 0x5d
abbrev openBrace : UInt8 := 0x7b
abbrev closeBrace : UInt8 := 0x7d
abbrev plus : UInt8 := 0x2b
abbrev minus : UInt8 := 0x2d
abbrev point : UInt8 := 0x2e
abbrev space : UInt8 := 0x20
abbrev tab : UInt8 := 0x09
abbrev newline : UInt8 := 0x0a
abbrev carriageReturn : UInt8 := 0x0d

end Ascii

/-- The four bytes that may stand around a value. -/
def isBlank (byte : UInt8) : Bool :=
  byte == Ascii.space || byte == Ascii.tab || byte == Ascii.newline || byte == Ascii.carriageReturn

def isDigit (byte : UInt8) : Bool := 0x30 ≤ byte && byte ≤ 0x39

def digitValue (byte : UInt8) : Nat := byte.toNat - 0x30

def digitByte (digit : Nat) : UInt8 := UInt8.ofNat (0x30 + digit)

/-- The number a run of digits writes, the first digit being the highest. -/
def digitsValue (digits : List UInt8) : Nat :=
  digits.foldl (fun value byte => 10 * value + digitValue byte) 0

/-- Whether the byte is the second or a later one of a character. -/
def continuesChar (byte : UInt8) : Bool := byte &&& 0xc0 == 0x80

namespace Bytes

def ofString (text : String) : Bytes := text.toUTF8.data.toList

/-- The text as a person reads it; bytes that are no text read as nothing. -/
def toText (bytes : Bytes) : String := (String.fromUTF8? bytes.toByteArray).getD ""

/-- Whether a cut may be made in front of these bytes. -/
def startsChar : Bytes → Bool
  | [] => true
  | byte :: _ => !continuesChar byte

/-- The first `length` bytes, or nothing when they are not all there or an end of them falls
inside a character. -/
def cut (ahead : Bytes) (length : Nat) : Bytes :=
  let taken := ahead.take length
  if startsChar ahead && startsChar (ahead.drop length) && taken.length == length then taken else []

def firstChar? (ahead : Bytes) : Option Char := (ahead.take 4).toByteArray.utf8DecodeChar? 0

def withoutBlankEnd (bytes : Bytes) : Bytes := (bytes.reverse.dropWhile isBlank).reverse

end Bytes

def decimal (n : Nat) : Bytes :=
  if n < 10 then [digitByte n] else decimal (n / 10) ++ [digitByte (n % 10)]

def decimalInt : Int → Bytes
  | .ofNat n => decimal n
  | .negSucc n => Ascii.minus :: decimal (n + 1)

end SchemaJson
