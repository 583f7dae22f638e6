import SchemaJson.Bytes
import SchemaJson.Number.Kind

/-! Integers read from decimal text. Signed text is read into a 64-bit word that wraps; unsigned
text must fit its word. -/

namespace SchemaJson

/-- How far a text has been read as a signed integer. -/
structure SignedReader where
  /-- The number of the digits so far, wrapped around. -/
  word : Int64
  /-- Bytes of the sign and the digits. -/
  taken : Nat
  negative : Bool
  digits : Nat
  deriving DecidableEq, Repr

namespace SignedReader

def start : SignedReader := ⟨0, 0, false, 0⟩

/-- Takes one byte more. A sign is taken in front of everything else only, and any other byte but a
digit is not taken. -/
def step (reader : SignedReader) (byte : UInt8) : Option SignedReader :=
  if isDigit byte then
    some { reader with
      word := reader.word * 10 + Int64.ofNat (digitValue byte)
      taken := reader.taken + 1
      digits := reader.digits + 1 }
  else if byte = Ascii.minus then
    if reader.taken = 0 then some { reader with negative := true, taken := 1 } else none
  else if byte = Ascii.plus then
    if reader.taken = 0 then some { reader with taken := 1 } else none
  else none

/-- Takes bytes up to the first one that is not taken. -/
def run : SignedReader → Bytes → SignedReader
  | reader, [] => reader
  | reader, byte :: rest =>
    match reader.step byte with
    | some reader => run reader rest
    | none => reader

end SignedReader

/-- What stands at the front of a text that may start with a signed integer. -/
structure SignedPrefix where
  value : Int64
  /-- Bytes of the sign and the digits. -/
  length : Nat
  digits : Nat
  deriving DecidableEq, Repr

/-- Reads as far as it goes. The sign counts only once all digits are taken. -/
def SignedPrefix.read (text : Bytes) : SignedPrefix :=
  let reader := SignedReader.start.run text
  { value := if reader.negative then -reader.word else reader.word
    length := reader.taken
    digits := reader.digits }

/-- A text that is nothing but an optional sign and at least one digit. -/
def readSigned (text : Bytes) : Option Int64 :=
  let number := SignedPrefix.read text
  if 0 < number.digits ∧ number.length = text.length then some number.value else none

def withoutPlus : Bytes → Bytes
  | [] => []
  | byte :: rest => if byte == Ascii.plus then rest else byte :: rest

def readUnsigned (text : Bytes) : Option Nat :=
  let digits := withoutPlus text
  if digits ≠ [] ∧ digits.all isDigit ∧ digitsValue digits < UInt64.size then
    some (digitsValue digits)
  else none

def IntegerKind.read (kind : IntegerKind) (text : Bytes) : Option Int := do
  let n ←
    if kind.isSigned then (readSigned text).map Int64.toInt else (readUnsigned text).map Int.ofNat
  if kind.holds n then some n else none

end SchemaJson
