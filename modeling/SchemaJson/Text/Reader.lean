import SchemaJson.Bytes

/-! Readers of the front of a text. A reader that fails leaves nothing behind. -/

namespace SchemaJson

/-- Gives what stands at the front of a text and the text that follows. -/
abbrev Reader (α : Type) := StateT Bytes Option α

namespace Reader

def one (byte : UInt8) : Reader Unit := fun text =>
  match text with
  | first :: rest => if first = byte then some ((), rest) else none
  | [] => none

def number (least most : Nat) : Reader Nat := fun text =>
  let digits := (text.take most).takeWhile isDigit
  if least ≤ digits.length then some (digitsValue digits, text.drop digits.length) else none

def oneOf (bytes : List UInt8) : Reader Unit := fun text =>
  match text with
  | first :: rest => if bytes.contains first then some ((), rest) else none
  | [] => none

/-- The whole text must be read. -/
def all {α : Type} (reader : Reader α) (text : Bytes) : Option α :=
  match reader text with
  | some (a, []) => some a
  | _ => none

end Reader

end SchemaJson
