import SchemaJson.Bytes
import SchemaJson.Number.Float

/-! Floating-point numbers read from decimal text: an optional sign, digits with at most one point
among them, and an optional exponent. The nearest value is taken, and it must be finite. -/

namespace SchemaJson

/-- A decimal number `digits * 10 ^ exponent` with its sign. -/
structure DecimalNumber where
  negative : Bool
  digits : Bytes
  exponent : Int
  deriving DecidableEq, Repr

namespace DecimalNumber

/-- A sign in front of a number or an exponent. -/
def sign : Bytes → Bool × Bytes
  | [] => (false, [])
  | byte :: rest =>
    if byte == Ascii.minus then (true, rest)
    else if byte == Ascii.plus then (false, rest)
    else (false, byte :: rest)

/-- The digits after the point, and what follows them. -/
def fraction : Bytes → Bytes × Bytes
  | [] => ([], [])
  | byte :: rest =>
    if byte == Ascii.point then (rest.takeWhile isDigit, rest.dropWhile isDigit)
    else ([], byte :: rest)

def exponentOf : Bytes → Option Int
  | [] => some 0
  | byte :: rest =>
    if byte == 0x65 || byte == 0x45 then
      let (negative, digits) := sign rest
      if digits ≠ [] ∧ digits.all isDigit then
        some (if negative then -(digitsValue digits : Int) else digitsValue digits)
      else none
    else none

def read (text : Bytes) : Option DecimalNumber := do
  let (negative, unsigned) := sign text
  let whole := unsigned.takeWhile isDigit
  let (fraction, rest) := fraction (unsigned.dropWhile isDigit)
  let exponent ← exponentOf rest
  if whole ++ fraction = [] then none
  else some ⟨negative, whole ++ fraction, exponent - fraction.length⟩

/-- Powers of ten past this one are above every finite value, and their inverses are below half
of the least positive one. -/
def reach : Nat := 400

/-- The bits nearest to the number without its sign. -/
def magnitudeBits (format : FloatFormat) (number : DecimalNumber) : Option Nat :=
  let value := digitsValue number.digits
  if value = 0 then some 0
  else if number.exponent + number.digits.length < -(reach : Int) then some 0
  else match number.exponent with
    | .ofNat n => if reach < n then none else format.ofQuotient (value * Nat.pow 10 n) 1
    | .negSucc n => format.ofQuotient value (Nat.pow 10 (n + 1))

end DecimalNumber

def FloatFormat.read (format : FloatFormat) (text : Bytes) : Option Nat := do
  let number ← DecimalNumber.read text
  let bits ← number.magnitudeBits format
  return format.signBit number.negative + bits

end SchemaJson
