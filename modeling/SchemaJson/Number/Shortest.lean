import SchemaJson.Bytes
import SchemaJson.Number.Float

/-! The shortest decimal digits that read back as a given floating-point value, the nearest of them
to the value, and the ways to break ties and to lay the digits out. -/

namespace SchemaJson

/-- A positive decimal number `digits * 10 ^ exponent`. -/
structure ShortDecimal where
  digits : Nat
  exponent : Int
  deriving DecidableEq, Repr

namespace ShortDecimal

def quotient (number : ShortDecimal) : Nat × Nat :=
  match number.exponent with
  | .ofNat n => (number.digits * Nat.pow 10 n, 1)
  | .negSucc n => (number.digits, Nat.pow 10 (n + 1))

def readsAs (format : FloatFormat) (bits : Nat) (number : ShortDecimal) : Bool :=
  let (num, den) := number.quotient
  number.digits != 0 && format.ofQuotient num den == some bits

end ShortDecimal

namespace BinaryValue

def quotient (value : BinaryValue) : Nat × Nat :=
  match value.scale with
  | .ofNat n => (value.mantissa * Nat.pow 2 n, 1)
  | .negSucc n => (value.mantissa, Nat.pow 2 (n + 1))

def exact (value : BinaryValue) : ShortDecimal :=
  match value.scale with
  | .ofNat n => ⟨value.mantissa * Nat.pow 2 n, 0⟩
  | .negSucc n => ⟨value.mantissa * Nat.pow 5 (n + 1), .negSucc n⟩

/-- The value's place on the grid of the multiples of `10 ^ exponent`: the multiple below it, and
what is left as a quotient of the grid's step. -/
def place (value : BinaryValue) (exponent : Int) : Nat × Nat × Nat :=
  let (num, den) := value.quotient
  let (num, den) := match exponent with
    | .ofNat n => (num, den * Nat.pow 10 n)
    | .negSucc n => (num * Nat.pow 10 (n + 1), den)
  (num / den, num % den, den)

end BinaryValue

/-- Which of two decimals that are equally near to a value is taken. -/
inductive Tie where
  | toEven
  | up
  deriving DecidableEq, Repr

/-- Whether the lower one of `digits` and `digits + 1` is taken. -/
def Tie.takesLower : Tie → (digits : Nat) → Bool
  | toEven, digits => digits % 2 == 0
  | up, _ => false

namespace FloatFormat

/-- The multiple of `10 ^ exponent` that reads as `bits`: of the two around the value the nearer
one, and of two equally near ones the one that `tie` takes. -/
def onGrid? (format : FloatFormat) (tie : Tie) (bits : Nat) (exponent : Int) :
    Option ShortDecimal :=
  let (below, rest, step) := (format.magnitude bits).place exponent
  let low : ShortDecimal := ⟨below, exponent⟩
  let high : ShortDecimal := ⟨below + 1, exponent⟩
  let lowFirst := 2 * rest < step || (2 * rest == step && tie.takesLower below)
  let (first, second) := if lowFirst then (low, high) else (high, low)
  if first.readsAs format bits then some first
  else if second.readsAs format bits then some second
  else none

/-- The first hit on `count` grids, each ten times finer than the one before. -/
def coarsest? (format : FloatFormat) (tie : Tie) (bits : Nat) :
    (count : Nat) → (exponent : Int) → Option ShortDecimal
  | 0, _ => none
  | count + 1, exponent =>
    match format.onGrid? tie bits exponent with
    | some number => some number
    | none => format.coarsest? tie bits count (exponent - 1)

/-- An exponent whose power of ten is above the value. -/
def ceilingExponent (format : FloatFormat) (bits : Nat) : Int :=
  let value := format.magnitude bits
  ((value.mantissa.log2 : Int) + value.scale) * 30103 / 100000 + 2

def shortest (format : FloatFormat) (tie : Tie) (bits : Nat) : ShortDecimal :=
  (format.coarsest? tie bits 20 (format.ceilingExponent bits)).getD (format.magnitude bits).exact

end FloatFormat

/-- How the digits of a floating-point number are chosen and laid out. -/
structure FloatLayout where
  tie : Tie
  /-- Most digits in front of the point before an exponent is used. -/
  mostWhole : Int
  /-- Most zeros between the point and the first digit before an exponent is used. -/
  mostZeros : Int
  deriving DecidableEq, Repr

namespace FloatLayout

def zeros (count : Int) : Bytes := List.replicate count.toNat 0x30

/-- One digit, a point and the other digits if there are any, and the exponent. -/
def scientific (digits : Bytes) (exponent : Int) : Bytes :=
  match digits with
  | [] => []
  | [digit] => digit :: 0x65 :: decimalInt exponent
  | digit :: rest => digit :: Ascii.point :: rest ++ 0x65 :: decimalInt exponent

/-- Digits whose last one counts units of `10 ^ exponent`. -/
def place (layout : FloatLayout) (digits : Bytes) (exponent : Int) : Bytes :=
  let whole := digits.length + exponent
  if 0 ≤ exponent ∧ whole ≤ layout.mostWhole then digits ++ zeros exponent ++ [Ascii.point, 0x30]
  else if 0 < whole ∧ whole ≤ layout.mostWhole then
    digits.take whole.toNat ++ Ascii.point :: digits.drop whole.toNat
  else if whole ≤ 0 ∧ -whole ≤ layout.mostZeros then
    0x30 :: Ascii.point :: zeros (-whole) ++ digits
  else scientific digits (whole - 1)

def write (layout : FloatLayout) (format : FloatFormat) (bits : Nat) : Bytes :=
  let magnitude := bits % Nat.pow 2 (format.bits - 1)
  let text :=
    if magnitude = 0 then [0x30, Ascii.point, 0x30]
    else
      let number := format.shortest layout.tie magnitude
      layout.place (decimal number.digits) number.exponent
  if format.isNegative bits then Ascii.minus :: text else text

end FloatLayout

/-- A number in a document is positional up to sixteen digits in front of the point, thirteen in
the single format, and down to four zeros after it, five in the single format. A tie goes to the
even digit. -/
def FloatFormat.documentLayout : FloatFormat → FloatLayout
  | .single => ⟨.toEven, 13, 5⟩
  | .double => ⟨.toEven, 16, 4⟩

/-- A number shown to a reader is positional from `1e-4` to below `1e16`. A tie goes up. -/
def FloatLayout.shown : FloatLayout := ⟨.up, 16, 3⟩

end SchemaJson
