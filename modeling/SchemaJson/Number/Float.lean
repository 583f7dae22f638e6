import SchemaJson.Number.Kind

/-! Binary floating-point numbers as their bits. A finite number is a sign and an exact value
`m * 2 ^ q`; a quotient of natural numbers rounds to the nearest value, a tie to the even one. -/

namespace SchemaJson

structure BinaryValue where
  mantissa : Nat
  scale : Int
  deriving DecidableEq, Repr

namespace FloatFormat

def isNegative (format : FloatFormat) (bits : Nat) : Bool := bits.testBit (format.bits - 1)

def exponentField (format : FloatFormat) (bits : Nat) : Nat :=
  bits / Nat.pow 2 (format.precision - 1) % (format.topExponent + 1)

def fractionField (format : FloatFormat) (bits : Nat) : Nat :=
  bits % Nat.pow 2 (format.precision - 1)

def isFinite (format : FloatFormat) (bits : Nat) : Bool :=
  format.exponentField bits != format.topExponent

def isInfinite (format : FloatFormat) (bits : Nat) : Bool :=
  !format.isFinite bits && format.fractionField bits == 0

/-- The exact value of finite bits, their sign aside. -/
def magnitude (format : FloatFormat) (bits : Nat) : BinaryValue :=
  match format.exponentField bits with
  | 0 => ⟨format.fractionField bits, format.leastScale⟩
  | exponent + 1 =>
    ⟨Nat.pow 2 (format.precision - 1) + format.fractionField bits, format.leastScale + exponent⟩

def signBit (format : FloatFormat) (negative : Bool) : Nat :=
  if negative then Nat.pow 2 (format.bits - 1) else 0

end FloatFormat

def roundHalfEven (num den : Nat) : Nat :=
  let quotient := num / den
  let twice := 2 * (num % den)
  if twice < den ∨ (twice = den ∧ quotient % 2 = 0) then quotient else quotient + 1

def scaledDown (num den : Nat) (scale : Int) : Nat × Nat :=
  match scale with
  | .ofNat n => (num, den * Nat.pow 2 n)
  | .negSucc n => (num * Nat.pow 2 (n + 1), den)

namespace FloatFormat

/-- The scale at which a positive quotient has as many bits as the format keeps, or the least
scale for a quotient too small to have them. -/
def scaleOf (format : FloatFormat) (num den : Nat) : Int :=
  let low : Int := (num.log2 : Int) - den.log2 - format.precision
  let (n, d) := scaledDown num den low
  max format.leastScale (if n < d * Nat.pow 2 format.precision then low else low + 1)

/-- The bits nearest to a positive quotient, or nothing when it is beyond every finite value. -/
def ofQuotient (format : FloatFormat) (num den : Nat) : Option Nat :=
  let scale := format.scaleOf num den
  let (n, d) := scaledDown num den scale
  let unit := Nat.pow 2 (format.precision - 1)
  let bits := (scale - format.leastScale).toNat * unit + roundHalfEven n d
  if bits < format.topExponent * unit then some bits else none

end FloatFormat

end SchemaJson
