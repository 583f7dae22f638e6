/-! The representations a number can be declared with: eight integer kinds and two binary
floating-point formats. -/

namespace SchemaJson

inductive IntegerKind where
  | i8 | i16 | i32 | i64 | u8 | u16 | u32 | u64
  deriving DecidableEq, Inhabited, Repr

namespace IntegerKind

def isSigned : IntegerKind → Bool
  | i8 | i16 | i32 | i64 => true
  | u8 | u16 | u32 | u64 => false

def bits : IntegerKind → Nat
  | i8 | u8 => 8
  | i16 | u16 => 16
  | i32 | u32 => 32
  | i64 | u64 => 64

def least (kind : IntegerKind) : Int :=
  if kind.isSigned then -(Nat.pow 2 (kind.bits - 1) : Int) else 0

def greatest (kind : IntegerKind) : Int :=
  (Nat.pow 2 (if kind.isSigned then kind.bits - 1 else kind.bits) : Int) - 1

def holds (kind : IntegerKind) (n : Int) : Bool :=
  kind.least ≤ n && n ≤ kind.greatest

def name : IntegerKind → String
  | i8 => "i8" | i16 => "i16" | i32 => "i32" | i64 => "i64"
  | u8 => "u8" | u16 => "u16" | u32 => "u32" | u64 => "u64"

end IntegerKind

/-- A binary floating-point format. A positive value is `m * 2 ^ q` where `m` has at most
`precision` bits and `q` is at least `leastScale`. -/
inductive FloatFormat where
  | single | double
  deriving DecidableEq, Inhabited, Repr

namespace FloatFormat

def precision : FloatFormat → Nat
  | single => 24
  | double => 53

def leastScale : FloatFormat → Int
  | single => -149
  | double => -1074

/-- The exponent field that infinities and not-a-numbers carry. -/
def topExponent : FloatFormat → Nat
  | single => 255
  | double => 2047

/-- Width of the whole representation. -/
def bits : FloatFormat → Nat
  | single => 32
  | double => 64

def name : FloatFormat → String
  | single => "f32"
  | double => "f64"

end FloatFormat

inductive NumberKind where
  | integer (kind : IntegerKind)
  | float (format : FloatFormat)
  deriving DecidableEq, Inhabited, Repr

namespace NumberKind

def isSigned : NumberKind → Bool
  | integer kind => kind.isSigned
  | float _ => false

def isUnsigned : NumberKind → Bool
  | integer kind => !kind.isSigned
  | float _ => false

def isFloat : NumberKind → Bool
  | integer _ => false
  | float _ => true

def bits : NumberKind → Nat
  | integer kind => kind.bits
  | float format => format.bits

def name : NumberKind → String
  | integer kind => kind.name
  | float format => format.name

end NumberKind

end SchemaJson
