import SchemaJson.Bytes
import SchemaJson.Date.Instant
import SchemaJson.Number.Kind

/-! The values that decoding builds and encoding writes. -/

namespace SchemaJson

inductive ScalarType where
  | number (kind : NumberKind)
  | bool
  | text
  | date
  deriving DecidableEq, Inhabited, Repr

/-- A value without parts. A floating-point number is its bits; a text keeps its escapes. -/
inductive Scalar where
  | integer (kind : IntegerKind) (value : Int)
  | float (format : FloatFormat) (bits : Nat)
  | bool (value : Bool)
  | text (content : Bytes)
  | date (instant : Instant)
  deriving DecidableEq, Inhabited, Repr

namespace Scalar

def type : Scalar → ScalarType
  | integer kind _ => .number (.integer kind)
  | float format _ => .number (.float format)
  | bool _ => .bool
  | text _ => .text
  | date _ => .date

/-- Whether the payload is one the type has: an integer in range, bits of the format's width. -/
def InRange : Scalar → Prop
  | integer kind value => kind.holds value = true
  | float format bits => bits < Nat.pow 2 format.bits
  | _ => True

end Scalar

/-- A type whose values are empty or hold one value, by the name of the type constructor. -/
structure Wrapper where
  typeName : String
  deriving DecidableEq, Repr

def Wrapper.option : Wrapper := ⟨"core::option::Option"⟩

inductive Value where
  | scalar (content : Scalar)
  | absent (wrapper : Wrapper)
  | present (wrapper : Wrapper) (content : Value)
  | list (items : List Value)
  /-- A class value: the name of its type and the arguments it was constructed from. -/
  | record (typeName : String) (stored : List Value)
  deriving BEq, Inhabited, Repr

namespace Value

/-- An absent value is left out of the object it is a member of. -/
def isAbsent : Value → Bool
  | absent _ => true
  | _ => false

end Value

end SchemaJson
