import SchemaJson.Schema.Tag
import SchemaJson.Value

/-! The types of constructor arguments, and which declared members can fill them. -/

namespace SchemaJson

inductive ArgType where
  | scalar (type : ScalarType)
  | record (typeName : String)
  | growable (element : ArgType)
  | fixed (element : ArgType) (size : Nat)
  | nullable (wrapper : Wrapper) (content : ArgType)
  deriving DecidableEq, Inhabited, Repr

inductive Strategy where
  | scalar | record | sequence | fixedSequence | nullable
  deriving DecidableEq, Repr

def ScalarType.name : ScalarType → String
  | number kind => kind.name
  | bool => "bool"
  | text => "alloc::string::String"
  | date => "chrono::datetime::DateTime<chrono::offset::utc::Utc>"

def ScalarType.blank : ScalarType → Scalar
  | number (.integer kind) => .integer kind 0
  | number (.float format) => .float format 0
  | bool => .bool false
  | text => .text []
  | date => .date .epoch

/-- The type a tag declares, if its values have no parts. -/
def Tag.scalarType? : Tag → Option ScalarType
  | number kind _ => some (.number kind)
  | bool => some .bool
  | string => some .text
  | date => some .date
  | record _ | array _ => none

namespace ArgType

/-- The type's name as messages give it. -/
def name : ArgType → String
  | scalar type => type.name
  | record typeName => typeName
  | growable element => "alloc::vec::Vec<" ++ element.name ++ ">"
  | fixed element size => "[" ++ element.name ++ s!"; {size}]"
  | nullable wrapper content => wrapper.typeName ++ "<" ++ content.name ++ ">"

def strategy : ArgType → Strategy
  | scalar _ => .scalar
  | record _ => .record
  | growable _ => .sequence
  | fixed .. => .fixedSequence
  | nullable .. => .nullable

/-- Whether a member declared with that tag can fill the argument. A wrapper wants a nullable
member and every other type one that is not; the elements of an array are never nullable. -/
def accepts : ArgType → Tag → (isNullable : Bool) → Bool
  | scalar type, tag, isNullable => !isNullable && tag.scalarType? == some type
  | record typeName, .record declared, isNullable => !isNullable && declared == typeName
  | growable element, .array declared, isNullable => !isNullable && element.accepts declared false
  | fixed element _, .array declared, isNullable => !isNullable && element.accepts declared false
  | nullable _ content, tag, isNullable => isNullable && content.accepts tag false
  | _, _, _ => false

/-- The tag that elements of this type are decoded with. A wrapper has none. -/
def elementTag? : ArgType → Option Tag
  | scalar (.number kind) => some (.number kind .never)
  | scalar .bool => some .bool
  | scalar .text => some .string
  | scalar .date => some .date
  | record typeName => some (.record typeName)
  | growable element => element.elementTag?.map .array
  | fixed element _ => element.elementTag?.map .array
  | nullable .. => none

/-- Bytes that a value takes in memory, for types whose values all take the same. -/
def byteSize? : ArgType → Option Nat
  | scalar (.number kind) => some (kind.bits / 8)
  | scalar .bool => some 1
  | fixed element size => element.byteSize?.map (· * size)
  | _ => none

/-- The value at the places of a fixed sequence that no element reaches. -/
def blank (blankRecord : String → List Value) : ArgType → Value
  | scalar type => .scalar type.blank
  | record typeName => .record typeName (blankRecord typeName)
  | growable _ => .list []
  | fixed element size => .list (List.replicate size (element.blank blankRecord))
  | nullable wrapper _ => .absent wrapper

end ArgType

end SchemaJson
