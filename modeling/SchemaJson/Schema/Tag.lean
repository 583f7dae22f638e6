import SchemaJson.Number.Kind

/-! The types a member can be declared with. -/

namespace SchemaJson

/-- Whether a number stands between quotes in a document. -/
inductive Quoting where
  | never
  /-- With or without quotes when read, without when written. -/
  | maybe
  | always
  deriving DecidableEq, Repr

inductive Category where
  | number | bool | string | date | record | array
  deriving DecidableEq, Repr

def Category.name : Category → String
  | number => "number"
  | bool => "bool"
  | string => "string"
  | date => "date"
  | record => "class"
  | array => "array"

inductive Tag where
  | number (kind : NumberKind) (quoting : Quoting)
  | bool
  | string
  | date
  /-- A class, by the full name of its type. -/
  | record (typeName : String)
  | array (element : Tag)
  deriving DecidableEq, Inhabited, Repr

namespace Tag

def category : Tag → Category
  | number .. => .number
  | bool => .bool
  | string => .string
  | date => .date
  | record _ => .record
  | array _ => .array

def describe : Tag → String
  | number kind _ => "number(" ++ kind.name ++ ")"
  | record typeName => "class(" ++ typeName ++ ")"
  | array element => "array<" ++ element.describe ++ ">"
  | bool => Category.bool.name
  | string => Category.string.name
  | date => Category.date.name

def isQuotedNumber : Tag → Bool
  | number _ .always => true
  | _ => false

end Tag

end SchemaJson
