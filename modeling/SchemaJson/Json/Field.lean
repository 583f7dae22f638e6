import SchemaJson.Error
import SchemaJson.Json.Cursor
import SchemaJson.Schema.Tag
import SchemaJson.Value

/-! What a member's text decodes to before its argument is built from it. Arrays stay text until
their elements are asked for. -/

namespace SchemaJson

/-- How deep a value lies below the root, and how deep one may lie. -/
structure Context where
  depth : Nat
  maxDepth : Nat
  deriving DecidableEq, Repr

namespace Context

def root (maxDepth : Nat) : Context := ⟨0, maxDepth⟩

/-- One level further down, for a value at that offset. -/
def deeper (context : Context) (offset : Nat) : Except Error Context :=
  if context.depth < context.maxDepth then .ok { context with depth := context.depth + 1 }
  else .error (.structural (.depthExceeded context.maxDepth) offset)

end Context

/-- An array whose elements are still to be decoded. -/
structure ArrayView where
  span : Span
  element : Tag
  /-- Names the array when an element is invalid. -/
  label : Bytes
  context : Context
  deriving DecidableEq, Repr

inductive Field where
  | null
  | scalar (content : Scalar)
  | array (view : ArrayView)
  | record (typeName : String) (stored : List Value)
  deriving Repr

namespace Field

def typeName : Field → String
  | null => "null"
  | scalar (.integer kind _) => kind.name
  | scalar (.float format _) => format.name
  | scalar (.bool _) => "bool"
  | scalar (.text _) => "string"
  | scalar (.date _) => "date"
  | array _ => "array"
  | record .. => "class"

def isNull : Field → Bool
  | null => true
  | _ => false

def numberKind? : Field → Option NumberKind
  | scalar (.integer kind _) => some (.integer kind)
  | scalar (.float format _) => some (.float format)
  | _ => none

end Field

end SchemaJson
