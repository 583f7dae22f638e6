import SchemaJson.Bytes

/-! The values of a TOML document, as far as a configuration looks at them. -/

namespace SchemaJson.Toml

inductive Value where
  | string (text : Bytes)
  | integer (value : Int)
  | float
  | bool (value : Bool)
  | dateTime
  | array (items : List Value)
  | table (entries : List (Bytes × Value))
  deriving Repr

abbrev Table := List (Bytes × Value)

def Table.get? (table : Table) (key : String) : Option Value :=
  table.lookup (Bytes.ofString key)

end SchemaJson.Toml
