import SchemaJson.Date.Text
import SchemaJson.Json.Field
import SchemaJson.Number.Shortest
import SchemaJson.Schema.Basic
import SchemaJson.Text.Quoted

/-! Fields and schemas written out for a reader: every constructor by name, texts in quotes. -/

namespace SchemaJson

namespace Dump

def positional (name : String) (parts : List String) : String :=
  name ++ "(" ++ ", ".intercalate parts ++ ")"

def labelled (name : String) (parts : List (String × String)) : String :=
  name ++ " \x7b " ++ ", ".intercalate (parts.map fun part => part.1 ++ ": " ++ part.2) ++ " \x7d"

def list (items : List String) : String := "[" ++ ", ".intercalate items ++ "]"

def bool (value : Bool) : String := if value then "true" else "false"

def bytes (text : Bytes) : String := Text.quotedText text.toText

end Dump

namespace IntegerKind

def dump : IntegerKind → String
  | i8 => "Int8" | i16 => "Int16" | i32 => "Int32" | i64 => "Int64"
  | u8 => "UInt8" | u16 => "UInt16" | u32 => "UInt32" | u64 => "UInt64"

end IntegerKind

namespace FloatFormat

def dump : FloatFormat → String
  | single => "Float32"
  | double => "Float64"

def dumpBits (format : FloatFormat) (bits : Nat) : String :=
  if format.isFinite bits then Bytes.toText (FloatLayout.shown.write format bits)
  else if format.isInfinite bits then if format.isNegative bits then "-inf" else "inf"
  else "NaN"

end FloatFormat

def NumberKind.dump : NumberKind → String
  | integer kind => kind.dump
  | float format => format.dump

def Scalar.dump : Scalar → String
  | integer kind value => Dump.positional kind.dump [toString value]
  | float format bits => Dump.positional format.dump [format.dumpBits bits]
  | bool value => Dump.positional "Bool" [Dump.bool value]
  | text content => Dump.positional "String" [Dump.bytes content]
  | date instant => Dump.positional "Date" [instant.write.toText]

def Field.dump : Field → String
  | null => "Null"
  | scalar content => content.dump
  | array view => Dump.positional "Array" [Dump.bytes view.span.text]
  | record .. => "Class(..)"

def Quoting.dump : Quoting → String
  | never => "Never"
  | maybe => "Maybe"
  | always => "Always"

def Tag.dump : Tag → String
  | number kind quoting =>
    Dump.labelled "Number" [("kind", kind.dump), ("literal", quoting.dump)]
  | bool => "Bool"
  | string => "String"
  | date => "Date"
  | record typeName =>
    Dump.positional "Class" [Dump.positional "ClassRef" [Text.quotedText typeName]]
  | array element => Dump.positional "Array" [element.dump]

def Member.dump (member : Member) (position : Nat) : String :=
  Dump.labelled "MemberDescriptor" [("name", Dump.bytes member.name), ("tag", member.tag.dump),
    ("nullable", Dump.bool member.nullable), ("position", toString position)]

def MemberTable.dump (table : MemberTable) : String :=
  Dump.labelled "NameTable"
    [("descriptors", Dump.list (table.members.zipIdx.map fun entry => entry.1.dump entry.2))]

def CallStyle.dump : CallStyle → String
  | direct => "Direct"
  | aggregate => "Aggregate"

/-- How the constructor is called stays out of sight. -/
def Signature.dump (signature : Signature) : String :=
  "Construction \x7b kind: " ++ signature.style.dump ++ ", arity: " ++ toString signature.arity
    ++ ", .. \x7d"

def Schema.dump (schema : Schema) : String :=
  Dump.labelled "Schema" [("class_name", Text.quotedText schema.className),
    ("table", schema.table.dump), ("construction", schema.signature.dump)]

end SchemaJson
