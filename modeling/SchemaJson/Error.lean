import SchemaJson.Bytes
import SchemaJson.Text.Quoted

/-! Why declaring, decoding or encoding fails. Each cause carries what its message needs, and a
failure in a document carries the offset in the whole document. -/

namespace SchemaJson

/-- What stands where the opening quote of a member name should. -/
inductive NameFault where
  | lowerCase | digit | newline | space | colon | tab | comma | noOpeningQuote
  /-- The name is there, the colon after it is not. -/
  | missingColon
  deriving DecidableEq, Repr

namespace NameFault

def ofByte (byte : UInt8) : NameFault :=
  if 0x61 ≤ byte ∧ byte ≤ 0x7a then lowerCase
  else if isDigit byte then digit
  else if byte = Ascii.newline then newline
  else if byte = Ascii.space then space
  else if byte = Ascii.colon then colon
  else if byte = Ascii.tab then tab
  else if byte = Ascii.comma then comma
  else noOpeningQuote

def label : NameFault → String
  | lowerCase => "unquoted lower-case letter"
  | digit => "unquoted digit"
  | newline => "newline"
  | space => "space"
  | colon => "colon"
  | tab => "tab"
  | comma => "comma"
  | noOpeningQuote => "no opening quote"
  | missingColon => "missing ':' after name"

end NameFault

inductive StructureFault where
  | unterminatedString | unterminatedArray | unterminatedObject
  /-- The text ended after a value. -/
  | missingSeparator
  | unexpectedCharacter (found : Char)
  | mismatchedClose (found : Char)
  /-- The text ended in front of a value. -/
  | unexpectedEnd
  | depthExceeded (limit : Nat)
  | trailingCharacters
  deriving DecidableEq, Repr

def depthExceededText (limit : Nat) : String := s!"nesting exceeds maximum depth of {limit}"

def StructureFault.label : StructureFault → String
  | unterminatedString => "unterminated string"
  | unterminatedArray => "unterminated array"
  | unterminatedObject => "unterminated object"
  | missingSeparator => "expected ',', '\x7d' or ']' before end of input"
  | unexpectedCharacter found => "unexpected character " ++ Text.quotedChar found
  | mismatchedClose found => "mismatched closing " ++ Text.quotedChar found
  | unexpectedEnd => "unexpected end of input"
  | depthExceeded limit => depthExceededText limit
  | trailingCharacters => "trailing characters after value"

inductive BindingFault where
  | argumentCount (members arguments : Nat)
  | argumentType (member : Bytes) (nullable : Bool) (declared : String) (position : Nat)
      (argument : String)
  | stated (reason : String)
  deriving DecidableEq, Repr

def BindingFault.message : BindingFault → String
  | argumentCount members arguments =>
    s!"{members} members declared but the constructor takes {arguments} arguments"
  | argumentType member nullable declared position argument =>
    "member '" ++ member.toText ++ "' declared as " ++ (if nullable then "nullable " else "")
      ++ declared ++ s!" cannot build argument {position} of type " ++ argument
  | stated reason => reason

inductive EncodeFault where
  | notFinite (text : String)
  | depthExceeded (limit : Nat)
  | memberCount (typeName : String) (produced declared : Nat)
  | absentMember (typeName : String) (member : Bytes)
  | stated (text : String)
  deriving DecidableEq, Repr

def EncodeFault.message : EncodeFault → String
  | notFinite text => "cannot encode non-finite number " ++ text
  | depthExceeded limit => depthExceededText limit
  | memberCount typeName produced declared =>
    s!"{typeName} produced {produced} member values for {declared} declared members"
  | absentMember typeName member =>
    typeName ++ " has no value for required member '" ++ member.toText ++ "'"
  | stated text => text

inductive ConfigFault where
  | unreadable
  | belowOne (key : String)
  | aboveLimit (key : String) (limit value : Nat)
  | stated (text : String)
  deriving DecidableEq, Repr

def ConfigFault.message : ConfigFault → String
  | unreadable => "Failed to parse config"
  | belowOne key => s!"{key} must be at least 1"
  | aboveLimit key limit value => s!"{key} must be at most {limit}, got {value}"
  | stated text => text

inductive BuildFault where
  | wrongField (argument field : String)
  | differentClass (argument : String)
  | tooFewFields
  | unknownClass (typeName : String)
  /-- Arrays never have elements of the type. -/
  | notAnElement (typeName : String)
  | stated (text : String)
  deriving DecidableEq, Repr

def BuildFault.message : BuildFault → String
  | wrongField argument field => s!"cannot build {argument} from a {field} value"
  | differentClass argument => s!"cannot build {argument} from a different class"
  | tooFewFields => "too few member values for constructor"
  | unknownClass typeName => s!"no class is named {typeName}"
  | notAnElement typeName => s!"{typeName} cannot be an array element"
  | stated text => text

inductive Error where
  | name (fault : NameFault) (offset : Nat)
  | structural (fault : StructureFault) (offset : Nat)
  /-- An object of the class does not start with its brace. -/
  | classStart (className : String) (offset : Nat)
  | missingMember (className : String) (member : Bytes)
  | binding (className : String) (fault : BindingFault)
  | invalidValue (member : Bytes) (expected : String) (text : Bytes) (offset : Nat)
  | encode (fault : EncodeFault)
  | config (fault : ConfigFault)
  | build (fault : BuildFault)
  deriving DecidableEq, Repr

namespace Error

def message : Error → String
  | name fault offset => s!"Malformed member name at offset {offset}: " ++ fault.label
  | structural fault offset => s!"Structural error at offset {offset}: " ++ fault.label
  | classStart className offset =>
    s!"Expected '\x7b' at offset {offset} to start class '" ++ className ++ "'"
  | missingMember className member =>
    "Missing required member '" ++ member.toText ++ "' of class '" ++ className ++ "'"
  | binding className fault =>
    "Cannot bind construction for '" ++ className ++ "': " ++ fault.message
  | invalidValue member expected text offset =>
    "Invalid " ++ expected ++ " value for member '" ++ member.toText
      ++ s!"' at offset {offset}: '" ++ text.toText ++ "'"
  | encode fault => "Encode error: " ++ fault.message
  | config fault => "Invalid configuration: " ++ fault.message
  | build fault => "Other error: " ++ fault.message

def offset? : Error → Option Nat
  | name _ offset | structural _ offset | classStart _ offset | invalidValue _ _ _ offset =>
    some offset
  | _ => none

def isBinding : Error → Bool
  | binding .. => true
  | _ => false

/-- What a log records of the error, by key. -/
def fields : Error → List (String × String)
  | name fault offset => [("kind", fault.label), ("offset", toString offset)]
  | structural fault offset => [("kind", fault.label), ("offset", toString offset)]
  | classStart className offset => [("class", className), ("offset", toString offset)]
  | missingMember className member => [("class", className), ("member", member.toText)]
  | binding className fault => [("class", className), ("reason", fault.message)]
  | invalidValue member expected text offset =>
    [("member", member.toText), ("expected", expected), ("text", text.toText),
      ("offset", toString offset)]
  | encode fault => [("message", fault.message)]
  | config fault => [("message", fault.message)]
  | build fault => [("message", fault.message)]

end Error

end SchemaJson
