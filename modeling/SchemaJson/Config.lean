import SchemaJson.Error

/-! Options of decoding and encoding, and which of them a configuration may ask for. -/

namespace SchemaJson

structure ReadOptions where
  /-- Levels that classes and arrays may lie below the root. -/
  maxDepth : Nat := 128
  allowTrailing : Bool := false
  deriving DecidableEq, Repr

structure WriteOptions where
  /-- Whether every element and member starts a line. -/
  pretty : Bool := false
  /-- Blanks in front of a line for each level. -/
  indent : Nat := 2
  maxDepth : Nat := 128
  deriving DecidableEq, Repr

structure Config where
  decode : ReadOptions := {}
  encode : WriteOptions := {}
  deriving DecidableEq, Repr

namespace Config

def greatestIndent : Nat := 16

def greatestDepth : Nat := 1024

def depthFault? (key : String) (depth : Nat) : Option ConfigFault :=
  if depth = 0 then some (.belowOne key)
  else if greatestDepth < depth then some (.aboveLimit key greatestDepth depth)
  else none

def indentFault? (indent : Nat) : Option ConfigFault :=
  if greatestIndent < indent then some (.aboveLimit "encode.indent" greatestIndent indent) else none

def fault? (config : Config) : Option ConfigFault :=
  depthFault? "decode.max_depth" config.decode.maxDepth
    <|> depthFault? "encode.max_depth" config.encode.maxDepth
    <|> indentFault? config.encode.indent

def usable (config : Config) : Except Error Config :=
  match config.fault? with
  | some fault => .error (.config fault)
  | none => .ok config

end Config

end SchemaJson
