import SchemaJson.Config
import SchemaJson.Toml.Document

/-! Configurations as TOML text. Keys that mean nothing here are passed over, missing ones keep
their defaults, and a list may stand for a table with its keys in order. -/

namespace SchemaJson.Config

open Toml

def natural? : Toml.Value → Option Nat
  | .integer n => if 0 ≤ n then some n.toNat else none
  | _ => none

def flag? : Toml.Value → Option Bool
  | .bool value => some value
  | _ => none

/-- A setting that keeps its default when it is not given. -/
def setting {α : Type} (read : Toml.Value → Option α) (given : Option Toml.Value) (default : α) :
    Option α :=
  match given with
  | none => some default
  | some value => read value

/-- What is given for a key, or for its place in a list. A date gives nothing. -/
def given? (settings : Option Toml.Value) (place : Nat) (key : String) :
    Option (Option Toml.Value) :=
  match settings with
  | none | some .dateTime => some none
  | some (.table table) => some (Table.get? table key)
  | some (.array items) => some items[place]?
  | some _ => none

def readOptions? (settings : Option Toml.Value) : Option ReadOptions := do
  let standard : ReadOptions := {}
  let maxDepth ← setting natural? (← given? settings 0 "max_depth") standard.maxDepth
  let allowTrailing ←
    setting flag? (← given? settings 1 "allow_trailing_content") standard.allowTrailing
  return ⟨maxDepth, allowTrailing⟩

def writeOptions? (settings : Option Toml.Value) : Option WriteOptions := do
  let standard : WriteOptions := {}
  let pretty ← setting flag? (← given? settings 0 "pretty") standard.pretty
  let indent ← setting natural? (← given? settings 1 "indent") standard.indent
  let maxDepth ← setting natural? (← given? settings 2 "max_depth") standard.maxDepth
  return ⟨pretty, indent, maxDepth⟩

def ofTable? (table : Table) : Option Config := do
  let decode ← readOptions? (table.get? "decode")
  let encode ← writeOptions? (table.get? "encode")
  return ⟨decode, encode⟩

def read (text : Bytes) : Except Error Config :=
  match (Toml.parse text).bind ofTable? with
  | none => .error (.config .unreadable)
  | some config => config.usable

end SchemaJson.Config
