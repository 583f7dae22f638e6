import SchemaJson.Schema.Basic

/-! Classes by the names of their types. -/

namespace SchemaJson

/-- A declared class. Its values store the arguments they were constructed from. -/
structure ClassDecl where
  typeName : String
  members : List Member
  signature : Signature
  /-- Positions of the stored arguments that are written as member values, in member order. -/
  memberValues : List Nat
  /-- The stored arguments of the class's blank value. -/
  blank : List Value

namespace ClassDecl

def bind (decl : ClassDecl) : Except Error Schema :=
  Schema.bind (shortName decl.typeName) decl.members decl.signature

end ClassDecl

structure Catalog where
  classes : List ClassDecl

namespace Catalog

def find? (catalog : Catalog) (typeName : String) : Option ClassDecl :=
  catalog.classes.find? fun decl => decl.typeName == typeName

def blank (catalog : Catalog) (typeName : String) : List Value :=
  ((catalog.find? typeName).map ClassDecl.blank).getD []

/-- The schema of a class, bound when it is asked for. -/
def schema (catalog : Catalog) (typeName : String) : Except Error Schema :=
  match catalog.find? typeName with
  | some decl => decl.bind
  | none => .error (.build (.unknownClass typeName))

end Catalog

end SchemaJson
