import SchemaJson.Error
import SchemaJson.Schema.ArgType
import SchemaJson.Schema.Member

/-! Schemas: the members of a class bound to the arguments of its constructor. -/

namespace SchemaJson

inductive CallStyle where
  /-- A constructor is called with the arguments. -/
  | direct
  /-- The arguments become the fields in order. -/
  | aggregate
  deriving DecidableEq, Repr

def CallStyle.name : CallStyle → String
  | direct => "direct"
  | aggregate => "aggregate"

structure Signature where
  style : CallStyle
  arguments : List ArgType
  deriving DecidableEq, Repr

namespace Signature

def arity (signature : Signature) : Nat := signature.arguments.length

/-- The first argument that its member cannot fill. -/
def argumentFault? : (position : Nat) → List Member → List ArgType → Option BindingFault
  | position, member :: members, argument :: arguments =>
    if argument.accepts member.tag member.nullable then
      argumentFault? (position + 1) members arguments
    else some (.argumentType member.name member.nullable member.tag.describe position argument.name)
  | _, _, _ => none

def fault? (signature : Signature) (members : List Member) : Option BindingFault :=
  if members.length = signature.arity then argumentFault? 0 members signature.arguments
  else some (.argumentCount members.length signature.arity)

end Signature

structure Schema where
  className : String
  table : MemberTable
  signature : Signature
  deriving DecidableEq, Repr

def Schema.bind (className : String) (members : List Member) (signature : Signature) :
    Except Error Schema :=
  match signature.fault? members with
  | some fault => .error (.binding className fault)
  | none => .ok ⟨className, ⟨members⟩, signature⟩

/-- The last part of a type's path, without its parameters. -/
def shortName (typeName : String) : String :=
  let path := typeName.toList.takeWhile (· != '<')
  String.ofList (path.reverse.takeWhile (· != ':')).reverse

end SchemaJson
