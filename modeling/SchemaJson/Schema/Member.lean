import SchemaJson.Bytes
import SchemaJson.Schema.Tag

/-! Declared members, and the table that finds them by name. -/

namespace SchemaJson

structure Member where
  name : Bytes
  tag : Tag
  /-- Whether the member may be absent or `null`. -/
  nullable : Bool
  deriving DecidableEq, Repr

namespace Member

def ofString (name : String) (tag : Tag) : Member := ⟨Bytes.ofString name, tag, false⟩

/-- Only numbers can stand between quotes; any other member stays as it is. -/
def withQuoting (member : Member) (quoting : Quoting) : Member :=
  match member.tag with
  | .number kind _ => { member with tag := .number kind quoting }
  | _ => member

def asNullable (member : Member) : Member := { member with nullable := true }

end Member

/-- Declared members. The position of a member is its index. -/
structure MemberTable where
  members : List Member
  deriving DecidableEq, Repr

namespace MemberTable

def size (table : MemberTable) : Nat := table.members.length

def find? (table : MemberTable) (name : Bytes) : Option Nat :=
  table.members.findIdx? fun member => member.name == name

def get? (table : MemberTable) (position : Nat) : Option Member := table.members[position]?

/-- The names that were seen before they come. -/
def repeatedAfter (seen : List Bytes) : List Bytes → List Bytes
  | [] => []
  | name :: names =>
    if seen.contains name then name :: repeatedAfter seen names
    else repeatedAfter (name :: seen) names

/-- The name of every member that follows another one of the same name. -/
def repeatedNames (table : MemberTable) : List Bytes :=
  repeatedAfter [] (table.members.map Member.name)

end MemberTable

end SchemaJson
