import SchemaJson.Proofs.BoundClasses
import SchemaJson.Proofs.JsonTexts

/-! The decoder that reads a whole tree: it looks members up by name and descends by the declared
types, with one level fewer for every class and array below the root. -/

namespace SchemaJson

namespace Tree

/-- The raw text of a tree without parts, as a span without a place. -/
def leaf? : Tree → Option Span
  | string raw => some ⟨raw, 0, .string⟩
  | literal raw => some ⟨raw, 0, .literal⟩
  | _ => none

def isNull (tree : Tree) : Bool := (tree.leaf?.map Span.isNull).getD false

/-- The argument that a member's tree fills. A wrapper is empty where there is no tree or `null`. -/
def readArgument (read : ArgType → Tag → Tree → Option Value) (tag : Tag) :
    ArgType → Option Tree → Option Value
  | .nullable wrapper _, none => some (.absent wrapper)
  | .nullable wrapper content, some tree =>
    if tree.isNull then some (.absent wrapper)
    else (read content tag tree).map (.present wrapper)
  | _, none => none
  | type, some tree => read type tag tree

theorem readArgument_of_accepts {read : ArgType → Tag → Tree → Option Value} {tag : Tag}
    {type : ArgType} (h : type.accepts tag false = true) (tree : Option Tree) :
    readArgument read tag type tree = tree.bind (read type tag) := by
  cases type with
  | nullable wrapper content => cases (ArgType.accepts_nullable.mp h).1
  | _ => cases tree <;> rfl

/-- The arguments that the members of an object fill. A member takes the last tree of its name,
and none if an earlier declaration has the name. -/
def readArguments (read : ArgType → Tag → Tree → Option Value) (trees : List (Bytes × Tree)) :
    (used : List Bytes) → List Member → List ArgType → Option (List Value)
  | used, member :: members, type :: types => do
    let tree := if used.contains member.name then none else trees.reverse.lookup member.name
    let value ← readArgument read member.tag type tree
    return value :: (← readArguments read trees (member.name :: used) members types)
  | _, _, _ => some []

end Tree

namespace Catalog

/-- The class value that an object tree holds. -/
def readRecord (catalog : Catalog) (read : ArgType → Tag → Tree → Option Value)
    (typeName : String) : Tree → Option Value
  | .object trees => do
    let schema ← (catalog.schema typeName).toOption
    let stored ← Tree.readArguments read trees [] schema.table.members schema.signature.arguments
    return .record typeName stored
  | _ => none

/-- The argument of the type that a tree declared with the tag holds, with so many levels left. -/
def readTree (catalog : Catalog) : (levels : Nat) → ArgType → Tag → Tree → Option Value
  | _, .scalar _, tag, tree => do
    let leaf ← tree.leaf?
    return .scalar (← leaf.scalar? tag)
  | levels + 1, .record typeName, _, tree =>
    catalog.readRecord (catalog.readTree levels) typeName tree
  | levels + 1, .growable element, .array tag, .array items => do
    return .list (← items.mapM (catalog.readTree levels element tag))
  | levels + 1, .fixed element size, .array tag, .array items => do
    let list ← (items.take size).mapM (catalog.readTree levels element tag)
    return .list (list ++ List.replicate (size - list.length) (element.blank catalog.blank))
  | _, _, _, _ => none

theorem readTree_scalar (catalog : Catalog) (levels : Nat) (type : ScalarType) (tag : Tag)
    (tree : Tree) : catalog.readTree levels (.scalar type) tag tree
      = (tree.leaf?.bind fun leaf => leaf.scalar? tag).map Value.scalar := by
  have hread : catalog.readTree levels (.scalar type) tag tree
      = tree.leaf?.bind fun leaf => (leaf.scalar? tag).bind fun scalar => some (.scalar scalar) := by
    cases levels <;> rfl
  rw [hread, Option.map_bind]
  congr 1
  funext leaf
  exact Option.map_eq_bind.symm

/-- Somewhere in the tree a string stands where a class is declared. -/
inductive QuotesClass (catalog : Catalog) : Tag → Tree → Prop
  | here (typeName : String) (raw : Bytes) : QuotesClass catalog (.record typeName) (.string raw)
  | element {tag : Tag} {items : List Tree} {item : Tree} : item ∈ items →
      QuotesClass catalog tag item → QuotesClass catalog (.array tag) (.array items)
  | member {typeName : String} {schema : Schema} {member : Member} {tree : Tree}
      {trees : List (Bytes × Tree)} : catalog.schema typeName = .ok schema →
      member ∈ schema.table.members → (member.name, tree) ∈ trees →
      QuotesClass catalog member.tag tree → QuotesClass catalog (.record typeName) (.object trees)

end Catalog

end SchemaJson
