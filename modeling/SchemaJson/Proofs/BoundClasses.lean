import Mathlib.Data.List.Forall2
import Mathlib.Logic.Relation
import SchemaJson.Schema.Catalog

/-! Classes whose schemas bind, and the classes they nest. A schema that binds pairs every declared
member with an argument that accepts it. -/

namespace SchemaJson

/-- The class that values of the tag are made of, if any. -/
def Tag.typeName? : Tag → Option String
  | .record typeName => some typeName
  | .array element => element.typeName?
  | _ => none

namespace ArgType

variable {tag : Tag} {isNullable : Bool}

theorem accepts_scalar {type : ScalarType} :
    (scalar type).accepts tag isNullable = true ↔
      isNullable = false ∧ tag.scalarType? = some type := by
  simp [accepts]

theorem accepts_record {typeName : String} :
    (record typeName).accepts tag isNullable = true ↔
      isNullable = false ∧ tag = .record typeName := by
  cases tag <;> simp [accepts]

theorem accepts_record_self (typeName : String) :
    (record typeName).accepts (.record typeName) false = true :=
  accepts_record.mpr ⟨rfl, rfl⟩

theorem accepts_growable {element : ArgType} :
    (growable element).accepts tag isNullable = true ↔
      isNullable = false ∧ ∃ declared, tag = .array declared ∧
        element.accepts declared false = true := by
  cases tag <;> simp [accepts]

theorem accepts_fixed {element : ArgType} {size : Nat} :
    (fixed element size).accepts tag isNullable = true ↔
      isNullable = false ∧ ∃ declared, tag = .array declared ∧
        element.accepts declared false = true := by
  cases tag <;> simp [accepts]

theorem accepts_nullable {wrapper : Wrapper} {content : ArgType} :
    (nullable wrapper content).accepts tag isNullable = true ↔
      isNullable = true ∧ content.accepts tag false = true := by
  cases tag <;> simp [accepts]

theorem exists_of_accepts_true {type : ArgType} (h : type.accepts tag true = true) :
    ∃ wrapper content, type = nullable wrapper content ∧ content.accepts tag false = true := by
  cases type with
  | nullable wrapper content => exact ⟨wrapper, content, rfl, (accepts_nullable.mp h).2⟩
  | scalar type => cases (accepts_scalar.mp h).1
  | record typeName => cases (accepts_record.mp h).1
  | growable element => cases (accepts_growable.mp h).1
  | fixed element size => cases (accepts_fixed.mp h).1

end ArgType

namespace Schema

/-- Every argument accepts its member. -/
def IsBound (schema : Schema) : Prop :=
  List.Forall₂ (fun member argument => argument.accepts member.tag member.nullable = true)
    schema.table.members schema.signature.arguments

theorem IsBound.exists_member {schema : Schema} {argument : ArgType} (h : schema.IsBound)
    (hmem : argument ∈ schema.signature.arguments) :
    ∃ member ∈ schema.table.members, argument.accepts member.tag member.nullable = true := by
  rw [IsBound] at h
  generalize schema.table.members = members, schema.signature.arguments = arguments at h hmem
  induction h with
  | nil => cases hmem
  | @cons member argument' members arguments haccepts _ ih =>
    rcases List.mem_cons.mp hmem with rfl | hmem
    · exact ⟨member, by simp, haccepts⟩
    · obtain ⟨found, hfound, haccepts⟩ := ih hmem
      exact ⟨found, by simp [hfound], haccepts⟩

theorem IsBound.exists_argument {schema : Schema} {position : Nat} {member : Member}
    (h : schema.IsBound) (hmember : schema.table.get? position = some member) :
    ∃ argument, schema.signature.arguments[position]? = some argument ∧
      argument.accepts member.tag member.nullable = true := by
  obtain ⟨hposition, rfl⟩ := List.getElem?_eq_some_iff.mp hmember
  have hargument : position < schema.signature.arguments.length := h.length_eq ▸ hposition
  exact ⟨_, List.getElem?_eq_getElem hargument, h.get hposition hargument⟩

end Schema

theorem Signature.forall₂_of_argumentFault? {members : List Member} {arguments : List ArgType}
    {position : Nat} (hlength : members.length = arguments.length)
    (h : argumentFault? position members arguments = none) :
    List.Forall₂ (fun member argument => argument.accepts member.tag member.nullable = true)
      members arguments := by
  induction members generalizing position arguments with
  | nil =>
    rw [List.length_eq_zero_iff.mp hlength.symm]
    exact .nil
  | cons member members ih =>
    cases arguments with
    | nil => cases hlength
    | cons argument arguments =>
      simp only [argumentFault?] at h
      split at h
      next haccepts => exact .cons haccepts (ih (Nat.succ.inj hlength) h)
      next => cases h

theorem Schema.bind_eq_ok {className : String} {members : List Member} {signature : Signature}
    {schema : Schema} (h : Schema.bind className members signature = .ok schema) :
    schema = ⟨className, ⟨members⟩, signature⟩ ∧ schema.IsBound := by
  simp only [bind] at h
  split at h
  next => cases h
  next hfault =>
    cases h
    refine ⟨rfl, ?_⟩
    simp only [Signature.fault?] at hfault
    split at hfault
    next hlength => exact Signature.forall₂_of_argumentFault? hlength hfault
    next => cases hfault

namespace Catalog

theorem schema_eq_ok {catalog : Catalog} {typeName : String} {schema : Schema}
    (h : catalog.schema typeName = .ok schema) :
    ∃ decl, catalog.find? typeName = some decl ∧
      schema = ⟨shortName decl.typeName, ⟨decl.members⟩, decl.signature⟩ ∧ schema.IsBound := by
  simp only [Catalog.schema] at h
  split at h
  next decl hfind => exact ⟨decl, hfind, Schema.bind_eq_ok h⟩
  next => cases h

/-- Some member of the class declares the nested one, or arrays of it. -/
def Nests (catalog : Catalog) (typeName nested : String) : Prop :=
  ∃ decl, catalog.find? typeName = some decl ∧
    ∃ member ∈ decl.members, member.tag.typeName? = some nested

/-- The class binds, and so do all classes below it. -/
def BindsBelow (catalog : Catalog) (typeName : String) : Prop :=
  ∀ nested, Relation.ReflTransGen catalog.Nests typeName nested →
    ∃ schema, catalog.schema nested = .ok schema

/-- The classes of the tag's values bind, and all classes below them. -/
def BindsTag (catalog : Catalog) (tag : Tag) : Prop :=
  ∀ typeName ∈ tag.typeName?, catalog.BindsBelow typeName

theorem BindsBelow.bindsTag {catalog : Catalog} {typeName : String} {schema : Schema}
    {member : Member} (h : catalog.BindsBelow typeName) (hschema : catalog.schema typeName = .ok schema)
    (hmember : member ∈ schema.table.members) : catalog.BindsTag member.tag := by
  intro nested hnested below hbelow
  obtain ⟨decl, hfind, rfl, -⟩ := schema_eq_ok hschema
  exact h below (.head ⟨decl, hfind, member, hmember, hnested⟩ hbelow)

/-- Classes that nest only each other reach only each other. -/
theorem mem_of_reaches {catalog : Catalog} {typeNames : List String} {typeName nested : String}
    (hclosed : ∀ typeName ∈ typeNames, ∀ nested, catalog.Nests typeName nested → nested ∈ typeNames)
    (hmem : typeName ∈ typeNames) (hreaches : Relation.ReflTransGen catalog.Nests typeName nested) :
    nested ∈ typeNames := by
  induction hreaches with
  | refl => exact hmem
  | tail _ hnests ih => exact hclosed _ ih _ hnests

/-- A class whose members declare no classes reaches only itself. -/
theorem eq_of_reaches {catalog : Catalog} {typeName nested : String} {decl : ClassDecl}
    (hfind : catalog.find? typeName = some decl)
    (hflat : ∀ member ∈ decl.members, member.tag.typeName? = none)
    (hreaches : Relation.ReflTransGen catalog.Nests typeName nested) : nested = typeName := by
  rcases hreaches.cases_head with rfl | ⟨below, ⟨found, hfound, member, hmember, hnested⟩, -⟩
  · rfl
  · obtain rfl := Option.some.inj (hfind.symm.trans hfound)
    rw [hflat member hmember] at hnested
    cases hnested

end Catalog

/-- A class of labelled trees: every node may hold a sequence of nodes. -/
def nodeClass : ClassDecl where
  typeName := "tree::Node"
  members := [.ofString "label" .string,
    (Member.ofString "children" (.array (.record "tree::Node"))).asNullable]
  signature := ⟨.direct,
    [.scalar .text, .nullable .option (.growable (.record "tree::Node"))]⟩
  memberValues := [0, 1]
  blank := [.scalar (.text []), .absent .option]

def treeCatalog : Catalog := ⟨[nodeClass]⟩

theorem treeCatalog_reaches {nested : String}
    (h : Relation.ReflTransGen treeCatalog.Nests "tree::Node" nested) : nested = "tree::Node" := by
  refine List.mem_singleton.mp (Catalog.mem_of_reaches (fun typeName hmem nested hnests => ?_)
    (List.mem_singleton.mpr rfl) h)
  obtain ⟨decl, hfind, member, hmember, hnested⟩ := hnests
  rw [List.mem_singleton.mp hmem] at hfind
  cases hfind
  simp only [nodeClass, List.mem_cons, List.not_mem_nil, or_false] at hmember
  rcases hmember with rfl | rfl
  · cases hnested
  · cases hnested
    exact List.mem_singleton.mpr rfl

theorem treeCatalog_bindsBelow : treeCatalog.BindsBelow "tree::Node" := by
  intro nested hreaches
  rw [treeCatalog_reaches hreaches]
  exact ⟨_, rfl⟩

end SchemaJson
