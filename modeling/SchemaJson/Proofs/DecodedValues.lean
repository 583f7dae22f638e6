import SchemaJson.Proofs.ReadScalars

/-! Decoding builds values of the declared types. A class value has an argument for every member,
an array only elements of its type, and every payload is one that its type has. What was read from
the text is no deeper than the levels that were left for it, and its numbers are finite; only the
blank values that fill a fixed array are not seen to. -/

namespace SchemaJson

namespace Value

/-- The value has the type, as far as decoding sees to it: a date may be in any year. -/
inductive IsBuilt (catalog : Catalog) : ArgType → Value → Prop
  | scalar {content : Scalar} : content.IsProper →
      IsBuilt catalog (.scalar content.type) (.scalar content)
  | record {decl : ClassDecl} {typeName : String} {stored : List Value} :
      catalog.find? typeName = some decl → decl.signature.arguments.length = stored.length →
      (∀ entry ∈ decl.signature.arguments.zip stored, IsBuilt catalog entry.1 entry.2) →
      IsBuilt catalog (.record typeName) (.record typeName stored)
  | growable {element : ArgType} {items : List Value} :
      (∀ item ∈ items, IsBuilt catalog element item) →
      IsBuilt catalog (.growable element) (.list items)
  | fixed {element : ArgType} {size : Nat} {items : List Value} : items.length = size →
      (∀ item ∈ items, IsBuilt catalog element item) →
      IsBuilt catalog (.fixed element size) (.list items)
  | absent (wrapper : Wrapper) (content : ArgType) :
      IsBuilt catalog (.nullable wrapper content) (.absent wrapper)
  | present {content : ArgType} {value : Value} (wrapper : Wrapper) : IsBuilt catalog content value →
      IsBuilt catalog (.nullable wrapper content) (.present wrapper value)

/-- The value was read where so many levels were left. Blank values fill the places of a fixed array
that no element reaches. -/
inductive IsRead (catalog : Catalog) : (levels : Nat) → ArgType → Value → Prop
  | scalar {content : Scalar} (levels : Nat) : content.IsProper → content.IsFinite →
      IsRead catalog levels (.scalar content.type) (.scalar content)
  | record {levels : Nat} {schema : Schema} {typeName : String} {stored : List Value} :
      catalog.schema typeName = .ok schema → schema.signature.arguments.length = stored.length →
      (∀ entry ∈ schema.signature.arguments.zip stored, IsRead catalog levels entry.1 entry.2) →
      IsRead catalog (levels + 1) (.record typeName) (.record typeName stored)
  | growable {levels : Nat} {element : ArgType} {items : List Value} :
      (∀ item ∈ items, IsRead catalog levels element item) →
      IsRead catalog (levels + 1) (.growable element) (.list items)
  | fixed {levels : Nat} {element : ArgType} {size : Nat} {items : List Value} :
      items.length ≤ size → (∀ item ∈ items, IsRead catalog levels element item) →
      IsRead catalog (levels + 1) (.fixed element size)
        (.list (items ++ List.replicate (size - items.length) (element.blank catalog.blank)))
  | absent (levels : Nat) (wrapper : Wrapper) (content : ArgType) :
      IsRead catalog levels (.nullable wrapper content) (.absent wrapper)
  | present {levels : Nat} {content : ArgType} {value : Value} (wrapper : Wrapper) :
      IsRead catalog levels content value →
      IsRead catalog levels (.nullable wrapper content) (.present wrapper value)

end Value

namespace Catalog

/-- The blank values of the class and of all classes below it are of their types. -/
def BlanksBelow (catalog : Catalog) (typeName : String) : Prop :=
  ∀ nested, Relation.ReflTransGen catalog.Nests typeName nested →
    Value.IsBuilt catalog (.record nested) (.record nested (catalog.blank nested))

def BlanksTag (catalog : Catalog) (tag : Tag) : Prop :=
  ∀ typeName ∈ tag.typeName?, catalog.BlanksBelow typeName

theorem BlanksBelow.blanksTag {catalog : Catalog} {typeName : String} {decl : ClassDecl}
    {member : Member} (h : catalog.BlanksBelow typeName) (hfind : catalog.find? typeName = some decl)
    (hmember : member ∈ decl.members) : catalog.BlanksTag member.tag :=
  fun _ hnested below hbelow => h below (.head ⟨decl, hfind, member, hmember, hnested⟩ hbelow)

end Catalog

/-- How many levels a value that is met in the context may nest. -/
def Context.levels (context : Context) : Nat := context.maxDepth - context.depth

theorem Context.levels_of_deeper {context inner : Context} {offset : Nat}
    (h : context.deeper offset = .ok inner) : context.levels = inner.levels + 1 := by
  rw [deeper] at h
  split at h
  next hdepth =>
    cases h
    simp only [levels]
    omega
  next => cases h

/-- What the field holds was read where so many levels were left. An array still holds text, and its
elements have one level fewer. -/
def Field.IsRead (catalog : Catalog) (levels : Nat) : Field → Prop
  | .null => True
  | .scalar content => content.IsProper ∧ content.IsFinite
  | .array view => view.span.text.IsText ∧ levels = view.context.levels + 1
  | .record typeName stored => Value.IsRead catalog levels (.record typeName) (.record typeName stored)

/-- Class values are read from texts, with the levels that are left below them. -/
structure ClassReader.Builds (catalog : Catalog) (classes : ClassReader) : Prop where
  blank : classes.blank = catalog.blank
  read {typeName : String} {span : Span} {context : Context} {stored : List Value} :
    span.text.IsText → classes.read typeName span context = .ok stored →
    Value.IsRead catalog (context.levels + 1) (.record typeName) (.record typeName stored)

section

variable {catalog : Catalog} {classes : ClassReader}

theorem Span.isRead_of_decode {span : Span} {label : Bytes} {tag : Tag} {context : Context}
    {field : Field} (hclasses : classes.Builds catalog) (hspan : span.text.IsText)
    (h : span.decode classes label tag context = .ok field) : field.IsRead catalog context.levels := by
  by_cases hscalar : tag.scalarType?.isSome = true
  · rw [decode_of_scalarType? hscalar] at h
    split at h
    next scalar hread =>
      cases h
      exact ⟨isProper_of_scalar? hspan hread, isFinite_of_scalar? hread⟩
    next => cases h
  · cases tag with
    | record typeName =>
      obtain ⟨inner, hinner, h⟩ := bind_eq_ok_iff.mp h
      obtain ⟨stored, hstored, h⟩ := bind_eq_ok_iff.mp h
      cases h
      rw [Context.levels_of_deeper hinner]
      exact hclasses.read hspan hstored
    | array element =>
      simp only [decode] at h
      split at h
      next =>
        obtain ⟨inner, hinner, h⟩ := bind_eq_ok_iff.mp h
        cases h
        exact ⟨hspan, Context.levels_of_deeper hinner⟩
      next => cases h
    | _ => exact absurd rfl hscalar

theorem ArrayView.isRead_of_mem_fields {view : ArrayView} {field : Field}
    (hclasses : classes.Builds catalog) (hview : view.span.text.IsText)
    (h : .ok field ∈ view.fields classes) : field.IsRead catalog view.context.levels := by
  simp only [fields] at h
  rcases List.mem_append.mp (mem_of_mem_untilError h) with hspan | hfault
  · obtain ⟨span, hmem, hdecode⟩ := List.mem_map.mp hspan
    exact Span.isRead_of_decode hclasses (isText_of_spans hview span hmem) hdecode
  · obtain ⟨error, -, herror⟩ := List.mem_map.mp hfault
    cases herror

namespace ArgType

/-- What is built of an array's elements was read, if one element always is. -/
theorem isRead_of_mem_fields {element : ArgType} {view : ArrayView} {value : Value}
    (hclasses : classes.Builds catalog) (hview : view.span.text.IsText)
    (hbuild : ∀ field value, field.IsRead catalog view.context.levels →
      element.build classes field = .ok value → value.IsRead catalog view.context.levels element)
    (h : .ok value ∈ (view.fields classes).map fun item => item.bind (element.build classes)) :
    value.IsRead catalog view.context.levels element := by
  obtain ⟨item, hitem, hvalue⟩ := List.mem_map.mp h
  obtain ⟨field, rfl, hvalue⟩ := bind_eq_ok_iff.mp hvalue
  exact hbuild field value (view.isRead_of_mem_fields hclasses hview hitem) hvalue

theorem isRead_of_build {type : ArgType} {field : Field} {value : Value} {levels : Nat}
    (hclasses : classes.Builds catalog) (hfield : field.IsRead catalog levels)
    (h : type.build classes field = .ok value) : value.IsRead catalog levels type := by
  induction type generalizing field value levels with
  | scalar type =>
    cases field with
    | scalar content =>
      rw [build] at h
      split at h
      next htype =>
        cases h
        exact htype ▸ .scalar levels hfield.1 hfield.2
      next => cases h
    | _ => cases h
  | record typeName =>
    cases field with
    | record found stored =>
      rw [build] at h
      split at h
      next hfound =>
        cases h
        exact hfound ▸ hfield
      next => cases h
    | _ => cases h
  | growable element ih =>
    cases field with
    | array view =>
      obtain ⟨htext, rfl⟩ := hfield
      obtain ⟨list, hread, rfl⟩ := map_eq_ok_iff.mp h
      exact .growable fun item hitem => isRead_of_mem_fields hclasses htext
        (fun field value hfield => ih hfield) (Sequence.ok_mem_of_readAll hread hitem)
    | _ => cases h
  | fixed element size ih =>
    cases field with
    | array view =>
      obtain ⟨htext, rfl⟩ := hfield
      obtain ⟨items, hitems, rfl⟩ := map_eq_ok_iff.mp h
      obtain ⟨list, hread, rfl⟩ := map_eq_ok_iff.mp hitems
      -- Elements beyond the size are dropped, and blank values fill the places that are left.
      have hlength : list.length ≤ size := by
        have htaken := congrArg List.length (Sequence.readAll_eq_ok_iff.mp hread)
        simp only [List.length_take, List.length_map] at htaken
        omega
      rw [hclasses.blank]
      exact .fixed hlength fun item hitem => isRead_of_mem_fields hclasses htext
        (fun field value hfield => ih hfield)
        (List.mem_of_mem_take (Sequence.ok_mem_of_readAll hread hitem))
    | _ => cases h
  | nullable wrapper content ih =>
    cases field with
    | null =>
      cases h
      exact .absent levels wrapper content
    | _ =>
      obtain ⟨built, hbuilt, rfl⟩ := map_eq_ok_iff.mp h
      exact .present wrapper (ih hfield hbuilt)

theorem isRead_of_buildAll {arguments : List ArgType} {fields : List Field} {stored : List Value}
    {levels : Nat} (hclasses : classes.Builds catalog)
    (hfields : ∀ field ∈ fields, field.IsRead catalog levels)
    (h : buildAll classes arguments fields = .ok stored) :
    arguments.length = stored.length ∧
      ∀ entry ∈ arguments.zip stored, entry.2.IsRead catalog levels entry.1 := by
  induction arguments generalizing fields stored with
  | nil =>
    cases h
    simp
  | cons type arguments ih =>
    cases fields with
    | nil => cases h
    | cons field fields =>
      obtain ⟨hfirst, hfields⟩ := List.forall_mem_cons.mp hfields
      obtain ⟨value, hvalue, h⟩ := bind_eq_ok_iff.mp h
      obtain ⟨rest, hrest, h⟩ := bind_eq_ok_iff.mp h
      cases h
      obtain ⟨hlength, hread⟩ := ih hfields hrest
      exact ⟨congrArg Nat.succ hlength, List.forall_mem_cons.mpr
        ⟨isRead_of_build hclasses hfirst hvalue, hread⟩⟩

end ArgType

theorem Member.isRead_of_decode {member : Member} {given : Option Span} {context : Context}
    {field : Field} (hclasses : classes.Builds catalog) (hgiven : ∀ span ∈ given, span.text.IsText)
    (h : member.decode classes given context = .ok field) : field.IsRead catalog context.levels := by
  cases given with
  | none =>
    cases h
    trivial
  | some span =>
    simp only [decode] at h
    split at h
    next =>
      cases h
      trivial
    next => exact Span.isRead_of_decode hclasses (hgiven span rfl) h

theorem Catalog.isRead_of_readObject {typeName : String} {schema : Schema} {context : Context}
    {start stop : Cursor} {stored : List Value} (hclasses : classes.Builds catalog)
    (hschema : catalog.schema typeName = .ok schema) (hstart : start.ahead.EndText)
    (h : Scan.Gives (schema.readObject classes context) start stored stop) :
    Value.IsRead catalog (context.levels + 1) (.record typeName) (.record typeName stored) := by
  obtain ⟨given, hgiven, -, fields, hfields, hbuild⟩ := Schema.exists_given_of_readObject h
  obtain ⟨-, htexts⟩ := Scan.StaysInText.memberTexts _ _ start stop given hstart hgiven
  have hread : ∀ field ∈ fields, field.IsRead catalog context.levels := by
    intro field hfield
    obtain ⟨entry, hentry, hdecode⟩ := mem_of_mapM_eq_ok hfields field hfield
    have hspan := (List.of_mem_zip hentry).2
    exact Member.isRead_of_decode hclasses (fun span hspan' => htexts span (hspan' ▸ hspan)) hdecode
  obtain ⟨hlength, hstored⟩ := ArgType.isRead_of_buildAll hclasses hread hbuild
  exact .record hschema hlength hstored

end

namespace Catalog

variable {catalog : Catalog} {text : Bytes} {options : ReadOptions} {value : Value}

theorem reader_builds (catalog : Catalog) (levels : Nat) : (catalog.reader levels).Builds catalog := by
  induction levels with
  | zero =>
    refine ⟨rfl, fun _ h => ?_⟩
    cases h
  | succ levels ih =>
    refine ⟨rfl, fun {typeName span context stored} hspan h => ?_⟩
    obtain ⟨schema, hschema, hread⟩ := bind_eq_ok_iff.mp h
    have hgives : Scan.Gives (schema.readObject (catalog.reader levels) context) (.ofSpan span) stored
        _ := Prod.ext hread rfl
    exact isRead_of_readObject ih hschema hspan.endText hgives

/-- The root of a document has one level more than may lie below it. -/
theorem isRead_of_decode {typeName : String} (htext : text.IsText)
    (h : catalog.decode typeName text options = .ok value) :
    value.IsRead catalog (options.maxDepth + 1) (.record typeName) := by
  obtain ⟨schema, hschema, h⟩ := bind_eq_ok_iff.mp h
  obtain ⟨stored, hstored, h⟩ := bind_eq_ok_iff.mp h
  cases h
  obtain ⟨stop, hread⟩ := Schema.exists_gives_of_decode hstored
  exact isRead_of_readObject (catalog.reader_builds _) hschema htext.endText hread

end Catalog

section

variable {catalog : Catalog}

theorem ArgType.isBuilt_blank {type : ArgType} {tag : Tag} (haccepts : type.accepts tag false = true)
    (htag : catalog.BlanksTag tag) : (type.blank catalog.blank).IsBuilt catalog type := by
  induction type generalizing tag with
  | scalar type =>
    have hblank := @Value.IsBuilt.scalar catalog type.blank type.isProper_blank
    rwa [type.type_blank] at hblank
  | record typeName =>
    obtain ⟨-, rfl⟩ := accepts_record.mp haccepts
    exact htag typeName rfl typeName .refl
  | growable element => exact .growable (by simp)
  | fixed element size ih =>
    obtain ⟨-, declared, rfl, helement⟩ := accepts_fixed.mp haccepts
    refine .fixed List.length_replicate fun item hitem => ?_
    rw [List.eq_of_mem_replicate hitem]
    exact ih helement htag
  | nullable wrapper content => exact .absent wrapper content

/-- Whatever was read is of its type, if the blank values are. -/
theorem Value.IsRead.isBuilt {levels : Nat} {type : ArgType} {value : Value} {tag : Tag}
    {nullable : Bool} (h : value.IsRead catalog levels type)
    (haccepts : type.accepts tag nullable = true) (htag : catalog.BlanksTag tag) :
    value.IsBuilt catalog type := by
  induction h generalizing tag nullable with
  | scalar _ hproper => exact .scalar hproper
  | @record levels schema typeName stored hschema hlength _ ih =>
    obtain ⟨-, rfl⟩ := ArgType.accepts_record.mp haccepts
    obtain ⟨decl, hfind, rfl, hbound⟩ := Catalog.schema_eq_ok hschema
    refine .record hfind hlength fun entry hentry => ?_
    obtain ⟨member, hmember, hargument⟩ := hbound.exists_member (List.of_mem_zip hentry).1
    exact ih entry hentry hargument ((htag typeName rfl).blanksTag hfind hmember)
  | growable _ ih =>
    obtain ⟨-, declared, rfl, helement⟩ := ArgType.accepts_growable.mp haccepts
    exact .growable fun item hitem => ih item hitem helement htag
  | fixed hlength _ ih =>
    obtain ⟨-, declared, rfl, helement⟩ := ArgType.accepts_fixed.mp haccepts
    refine .fixed (by simp [hlength]) fun item hitem => ?_
    rcases List.mem_append.mp hitem with hitem | hblank
    · exact ih item hitem helement htag
    · rw [List.eq_of_mem_replicate hblank]
      exact ArgType.isBuilt_blank helement htag
  | absent _ wrapper content => exact .absent wrapper content
  | present wrapper _ ih =>
    exact .present wrapper (ih (ArgType.accepts_nullable.mp haccepts).2 htag)

end

end SchemaJson
