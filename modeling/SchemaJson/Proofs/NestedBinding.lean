import SchemaJson.Proofs.BindingSoundness
import SchemaJson.Proofs.PairedDecoding

/-! Where binding failures come from. Nested classes are bound when a value of theirs is met, so a
class that binds can still fail to bind while it decodes, but only for a class below it, and with
the failure of that class. -/

namespace SchemaJson

/-- A binding failure, if it is one, is that of one of the classes. -/
def Catalog.Blames {α : Type} (catalog : Catalog) (among : String → Prop)
    (result : Except Error α) : Prop :=
  ∀ className fault, result = .error (.binding className fault) →
    ∃ typeName, among typeName ∧ catalog.schema typeName = .error (.binding className fault)

namespace Catalog.Blames

variable {α β : Type} {catalog : Catalog} {among : String → Prop} {result : Except Error α}

theorem of_isBinding (h : ∀ error, result = .error error → error.isBinding = false) :
    catalog.Blames among result := by
  intro className fault hresult
  cases h _ hresult

theorem ok (a : α) : catalog.Blames among (.ok a) := by
  intro className fault h
  cases h

theorem error {error : Error} (h : error.isBinding = false) :
    catalog.Blames among (.error error : Except Error α) := by
  refine of_isBinding fun other hother => ?_
  cases hother
  exact h

theorem of_failsOnSyntax (h : FailsOnSyntax result) : catalog.Blames among result := by
  refine of_isBinding fun error herror => ?_
  have hsyntax := h error herror
  cases error <;> first | rfl | cases hsyntax

theorem bind {next : α → Except Error β} (h : catalog.Blames among result)
    (hnext : ∀ a, result = .ok a → catalog.Blames among (next a)) :
    catalog.Blames among (result >>= next) := by
  cases result with
  | error error =>
    intro className fault herror
    cases herror
    exact h className fault rfl
  | ok a => exact hnext a rfl

theorem map (h : catalog.Blames among result) (f : α → β) : catalog.Blames among (result.map f) := by
  cases result with
  | error error =>
    intro className fault herror
    cases herror
    exact h className fault rfl
  | ok a => exact ok (f a)

theorem deeper (context : Context) (offset : Nat) : catalog.Blames among (context.deeper offset) := by
  rw [Context.deeper]
  split
  · exact ok _
  · exact error rfl

theorem readAll {items : List (Except Error α)} (h : ∀ item ∈ items, catalog.Blames among item) :
    catalog.Blames among (Sequence.readAll items).2 := by
  induction items with
  | nil => exact ok _
  | cons item items ih =>
    obtain ⟨hitem, hitems⟩ := List.forall_mem_cons.mp h
    cases item with
    | error error =>
      intro className fault herror
      cases herror
      exact hitem className fault rfl
    | ok a => exact (ih hitems).map _

theorem mapM {γ : Type} {f : γ → Except Error α} {items : List γ}
    (h : ∀ item ∈ items, catalog.Blames among (f item)) : catalog.Blames among (items.mapM f) := by
  induction items with
  | nil => exact ok _
  | cons item items ih =>
    obtain ⟨hitem, hitems⟩ := List.forall_mem_cons.mp h
    rw [List.mapM_cons]
    exact hitem.bind fun _ _ => (ih hitems).bind fun _ _ => ok _

end Catalog.Blames

/-- Values of the tag are made of the classes only. -/
def Tag.IsAmong (among : String → Prop) (tag : Tag) : Prop := ∀ typeName ∈ tag.typeName?, among typeName

/-- The elements that the field still has to give are made of the classes only. -/
def Field.IsAmong (among : String → Prop) : Field → Prop
  | .array view => view.element.IsAmong among
  | _ => True

/-- Reading one of the classes fails to bind only for one of them. -/
def ClassReader.BlamesAmong (catalog : Catalog) (among : String → Prop) (classes : ClassReader) :
    Prop :=
  ∀ typeName span context, among typeName →
    catalog.Blames among (classes.read typeName span context)

section

variable {catalog : Catalog} {among : String → Prop} {classes : ClassReader} {context : Context}

theorem Span.blames_decode {span : Span} {label : Bytes} {tag : Tag}
    (hclasses : classes.BlamesAmong catalog among) (htag : tag.IsAmong among) :
    catalog.Blames among (span.decode classes label tag context) := by
  cases tag with
  | record typeName =>
    exact (Catalog.Blames.deeper _ _).bind fun inner _ =>
      (hclasses typeName span inner (htag typeName rfl)).bind fun stored _ => .ok _
  | array element =>
    simp only [decode]
    split
    · exact (Catalog.Blames.deeper _ _).bind fun inner _ => .ok _
    · exact .error rfl
  | _ =>
    simp only [decode]
    split
    · exact .ok _
    · exact .error rfl

theorem Span.isAmong_of_decode {span : Span} {label : Bytes} {tag : Tag} {field : Field}
    (htag : tag.IsAmong among) (h : span.decode classes label tag context = .ok field) :
    field.IsAmong among := by
  have hfield := hasTag_of_decode h
  cases field with
  | array view =>
    obtain rfl : tag = .array view.element := hfield
    exact htag
  | _ => trivial

theorem ArrayView.blames_items {view : ArrayView} (hclasses : classes.BlamesAmong catalog among)
    (hview : view.element.IsAmong among) :
    ∀ item ∈ view.items classes,
      catalog.Blames among item ∧ ∀ field, item = .ok field → field.IsAmong among := by
  intro item hitem
  rcases List.mem_append.mp hitem with hspan | hfault
  · obtain ⟨span, -, rfl⟩ := List.mem_map.mp hspan
    exact ⟨Span.blames_decode hclasses hview, fun field => Span.isAmong_of_decode hview⟩
  · obtain ⟨error, herror, rfl⟩ := List.mem_map.mp hfault
    have hsyntax := Scan.isSyntax_of_arrayElements (Option.mem_toList.mp herror)
    refine ⟨.of_failsOnSyntax fun other hother => ?_, fun field hfield => by cases hfield⟩
    cases hother
    exact hsyntax

theorem ArrayView.blames_built {view : ArrayView} {build : Field → Except Error Value}
    (hclasses : classes.BlamesAmong catalog among) (hview : view.element.IsAmong among)
    (hbuild : ∀ field : Field, field.IsAmong among → catalog.Blames among (build field)) :
    ∀ item ∈ (view.fields classes).map fun item => item.bind build, catalog.Blames among item := by
  intro item hitem
  obtain ⟨field, hfield, rfl⟩ := List.mem_map.mp hitem
  obtain ⟨hblames, hamong⟩ := view.blames_items hclasses hview field (mem_of_mem_untilError hfield)
  exact hblames.bind fun found hfound => hbuild found (hamong found hfound)

namespace ArgType

theorem blames_build {type : ArgType} {field : Field} (hclasses : classes.BlamesAmong catalog among)
    (hfield : field.IsAmong among) : catalog.Blames among (type.build classes field) := by
  induction type generalizing field with
  | scalar type =>
    cases field with
    | scalar content =>
      rw [build]
      split
      · exact .ok _
      · exact .error rfl
    | _ => exact .error rfl
  | record typeName =>
    cases field with
    | record found stored =>
      rw [build]
      split
      · exact .ok _
      · exact .error rfl
    | _ => exact .error rfl
  | growable element ih =>
    cases field with
    | array view =>
      exact (Catalog.Blames.readAll (view.blames_built hclasses hfield fun _ => ih)).map _
    | _ => exact .error rfl
  | fixed element size ih =>
    cases field with
    | array view =>
      have hitems := view.blames_built hclasses hfield fun _ => ih
      exact ((Catalog.Blames.readAll fun item hitem =>
        hitems item (List.mem_of_mem_take hitem)).map _).map _
    | _ => exact .error rfl
  | nullable wrapper content ih =>
    cases field with
    | null => exact .ok _
    | _ => exact (ih hfield).map _

theorem blames_buildAll {types : List ArgType} {fields : List Field}
    (hclasses : classes.BlamesAmong catalog among)
    (hfields : ∀ field ∈ fields, field.IsAmong among) :
    catalog.Blames among (buildAll classes types fields) := by
  induction types generalizing fields with
  | nil => exact .ok _
  | cons type types ih =>
    cases fields with
    | nil => exact .error rfl
    | cons field fields =>
      obtain ⟨hfield, hfields⟩ := List.forall_mem_cons.mp hfields
      exact (blames_build hclasses hfield).bind fun _ _ => (ih hfields).bind fun _ _ => .ok _

end ArgType

namespace Member

variable {member : Member} {given : Option Span}

theorem blames_decode (hclasses : classes.BlamesAmong catalog among)
    (htag : member.tag.IsAmong among) :
    catalog.Blames among (member.decode classes given context) := by
  cases given with
  | none => exact .ok _
  | some span =>
    simp only [decode]
    split
    · exact .ok _
    · exact Span.blames_decode hclasses htag

theorem isAmong_of_decode {field : Field} (htag : member.tag.IsAmong among)
    (h : member.decode classes given context = .ok field) : field.IsAmong among := by
  cases given with
  | none =>
    cases h
    trivial
  | some span =>
    simp only [decode] at h
    split at h
    next =>
      cases h
      trivial
    next => exact Span.isAmong_of_decode htag h

end Member

namespace Schema

variable {schema : Schema}

theorem blames_arguments {given : List (Option Span)} (hclasses : classes.BlamesAmong catalog among)
    (htags : ∀ member ∈ schema.table.members, member.tag.IsAmong among) :
    catalog.Blames among (schema.arguments classes given context) := by
  rw [arguments]
  split
  next => exact .error rfl
  next =>
    have htag : ∀ entry ∈ schema.table.members.zip given, entry.1.tag.IsAmong among :=
      fun entry hentry => htags entry.1 (List.of_mem_zip hentry).1
    refine Catalog.Blames.bind (.mapM fun entry hentry =>
      Member.blames_decode hclasses (htag entry hentry)) fun fields hfields => ?_
    refine ArgType.blames_buildAll hclasses fun field hfield => ?_
    obtain ⟨entry, hentry, hdecode⟩ := mem_of_mapM_eq_ok hfields field hfield
    exact Member.isAmong_of_decode (htag entry hentry) hdecode

theorem blames_readObject (hclasses : classes.BlamesAmong catalog among)
    (htags : ∀ member ∈ schema.table.members, member.tag.IsAmong among) (start : Cursor) :
    catalog.Blames among (Scan.outcome (schema.readObject classes context) start).1 := by
  rw [outcome_readObject]
  exact (Catalog.Blames.of_failsOnSyntax (Scan.IsSyntactic.memberTexts _ _ start)).bind
    fun given _ => blames_arguments hclasses htags

theorem blames_decode {text : Bytes} {options : ReadOptions}
    (hclasses : classes.BlamesAmong catalog among)
    (htags : ∀ member ∈ schema.table.members, member.tag.IsAmong among) :
    catalog.Blames among (schema.decode classes text options) := by
  rw [decode_eq]
  exact (Catalog.Blames.of_failsOnSyntax (Scan.IsSyntactic.memberTexts _ _ _)).bind fun given _ =>
    (blames_arguments hclasses htags).bind fun stored _ =>
      (Catalog.Blames.of_failsOnSyntax (Scan.IsSyntactic.finish _ _)).bind fun _ _ => .ok _

end Schema

namespace Catalog

/-- Readers for any number of levels ask only for classes that are nested in what they read. -/
theorem reader_blamesAmong
    (hnested : ∀ typeName nested, among typeName → catalog.Nests typeName nested → among nested)
    (levels : Nat) : (catalog.reader levels).BlamesAmong catalog among := by
  induction levels with
  | zero => exact fun _ _ _ _ => .error rfl
  | succ levels ih =>
    intro typeName span context hamong
    simp only [reader]
    cases hschema : catalog.schema typeName with
    | error error =>
      -- The only place where a schema is bound: the class that is asked for is the one to blame.
      intro className fault herror
      cases herror
      exact ⟨typeName, hamong, hschema⟩
    | ok schema =>
      obtain ⟨decl, hfind, rfl, -⟩ := schema_eq_ok hschema
      refine Schema.blames_readObject ih (fun member hmember nested hnestedTag => ?_) _
      exact hnested typeName nested hamong ⟨decl, hfind, member, hmember, hnestedTag⟩

variable {text : Bytes} {options : ReadOptions}

theorem isAmong_of_schema {typeName : String} {schema : Schema}
    (hschema : catalog.schema typeName = .ok schema) :
    ∀ member ∈ schema.table.members,
      member.tag.IsAmong (Relation.TransGen catalog.Nests typeName) := by
  obtain ⟨decl, hfind, rfl, -⟩ := schema_eq_ok hschema
  exact fun member hmember nested hnested => .single ⟨decl, hfind, member, hmember, hnested⟩

theorem reader_blames_below (typeName : String) (levels : Nat) :
    (catalog.reader levels).BlamesAmong catalog (Relation.TransGen catalog.Nests typeName) :=
  reader_blamesAmong (fun _ _ hbelow hnests => hbelow.tail hnests) levels

theorem blames_decode {typeName : String} {schema : Schema}
    (hschema : catalog.schema typeName = .ok schema) :
    catalog.Blames (Relation.TransGen catalog.Nests typeName)
      (catalog.decode typeName text options) := by
  rw [Catalog.decode, hschema]
  exact (Blames.ok schema).bind fun found hfound => by
    cases hfound
    exact (Schema.blames_decode (reader_blames_below typeName _) (isAmong_of_schema hschema)).bind
      fun stored _ => .ok _

theorem blames_decodeAll {typeName : String} {schema : Schema}
    (hschema : catalog.schema typeName = .ok schema) :
    ∀ entry ∈ schema.decodeAll (catalog.reader options.maxDepth) text options,
      catalog.Blames (Relation.TransGen catalog.Nests typeName) entry.1 :=
  Schema.forall_mem_stream (Schema.blames_readObject (reader_blames_below typeName _)
    (isAmong_of_schema hschema)) _ _

/-- The classes that elements of the type are made of, and all classes below them. -/
def BelowElement (catalog : Catalog) (element : ArgType) (nested : String) : Prop :=
  ∃ tag typeName, element.elementTag? = some tag ∧ tag.typeName? = some typeName ∧
    Relation.ReflTransGen catalog.Nests typeName nested

theorem blames_decodeArray {element : ArgType} :
    catalog.Blames (catalog.BelowElement element) (catalog.decodeArray element text options) := by
  have hclasses : (catalog.reader options.maxDepth).BlamesAmong catalog
      (catalog.BelowElement element) :=
    reader_blamesAmong (fun _ _ ⟨tag, root, htag, hroot, hreaches⟩ hnests =>
      ⟨tag, root, htag, hroot, hreaches.tail hnests⟩) _
  rw [Catalog.decodeArray]
  split
  next tag htag =>
    refine Blames.bind (.of_failsOnSyntax (ArrayView.ofDocument_failsOnSyntax _ _ _))
      fun view hview => ?_
    obtain ⟨span, rfl⟩ := ArrayView.eq_of_ofDocument hview
    exact ArgType.blames_build hclasses fun root hroot => ⟨tag, root, htag, hroot, .refl⟩
  next => exact .error rfl

end Catalog

end

/-- A class that binds decodes whole documents and streams of objects without a binding failure of
its own: any binding failure is that of a class below it. For an array it is that of a class its
elements are made of, or of one below. -/
theorem binding_failures_come_from_below (catalog : Catalog) (text : Bytes) (options : ReadOptions) :
    (∀ typeName schema, catalog.schema typeName = .ok schema →
      catalog.Blames (Relation.TransGen catalog.Nests typeName)
        (catalog.decode typeName text options) ∧
      ∀ entry ∈ schema.decodeAll (catalog.reader options.maxDepth) text options,
        catalog.Blames (Relation.TransGen catalog.Nests typeName) entry.1) ∧
    ∀ element,
      catalog.Blames (catalog.BelowElement element) (catalog.decodeArray element text options) :=
  ⟨fun _ _ hschema => ⟨Catalog.blames_decode hschema, Catalog.blames_decodeAll hschema⟩,
    fun _ => Catalog.blames_decodeArray⟩

/-- A class whose constructor wants a wider number than its member declares. -/
def narrowClass : ClassDecl where
  typeName := "store::Narrow"
  members := [.ofString "v" (.number (.integer .i32) .never)]
  signature := ⟨.direct, [.scalar (.number (.integer .i64))]⟩
  memberValues := [0]
  blank := [.scalar (.integer .i64 0)]

def holderClass : ClassDecl where
  typeName := "store::Holder"
  members := [.ofString "inner" (.record "store::Narrow")]
  signature := ⟨.direct, [.record "store::Narrow"]⟩
  memberValues := [0]
  blank := [.record "store::Narrow" narrowClass.blank]

def holderCatalog : Catalog := ⟨[holderClass, narrowClass]⟩

def narrowFault : BindingFault :=
  .argumentType (Bytes.ofString "v") false "number(i32)" 0 "i64"

/-- A class that binds, and a text on which it fails to bind: the class below it does not. -/
theorem holder_fails_to_bind :
    (∃ schema, holderCatalog.schema "store::Holder" = .ok schema) ∧
    holderCatalog.decode "store::Holder" (Bytes.ofString "\x7b\"inner\":5\x7d") {}
      = .error (.binding "Narrow" narrowFault) :=
  ⟨⟨_, rfl⟩, rfl⟩

/-- The class below is to blame, for a document as for a stream of objects. -/
theorem narrow_is_blamed :
    (∃ schema, holderCatalog.schema "store::Holder" = .ok schema) ∧
    (∃ nested, Relation.TransGen holderCatalog.Nests "store::Holder" nested ∧
      holderCatalog.schema nested = .error (.binding "Narrow" narrowFault)) ∧
    ∀ schema, holderCatalog.schema "store::Holder" = .ok schema →
      ∀ entry ∈ schema.decodeAll (holderCatalog.reader 128)
        (Bytes.ofString "\x7b\"inner\":5\x7d") {},
        holderCatalog.Blames (Relation.TransGen holderCatalog.Nests "store::Holder") entry.1 := by
  obtain ⟨hclasses, -⟩ := binding_failures_come_from_below holderCatalog
    (Bytes.ofString "\x7b\"inner\":5\x7d") {}
  refine ⟨⟨_, rfl⟩, ?_, fun schema hschema => (hclasses "store::Holder" schema hschema).2⟩
  exact (hclasses "store::Holder" _ rfl).1 "Narrow" narrowFault rfl

end SchemaJson
