import SchemaJson.Proofs.BoundClasses
import SchemaJson.Proofs.ScanErrors
import SchemaJson.Proofs.Sequences

/-! Soundness of the binding check. A tag decodes only to fields that are its own, and an argument
that accepts the tag builds from every such field; so decoding a class that binds never fails for
want of a field that fits. -/

namespace SchemaJson

/-- Nothing was built from a field that does not fit. -/
def NoBuildFault {α : Type} (result : Except Error α) : Prop :=
  ∀ fault, result ≠ .error (.build fault)

namespace NoBuildFault

variable {α β : Type}

theorem ok (a : α) : NoBuildFault (.ok a) := by
  intro fault h
  cases h

theorem bind {result : Except Error α} {next : α → Except Error β} (h : NoBuildFault result)
    (hnext : ∀ a, result = .ok a → NoBuildFault (next a)) : NoBuildFault (result >>= next) := by
  cases result with
  | error error =>
    intro fault herror
    cases herror
    exact h fault rfl
  | ok a => exact hnext a rfl

theorem map {result : Except Error α} (h : NoBuildFault result) (f : α → β) :
    NoBuildFault (result.map f) := by
  cases result with
  | error error =>
    intro fault herror
    cases herror
    exact h fault rfl
  | ok a => exact ok (f a)

theorem of_failsOnSyntax {result : Except Error α} (h : FailsOnSyntax result) : NoBuildFault result := by
  rintro fault rfl
  cases h _ rfl

theorem deeper (context : Context) (offset : Nat) : NoBuildFault (context.deeper offset) := by
  rw [Context.deeper]
  split
  · exact ok _
  · intro fault h
    cases h

end NoBuildFault

/-- The field is one that values of the tag decode to. -/
def Field.HasTag : Field → Tag → Prop
  | .null, _ => False
  | .scalar content, tag => tag.scalarType? = some content.type
  | .array view, tag => tag = .array view.element
  | .record typeName _, tag => tag = .record typeName

/-- The field fills a member: it has the member's tag, or is empty where the member may be. -/
def Field.Fills (field : Field) (tag : Tag) (nullable : Bool) : Prop :=
  field.HasTag tag ∨ (nullable = true ∧ field = .null)

theorem Field.Fills.hasTag {field : Field} {tag : Tag} (h : field.Fills tag false) :
    field.HasTag tag := by
  rcases h with h | ⟨h, -⟩
  · exact h
  · cases h

/-- A class is only asked for when it binds, and then never fails for want of a field. -/
def ClassReader.IsSound (catalog : Catalog) (classes : ClassReader) : Prop :=
  ∀ typeName span context, catalog.BindsBelow typeName →
    NoBuildFault (classes.read typeName span context)

theorem NumberKind.type_of_read {kind : NumberKind} {text : Bytes} {scalar : Scalar}
    (h : kind.read text = some scalar) : scalar.type = .number kind := by
  cases kind with
  | integer kind =>
    obtain ⟨value, -, rfl⟩ := Option.map_eq_some_iff.mp h
    rfl
  | float format =>
    obtain ⟨bits, -, rfl⟩ := Option.map_eq_some_iff.mp h
    rfl

theorem Span.scalarType?_of_scalar? {span : Span} {tag : Tag} {scalar : Scalar}
    (h : span.scalar? tag = some scalar) : tag.scalarType? = some scalar.type := by
  cases tag with
  | number kind quoting =>
    simp only [scalar?] at h
    split at h
    · rw [NumberKind.type_of_read h]
      rfl
    · cases h
  | bool =>
    simp only [scalar?] at h
    split at h
    · obtain ⟨value, -, rfl⟩ := Option.map_eq_some_iff.mp h
      rfl
    · cases h
  | string =>
    simp only [scalar?] at h
    split at h
    · cases h
      rfl
    · cases h
  | date =>
    simp only [scalar?] at h
    split at h
    · obtain ⟨value, -, rfl⟩ := Option.map_eq_some_iff.mp h
      rfl
    · cases h
  | record typeName => cases h
  | array element => cases h

namespace Span

variable {catalog : Catalog} {classes : ClassReader} {label : Bytes} {tag : Tag} {span : Span}
  {context : Context}

theorem decode_of_scalarType? (h : tag.scalarType?.isSome = true) :
    span.decode classes label tag context = match span.scalar? tag with
      | some scalar => .ok (.scalar scalar)
      | none => .error (span.invalid label tag) := by
  cases tag with
  | record typeName => cases h
  | array element => cases h
  | _ => rfl

theorem decode_noBuildFault (hclasses : classes.IsSound catalog) (htag : catalog.BindsTag tag) :
    NoBuildFault (span.decode classes label tag context) := by
  by_cases hscalar : tag.scalarType?.isSome = true
  · rw [decode_of_scalarType? hscalar]
    split
    · exact .ok _
    · intro fault h
      cases h
  · cases tag with
    | record typeName =>
      refine (NoBuildFault.deeper _ _).bind fun inner _ => ?_
      exact (hclasses typeName span inner (htag typeName rfl)).bind fun stored _ => .ok _
    | array element =>
      simp only [decode]
      split
      · exact (NoBuildFault.deeper _ _).bind fun inner _ => .ok _
      · intro fault h
        cases h
    | _ => exact absurd rfl hscalar

theorem hasTag_of_decode {field : Field} (h : span.decode classes label tag context = .ok field) :
    field.HasTag tag := by
  by_cases hscalar : tag.scalarType?.isSome = true
  · rw [decode_of_scalarType? hscalar] at h
    split at h
    next scalar hread =>
      cases h
      exact scalarType?_of_scalar? hread
    next => cases h
  · cases tag with
    | record typeName =>
      obtain ⟨inner, -, h⟩ := bind_eq_ok_iff.mp h
      obtain ⟨stored, -, h⟩ := bind_eq_ok_iff.mp h
      cases h
      rfl
    | array element =>
      simp only [decode] at h
      split at h
      next =>
        obtain ⟨inner, -, h⟩ := bind_eq_ok_iff.mp h
        cases h
        rfl
      next => cases h
    | _ => exact absurd rfl hscalar

end Span

theorem ArrayView.mem_of_mem_untilError {α : Type} {items : List (Except Error α)}
    {item : Except Error α} (h : item ∈ untilError items) : item ∈ items := by
  induction items with
  | nil => exact h
  | cons head items ih =>
    cases head with
    | error error => simp_all [untilError]
    | ok a =>
      simp only [untilError, List.mem_cons] at h ⊢
      exact h.imp_right ih

theorem ArrayView.mem_fields {catalog : Catalog} {classes : ClassReader} {view : ArrayView}
    {item : Except Error Field} (hclasses : classes.IsSound catalog)
    (htag : catalog.BindsTag view.element) (h : item ∈ view.fields classes) :
    NoBuildFault item ∧ ∀ field, item = .ok field → field.HasTag view.element := by
  simp only [fields] at h
  rcases List.mem_append.mp (mem_of_mem_untilError h) with hspan | hfault
  · obtain ⟨span, -, rfl⟩ := List.mem_map.mp hspan
    exact ⟨Span.decode_noBuildFault hclasses htag, fun field => Span.hasTag_of_decode⟩
  · obtain ⟨error, herror, rfl⟩ := List.mem_map.mp hfault
    have hfails := Scan.isSyntax_of_arrayElements (Option.mem_toList.mp herror)
    refine ⟨.of_failsOnSyntax fun other hother => ?_, fun field hfield => ?_⟩
    · cases hother
      exact hfails
    · cases hfield

theorem Sequence.readAll_noBuildFault {α : Type} {items : List (Except Error α)}
    (h : ∀ item ∈ items, NoBuildFault item) : NoBuildFault (readAll items).2 := by
  induction items with
  | nil => exact .ok _
  | cons item items ih =>
    cases item with
    | error error =>
      intro fault herror
      cases herror
      exact h (.error (.build fault)) (by simp) fault rfl
    | ok a => exact (ih fun other hother => h other (by simp [hother])).map _

namespace ArgType

variable {catalog : Catalog} {classes : ClassReader}

theorem elements_noBuildFault {element : ArgType} {view : ArrayView}
    (hclasses : classes.IsSound catalog) (htag : catalog.BindsTag view.element)
    (helement : ∀ field : Field, field.HasTag view.element →
      NoBuildFault (element.build classes field)) :
    ∀ item ∈ (view.fields classes).map fun item => item.bind (element.build classes),
      NoBuildFault item := by
  intro item hitem
  obtain ⟨field, hfield, rfl⟩ := List.mem_map.mp hitem
  obtain ⟨hfault, hhasTag⟩ := view.mem_fields hclasses htag hfield
  exact hfault.bind fun found hfound => helement found (hhasTag found hfound)

theorem build_noBuildFault {type : ArgType} {tag : Tag} {nullable : Bool} {field : Field}
    (hclasses : classes.IsSound catalog) (htag : catalog.BindsTag tag)
    (haccepts : type.accepts tag nullable = true) (hfield : field.Fills tag nullable) :
    NoBuildFault (type.build classes field) := by
  induction type generalizing tag nullable field with
  | scalar type =>
    obtain ⟨rfl, htype⟩ := accepts_scalar.mp haccepts
    have hfield := hfield.hasTag
    cases field with
    | null => cases hfield
    | scalar content =>
      have hcontent : content.type = type :=
        Option.some.inj ((show _ = some content.type from hfield).symm.trans htype)
      rw [build, if_pos hcontent]
      exact .ok _
    | array view =>
      rw [show tag = .array view.element from hfield] at htype
      cases htype
    | record typeName stored =>
      rw [show tag = .record typeName from hfield] at htype
      cases htype
  | record typeName =>
    obtain ⟨rfl, rfl⟩ := accepts_record.mp haccepts
    have hfield := hfield.hasTag
    cases field with
    | record found stored =>
      cases hfield
      rw [build, if_pos rfl]
      exact .ok _
    | _ => cases hfield
  | growable element ih =>
    obtain ⟨rfl, declared, rfl, helement⟩ := accepts_growable.mp haccepts
    have hfield := hfield.hasTag
    cases field with
    | array view =>
      cases hfield
      have hdeclared : catalog.BindsTag view.element := htag
      have hitems := elements_noBuildFault hclasses hdeclared fun field hfield =>
        ih hdeclared helement (.inl hfield)
      exact (Sequence.readAll_noBuildFault hitems).map _
    | _ => cases hfield
  | fixed element size ih =>
    obtain ⟨rfl, declared, rfl, helement⟩ := accepts_fixed.mp haccepts
    have hfield := hfield.hasTag
    cases field with
    | array view =>
      cases hfield
      have hdeclared : catalog.BindsTag view.element := htag
      have hitems := elements_noBuildFault hclasses hdeclared fun field hfield =>
        ih hdeclared helement (.inl hfield)
      -- The elements past the last place are not looked at, so they cannot fail.
      exact ((Sequence.readAll_noBuildFault fun item hitem =>
        hitems item (List.mem_of_mem_take hitem)).map _).map _
    | _ => cases hfield
  | nullable wrapper content ih =>
    obtain ⟨rfl, hcontent⟩ := accepts_nullable.mp haccepts
    cases field with
    | null => exact .ok _
    | _ =>
      have hfield := hfield.resolve_right (by simp)
      exact (ih htag hcontent (.inl hfield)).map _

end ArgType

theorem Member.fills_of_decode {classes : ClassReader} {member : Member} {given : Option Span}
    {context : Context} {field : Field} (hgiven : member.isSatisfied given = true)
    (h : member.decode classes given context = .ok field) :
    field.Fills member.tag member.nullable := by
  cases given with
  | none =>
    cases h
    exact .inr ⟨by simpa [isSatisfied] using hgiven, rfl⟩
  | some span =>
    simp only [decode] at h
    split at h
    next hnull =>
      cases h
      exact .inr ⟨(Bool.and_eq_true_iff.mp hnull).1, rfl⟩
    next => exact .inl (Span.hasTag_of_decode h)

theorem Member.decode_noBuildFault {catalog : Catalog} {classes : ClassReader} {member : Member}
    {given : Option Span} {context : Context} (hclasses : classes.IsSound catalog)
    (htag : catalog.BindsTag member.tag) : NoBuildFault (member.decode classes given context) := by
  cases given with
  | none => exact .ok _
  | some span =>
    simp only [decode]
    split
    · exact .ok _
    · exact Span.decode_noBuildFault hclasses htag

namespace MemberTable

variable {catalog : Catalog} {classes : ClassReader} {context : Context}

theorem length_foldl_keep (table : MemberTable) (met : List (Bytes × Span))
    (given : List (Option Span)) : (met.foldl table.keep given).length = given.length := by
  induction met generalizing given with
  | nil => rfl
  | cons entry met ih =>
    rw [List.foldl_cons, ih, keep]
    split <;> simp

theorem length_of_gives_memberTexts {table : MemberTable} {className : String}
    {given : List (Option Span)} {start stop : Cursor}
    (h : Scan.Gives (Scan.memberTexts table className) start given stop) :
    given.length = table.members.length := by
  rw [Scan.memberTexts_eq, Scan.gives_map] at h
  obtain ⟨met, -, rfl⟩ := h
  rw [length_foldl_keep, List.length_replicate, size]

theorem isSatisfied_of_missing? {table : MemberTable} {given : List (Option Span)}
    (h : table.missing? given = none) :
    ∀ entry ∈ table.members.zip given, entry.1.isSatisfied entry.2 = true := by
  rw [missing?, Option.map_eq_none_iff, List.find?_eq_none] at h
  simpa using h

theorem forall₂_fills_of_mapM {members : List Member} {given : List (Option Span)}
    {fields : List Field} (hlength : given.length = members.length)
    (hgiven : ∀ entry ∈ members.zip given, entry.1.isSatisfied entry.2 = true)
    (h : (members.zip given).mapM (fun entry => entry.1.decode classes entry.2 context)
      = .ok fields) :
    List.Forall₂ (fun (member : Member) field => field.Fills member.tag member.nullable)
      members fields := by
  induction members generalizing given fields with
  | nil =>
    cases h
    exact .nil
  | cons member members ih =>
    cases given with
    | nil => cases hlength
    | cons span given =>
      rw [List.zip_cons_cons, List.mapM_cons] at h
      obtain ⟨field, hfield, h⟩ := bind_eq_ok_iff.mp h
      obtain ⟨rest, hrest, h⟩ := bind_eq_ok_iff.mp h
      cases h
      refine .cons (member.fills_of_decode (hgiven (member, span) (by simp)) hfield) ?_
      exact ih (Nat.succ.inj hlength) (fun entry hentry => hgiven entry (by simp [hentry])) hrest

theorem mapM_noBuildFault {entries : List (Member × Option Span)}
    (hclasses : classes.IsSound catalog)
    (htags : ∀ entry ∈ entries, catalog.BindsTag entry.1.tag) :
    NoBuildFault (entries.mapM fun entry => entry.1.decode classes entry.2 context) := by
  induction entries with
  | nil => exact .ok _
  | cons entry entries ih =>
    rw [List.mapM_cons]
    refine (Member.decode_noBuildFault hclasses (htags entry (by simp))).bind fun field _ => ?_
    exact (ih fun other hother => htags other (by simp [hother])).bind fun _ _ => .ok _

end MemberTable

theorem ArgType.buildAll_noBuildFault {catalog : Catalog} {classes : ClassReader}
    {members : List Member} {arguments : List ArgType} {fields : List Field}
    (hclasses : classes.IsSound catalog)
    (htags : ∀ member ∈ members, catalog.BindsTag member.tag)
    (hbound : List.Forall₂ (fun member argument => argument.accepts member.tag member.nullable = true)
      members arguments)
    (hfields : List.Forall₂ (fun (member : Member) field => field.Fills member.tag member.nullable)
      members fields) : NoBuildFault (buildAll classes arguments fields) := by
  induction hbound generalizing fields with
  | nil => exact .ok _
  | cons haccepts _ ih =>
    cases hfields with
    | cons hfield hfields =>
      refine (build_noBuildFault hclasses (htags _ (by simp)) haccepts hfield).bind fun _ _ => ?_
      exact (ih (fun member hmember => htags member (by simp [hmember])) hfields).bind
        fun _ _ => .ok _

namespace Schema

variable {catalog : Catalog} {classes : ClassReader} {schema : Schema} {context : Context}

theorem arguments_noBuildFault {given : List (Option Span)} (hclasses : classes.IsSound catalog)
    (hbound : schema.IsBound)
    (htags : ∀ member ∈ schema.table.members, catalog.BindsTag member.tag)
    (hlength : given.length = schema.table.members.length) :
    NoBuildFault (schema.arguments classes given context) := by
  rw [arguments]
  split
  next =>
    intro fault h
    cases h
  next hmissing =>
    have hgiven := MemberTable.isSatisfied_of_missing? hmissing
    refine (MemberTable.mapM_noBuildFault hclasses fun entry hentry =>
      htags entry.1 (List.of_mem_zip hentry).1).bind fun fields hfields => ?_
    exact ArgType.buildAll_noBuildFault hclasses htags hbound
      (MemberTable.forall₂_fills_of_mapM hlength hgiven hfields)

theorem readObject_noBuildFault (hclasses : classes.IsSound catalog) (hbound : schema.IsBound)
    (htags : ∀ member ∈ schema.table.members, catalog.BindsTag member.tag) (start : Cursor) :
    NoBuildFault (Scan.outcome (schema.readObject classes context) start).1 := by
  rw [readObject, Scan.outcome_bind]
  have hfails := Scan.IsSyntactic.memberTexts schema.table schema.className start
  rcases hgiven : Scan.outcome (Scan.memberTexts schema.table schema.className) start
    with ⟨_ | given, middle⟩
  · rw [hgiven] at hfails
    refine .of_failsOnSyntax fun error herror => ?_
    cases herror
    exact hfails _ rfl
  · dsimp only
    rw [Scan.outcome_lift]
    exact arguments_noBuildFault hclasses hbound htags
      (MemberTable.length_of_gives_memberTexts hgiven)

end Schema

namespace Catalog

variable {catalog : Catalog}

theorem readObject_noBuildFault {typeName : String} {schema : Schema} {classes : ClassReader}
    (hclasses : classes.IsSound catalog) (hbinds : catalog.BindsBelow typeName)
    (hschema : catalog.schema typeName = .ok schema) (context : Context) (start : Cursor) :
    NoBuildFault (Scan.outcome (schema.readObject classes context) start).1 := by
  obtain ⟨-, -, -, hbound⟩ := schema_eq_ok hschema
  exact Schema.readObject_noBuildFault hclasses hbound
    (fun member hmember => hbinds.bindsTag hschema hmember) start

/-- Readers for any number of levels are sound. -/
theorem reader_isSound (catalog : Catalog) (levels : Nat) :
    (catalog.reader levels).IsSound catalog := by
  induction levels with
  | zero =>
    intro typeName span context _ fault h
    cases h
  | succ levels ih =>
    intro typeName span context hbinds
    obtain ⟨schema, hschema⟩ := hbinds typeName .refl
    have hread : (catalog.reader (levels + 1)).read typeName span context
        = (Scan.outcome (schema.readObject (catalog.reader levels) context) (.ofSpan span)).1 := by
      simp only [reader, hschema]
      rfl
    rw [hread]
    exact readObject_noBuildFault ih hbinds hschema context _

end Catalog

theorem ArrayView.eq_of_ofDocument {text : Bytes} {element : Tag} {options : ReadOptions}
    {view : ArrayView} (h : ofDocument text element options = .ok view) :
    ∃ span, view = ⟨span, element, Bytes.ofString "[]", .root options.maxDepth⟩ := by
  simp only [ofDocument] at h
  have hroot : Scan.Gives _ (.ofText text) view _ := Prod.ext h rfl
  simp only [Scan.gives_bind, Scan.gives_skipBlanks, Scan.gives_get] at hroot
  obtain ⟨_, _, -, _, _, -, hroot⟩ := hroot
  split at hroot
  next => exact absurd hroot Scan.not_gives_fail
  next =>
    split at hroot
    next =>
      simp only [Scan.gives_bind, Scan.gives_pure] at hroot
      obtain ⟨span, _, -, _, _, -, rfl, -⟩ := hroot
      exact ⟨span, rfl⟩
    next => exact absurd hroot Scan.not_gives_fail

theorem ArgType.accepts_of_elementTag? {type : ArgType} {tag : Tag}
    (h : type.elementTag? = some tag) : type.accepts tag false = true := by
  induction type generalizing tag with
  | scalar type =>
    rw [accepts_scalar]
    cases type <;> cases h <;> exact ⟨rfl, rfl⟩
  | record typeName =>
    cases h
    exact accepts_record.mpr ⟨rfl, rfl⟩
  | growable element ih =>
    obtain ⟨declared, hdeclared, rfl⟩ := Option.map_eq_some_iff.mp h
    exact accepts_growable.mpr ⟨rfl, declared, rfl, ih hdeclared⟩
  | fixed element size ih =>
    obtain ⟨declared, hdeclared, rfl⟩ := Option.map_eq_some_iff.mp h
    exact accepts_fixed.mpr ⟨rfl, declared, rfl, ih hdeclared⟩
  | nullable wrapper content => cases h

theorem ArgType.accepts_growable_of_elementTag? {element : ArgType} {tag : Tag}
    (h : element.elementTag? = some tag) :
    (growable element).accepts (.array tag) false = true :=
  accepts_growable.mpr ⟨rfl, tag, rfl, accepts_of_elementTag? h⟩

/-- What holds of every result of an object holds of every result of a stream. -/
theorem Schema.forall_mem_stream {classes : ClassReader} {schema : Schema} {context : Context}
    {P : Except Error (List Value) → Prop}
    (hread : ∀ start, P (Scan.outcome (schema.readObject classes context) start).1)
    (steps : Nat) (cursor : Cursor) :
    ∀ entry ∈ schema.stream classes context steps cursor, P entry.1 := by
  induction steps generalizing cursor with
  | zero => simp [stream]
  | succ steps ih =>
    intro entry hentry
    have hfirst := hread cursor
    rw [Scan.outcome] at hfirst
    simp only [stream] at hentry
    rcases hobject : (schema.readObject classes context).run.run cursor with ⟨result, middle⟩
    rw [hobject] at hfirst hentry
    dsimp only at hentry
    split at hentry
    next =>
      rcases List.mem_cons.mp hentry with rfl | hentry
      · exact hfirst
      · exact ih middle entry hentry
    next =>
      rw [List.mem_singleton.mp hentry]
      exact hfirst

theorem Schema.stream_noBuildFault {classes : ClassReader} {schema : Schema} {context : Context}
    (hread : ∀ start, NoBuildFault (Scan.outcome (schema.readObject classes context) start).1)
    (steps : Nat) (cursor : Cursor) :
    ∀ entry ∈ schema.stream classes context steps cursor, NoBuildFault entry.1 :=
  forall_mem_stream hread steps cursor

theorem Schema.decode_noBuildFault {classes : ClassReader} {schema : Schema} {text : Bytes}
    {options : ReadOptions}
    (hread : ∀ start, NoBuildFault
      (Scan.outcome (schema.readObject classes (.root options.maxDepth)) start).1) :
    NoBuildFault (schema.decode classes text options) := by
  have hroot : schema.decode classes text options = (Scan.outcome (do
      let stored ← schema.readObject classes (.root options.maxDepth)
      Scan.finish options.allowTrailing
      return stored) (.ofText text)).1 := rfl
  rw [hroot, Scan.outcome_bind]
  have hstored := hread (.ofText text)
  rcases houtcome : Scan.outcome (schema.readObject classes (.root options.maxDepth))
    (.ofText text) with ⟨_ | stored, middle⟩
  · rw [houtcome] at hstored
    exact fun fault h => hstored fault (by cases h; rfl)
  · exact .of_failsOnSyntax (((Scan.IsSyntactic.finish _).bind fun _ => Scan.IsSyntactic.pure _) middle)

/-- Decoding never builds from a field that does not fit: with any schema that binds and whose
members nest only classes that bind below, whole documents and streams of objects; with any class
that binds below; and arrays of any element type made of such classes. -/
theorem decoding_never_misbuilds (catalog : Catalog) (text : Bytes) (options : ReadOptions) :
    (∀ className members signature schema, Schema.bind className members signature = .ok schema →
      (∀ member ∈ members, catalog.BindsTag member.tag) →
      NoBuildFault (schema.decode (catalog.reader options.maxDepth) text options) ∧
      ∀ entry ∈ schema.decodeAll (catalog.reader options.maxDepth) text options,
        NoBuildFault entry.1) ∧
    (∀ typeName, catalog.BindsBelow typeName →
      NoBuildFault (catalog.decode typeName text options)) ∧
    (∀ element tag, element.elementTag? = some tag → catalog.BindsTag tag →
      NoBuildFault (catalog.decodeArray element text options)) := by
  have hclasses := catalog.reader_isSound options.maxDepth
  refine ⟨?_, ?_, ?_⟩
  · intro className members signature schema hbind hmembers
    obtain ⟨rfl, hbound⟩ := Schema.bind_eq_ok hbind
    have hread (start : Cursor) : NoBuildFault (Scan.outcome (Schema.readObject _ _
        (.root options.maxDepth)) start).1 :=
      Schema.readObject_noBuildFault hclasses hbound hmembers start
    exact ⟨Schema.decode_noBuildFault hread, Schema.stream_noBuildFault hread _ _⟩
  · intro typeName hbinds
    obtain ⟨schema, hschema⟩ := hbinds typeName .refl
    rw [Catalog.decode, hschema]
    refine NoBuildFault.bind (.ok schema) fun found hfound => ?_
    cases hfound
    exact (Schema.decode_noBuildFault
      (Catalog.readObject_noBuildFault hclasses hbinds hschema _)).bind fun stored _ => .ok _
  · intro element tag htag hbinds
    simp only [Catalog.decodeArray, htag]
    refine NoBuildFault.bind (.of_failsOnSyntax (ArrayView.ofDocument_failsOnSyntax _ _ _)) fun view hview => ?_
    obtain ⟨span, rfl⟩ := ArrayView.eq_of_ofDocument hview
    have haccepts : (ArgType.growable element).accepts (.array tag) false = true :=
      ArgType.accepts_growable.mpr ⟨rfl, tag, rfl, ArgType.accepts_of_elementTag? htag⟩
    have harray : catalog.BindsTag (.array tag) := hbinds
    exact ArgType.build_noBuildFault hclasses harray haccepts (.inl rfl)

/-- Streams of trees, a tree without its label and an array with a number among its trees: none of
them fails for want of a field that fits. -/
theorem tree_decoding_never_misbuilds :
    (∀ entry ∈ (⟨"Node", ⟨nodeClass.members⟩, nodeClass.signature⟩ : Schema).decodeAll
        (treeCatalog.reader 128) (Bytes.ofString "\x7b\x7d") {}, NoBuildFault entry.1) ∧
    NoBuildFault (treeCatalog.decode "tree::Node" (Bytes.ofString "\x7b\x7d") {}) ∧
    NoBuildFault (treeCatalog.decodeArray (.record "tree::Node") (Bytes.ofString "[\x7b\x7d,1]")
      {}) := by
  have hempty := decoding_never_misbuilds treeCatalog (Bytes.ofString "\x7b\x7d") {}
  have harray := decoding_never_misbuilds treeCatalog (Bytes.ofString "[\x7b\x7d,1]") {}
  have hbind : Schema.bind "Node" nodeClass.members nodeClass.signature
      = .ok ⟨"Node", ⟨nodeClass.members⟩, nodeClass.signature⟩ := rfl
  refine ⟨(hempty.1 _ _ _ _ hbind fun member hmember => ?_).2,
    hempty.2.1 "tree::Node" treeCatalog_bindsBelow,
    harray.2.2 (.record "tree::Node") (.record "tree::Node") rfl ?_⟩
  · exact treeCatalog_bindsBelow.bindsTag hbind hmember
  · rintro typeName hname
    cases hname
    exact treeCatalog_bindsBelow

end SchemaJson
