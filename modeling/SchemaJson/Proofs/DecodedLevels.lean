import SchemaJson.Proofs.DecodedValues
import SchemaJson.Proofs.ErrorPlaces
import SchemaJson.Proofs.WrittenLevels

/-! Decoded values written under the same limit. What was read from the text is no deeper than what
may be written, and its numbers are finite; but a fixed array is filled up with blank values, and
they were in no text. -/

namespace SchemaJson

namespace Catalog

/-- The class binds and writes every member from the argument at its own place, and so do all
classes below it. -/
def WritesInOrder (catalog : Catalog) (typeName : String) : Prop :=
  ∀ nested, Relation.ReflTransGen catalog.Nests typeName nested →
    ∃ decl schema, catalog.find? nested = some decl ∧ decl.bind = .ok schema ∧
      decl.memberValues = List.range decl.members.length

def WritesTagInOrder (catalog : Catalog) (tag : Tag) : Prop :=
  ∀ typeName ∈ tag.typeName?, catalog.WritesInOrder typeName

variable {catalog : Catalog}

theorem WritesInOrder.member {typeName : String} {decl : ClassDecl} {member : Member}
    (h : catalog.WritesInOrder typeName) (hfind : catalog.find? typeName = some decl)
    (hmember : member ∈ decl.members) : catalog.WritesTagInOrder member.tag :=
  fun _ hnested below hbelow => h below (.head ⟨decl, hfind, member, hmember, hnested⟩ hbelow)

theorem WritesInOrder.bound {typeName : String} {decl : ClassDecl}
    (h : catalog.WritesInOrder typeName) (hfind : catalog.find? typeName = some decl) :
    (∃ schema, decl.bind = .ok schema) ∧
      (∀ stored : List Value, stored.length = decl.members.length → decl.written stored = stored) ∧
      List.Forall₂ (fun member argument => argument.accepts member.tag member.nullable = true)
        decl.members decl.signature.arguments := by
  obtain ⟨decl', schema, hfind', hbind, hvalues⟩ := h typeName .refl
  obtain rfl : decl = decl' := Option.some.inj (hfind.symm.trans hfind')
  refine ⟨⟨schema, hbind⟩, fun stored hlength => ?_, ?_⟩
  · rw [ClassDecl.written, hvalues, ← hlength, filterMap_range_getElem?]
  · obtain ⟨rfl, hbound⟩ := Schema.bind_eq_ok hbind
    exact hbound

end Catalog

namespace Value

variable {catalog : Catalog} {levels : Nat} {type : ArgType} {value : Value} {tag : Tag}
  {nullable : Bool}

theorem IsBuilt.nullable_of_isAbsent (h : value.IsBuilt catalog type)
    (haccepts : type.accepts tag nullable = true) (habsent : value.isAbsent = true) :
    nullable = true := by
  cases h with
  | absent => exact (ArgType.accepts_nullable.mp haccepts).1
  | _ => cases habsent

theorem encodes_list_iff_writable {items : List Value}
    (h : ∀ item ∈ items, ∀ inner, item.Encodes catalog inner ↔ item.Writable inner) :
    (Value.list items).Encodes catalog levels ↔ (Value.list items).Writable levels := by
  rw [encodes_list, writable_list]
  exact exists_congr fun inner => and_congr_right fun _ =>
    forall₂_congr fun item hitem => h item hitem inner

/-- A value of a class that writes its members in order is kept from being written only by its depth
and its numbers. -/
theorem IsBuilt.encodes_iff (h : value.IsBuilt catalog type)
    (haccepts : type.accepts tag nullable = true) (htag : catalog.WritesTagInOrder tag) :
    value.Encodes catalog levels ↔ value.Writable levels := by
  induction h generalizing tag nullable levels with
  | scalar => rw [encodes_scalar, writable_scalar]
  | @record decl typeName stored hfind hlength hbuilt ih =>
    obtain ⟨-, rfl⟩ := ArgType.accepts_record.mp haccepts
    have hbelow := htag typeName rfl
    obtain ⟨⟨schema, hbind⟩, hwritten, hbound⟩ := hbelow.bound hfind
    have hmembers : decl.members.length = stored.length := hbound.length_eq.trans hlength
    rw [encodes_record hfind hbind, hwritten stored hmembers.symm, writable_record]
    simp only [hmembers.symm, true_and, ← forall_mem_zip_right hmembers]
    refine exists_congr fun inner => and_congr_right fun _ => forall₂_congr fun given hgiven => ?_
    -- A member without a value is nullable, since its argument could stay absent.
    obtain ⟨argument, hargument, haccepts⟩ := Catalog.exists_argument_of_mem_zip hbound hgiven
    rw [ih _ hargument haccepts (hbelow.member hfind (List.of_mem_zip hgiven).1)]
    exact and_iff_right ((hbuilt _ hargument).nullable_of_isAbsent haccepts)
  | growable _ ih =>
    obtain ⟨-, declared, rfl, helement⟩ := ArgType.accepts_growable.mp haccepts
    exact encodes_list_iff_writable fun item hitem _ => ih item hitem helement htag
  | fixed _ _ ih =>
    obtain ⟨-, declared, rfl, helement⟩ := ArgType.accepts_fixed.mp haccepts
    exact encodes_list_iff_writable fun item hitem _ => ih item hitem helement htag
  | absent wrapper content => exact iff_of_true (.absent levels wrapper) (.absent levels wrapper)
  | present wrapper _ ih =>
    rw [encodes_present, writable_present]
    exact ih (ArgType.accepts_nullable.mp haccepts).2 htag

/-- Somewhere in the value a blank value of the element type stands in a fixed array, with so many
levels left for it. -/
inductive HasBlank (catalog : Catalog) (left : Nat) (element : ArgType) :
    (levels : Nat) → ArgType → Value → Prop
  | here {size : Nat} {items : List Value} : element.blank catalog.blank ∈ items →
      HasBlank catalog left element (left + 1) (.fixed element size) (.list items)
  | growable {levels : Nat} {inner : ArgType} {items : List Value} {item : Value} : item ∈ items →
      HasBlank catalog left element levels inner item →
      HasBlank catalog left element (levels + 1) (.growable inner) (.list items)
  | fixed {levels size : Nat} {inner : ArgType} {items : List Value} {item : Value} : item ∈ items →
      HasBlank catalog left element levels inner item →
      HasBlank catalog left element (levels + 1) (.fixed inner size) (.list items)
  | present {levels : Nat} {content : ArgType} {value : Value} (wrapper : Wrapper) :
      HasBlank catalog left element levels content value →
      HasBlank catalog left element levels (.nullable wrapper content) (.present wrapper value)
  | record {levels : Nat} {schema : Schema} {typeName : String} {stored : List Value}
      {entry : ArgType × Value} : catalog.schema typeName = .ok schema →
      entry ∈ schema.signature.arguments.zip stored →
      HasBlank catalog left element levels entry.1 entry.2 →
      HasBlank catalog left element (levels + 1) (.record typeName) (.record typeName stored)

variable {left : Nat} {element : ArgType}

theorem HasBlank.writable (h : HasBlank catalog left element levels type value)
    (hvalue : value.Writable levels) : (element.blank catalog.blank).Writable left := by
  induction h with
  | here hblank =>
    cases hvalue with
    | list hitems => exact hitems _ hblank
  | growable hitem _ ih =>
    cases hvalue with
    | list hitems => exact ih (hitems _ hitem)
  | fixed hitem _ ih =>
    cases hvalue with
    | list hitems => exact ih (hitems _ hitem)
  | present wrapper _ ih => exact ih (writable_present.mp hvalue)
  | record _ hentry _ ih =>
    cases hvalue with
    | record _ hvalues => exact ih (hvalues _ (List.of_mem_zip hentry).2)

/-- What was read is shallow and finite enough by itself, so only blank values are left to see to. -/
theorem IsRead.writable (h : value.IsRead catalog levels type)
    (hblanks : ∀ left element, HasBlank catalog left element levels type value →
      (element.blank catalog.blank).Writable left) : value.Writable levels := by
  induction h with
  | scalar levels _ hfinite => exact .scalar levels hfinite
  | record hschema hlength _ ih =>
    refine .record _ ((forall_mem_zip_right hlength).mp fun entry hentry => ?_)
    exact ih entry hentry fun left element hblank =>
      hblanks left element (.record hschema hentry hblank)
  | growable _ ih =>
    exact .list fun item hitem => ih item hitem fun left element hblank =>
      hblanks left element (.growable hitem hblank)
  | fixed _ _ ih =>
    refine .list fun item hitem => ?_
    rcases List.mem_append.mp hitem with hread | hblank
    · exact ih item hread fun left element hblank => hblanks left element (.fixed hitem hblank)
    · obtain rfl := List.eq_of_mem_replicate hblank
      exact hblanks _ _ (.here hitem)
  | absent levels wrapper => exact .absent levels wrapper
  | present wrapper _ ih =>
    exact .present wrapper (ih fun left element hblank =>
      hblanks left element (.present wrapper hblank))

theorem IsRead.encodes_iff (h : value.IsRead catalog levels type)
    (haccepts : type.accepts tag nullable = true) (htag : catalog.WritesTagInOrder tag)
    (hblanks : catalog.BlanksTag tag) :
    value.Encodes catalog levels ↔ ∀ left element, HasBlank catalog left element levels type value →
      (element.blank catalog.blank).Writable left := by
  rw [(h.isBuilt haccepts hblanks).encodes_iff haccepts htag]
  exact ⟨fun hvalue left element hblank => hblank.writable hvalue, h.writable⟩

end Value

/-- Whether every fixed array of the type holds values without parts. -/
def ArgType.fillsScalars : ArgType → Bool
  | scalar _ => true
  | record _ => true
  | growable element => element.fillsScalars
  | fixed (scalar _) _ => true
  | fixed _ _ => false
  | nullable _ content => content.fillsScalars

namespace Catalog

variable {catalog : Catalog} {text : Bytes} {options : ReadOptions} {value : Value}

/-- Every fixed array that the class or a class below it stores holds values without parts. -/
def FillsScalars (catalog : Catalog) (typeName : String) : Prop :=
  ∀ nested, Relation.ReflTransGen catalog.Nests typeName nested →
    ∀ schema, catalog.schema nested = .ok schema →
      ∀ argument ∈ schema.signature.arguments, argument.fillsScalars = true

theorem writable_of_fillsScalars {left levels : Nat} {element type : ArgType} {tag : Tag}
    {nullable : Bool} (h : Value.HasBlank catalog left element levels type value)
    (hfills : type.fillsScalars = true) (haccepts : type.accepts tag nullable = true)
    (hclasses : ∀ typeName ∈ tag.typeName?, catalog.FillsScalars typeName) :
    (element.blank catalog.blank).Writable left := by
  induction h generalizing tag nullable with
  | here =>
    cases element with
    | scalar type => exact .scalar left type.isFinite_blank
    | _ => cases hfills
  | growable _ _ ih =>
    obtain ⟨-, declared, rfl, helement⟩ := ArgType.accepts_growable.mp haccepts
    exact ih hfills helement hclasses
  | @fixed _ _ inner _ _ _ hblank ih =>
    cases inner with
    | scalar => cases hblank
    | _ => cases hfills
  | present _ _ ih => exact ih hfills (ArgType.accepts_nullable.mp haccepts).2 hclasses
  | @record _ schema typeName _ entry hschema hentry _ ih =>
    obtain ⟨-, rfl⟩ := ArgType.accepts_record.mp haccepts
    have hbelow := hclasses typeName rfl
    have hargument := (List.of_mem_zip hentry).1
    obtain ⟨decl, hfind, hdecl, hbound⟩ := schema_eq_ok hschema
    obtain ⟨member, hmember, haccepts⟩ := hbound.exists_member hargument
    refine ih (hbelow typeName .refl schema hschema _ hargument) haccepts fun nested hnested below
      hreaches => hbelow below (.head ⟨decl, hfind, member, ?_, hnested⟩ hreaches)
    rwa [hdecl] at hmember

theorem isRead_of_decodeArray {element : ArgType} (htext : text.IsText)
    (h : catalog.decodeArray element text options = .ok value) :
    value.IsRead catalog (options.maxDepth + 1) (.growable element) := by
  rw [decodeArray] at h
  split at h
  next tag htag =>
    obtain ⟨view, hview, hbuild⟩ := bind_eq_ok_iff.mp h
    rw [ArrayView.ofDocument_eq] at hview
    obtain ⟨span, hspan, hview⟩ := bind_eq_ok_iff.mp hview
    cases hview
    obtain ⟨-, hstands⟩ := Span.standsIn_of_documentArray htext hspan
    have hfield : Field.IsRead catalog (options.maxDepth + 1)
        (.array ⟨span, tag, Bytes.ofString "[]", .root options.maxDepth⟩) := ⟨hstands.isText, rfl⟩
    exact ArgType.isRead_of_build (catalog.reader_builds _) hfield hbuild
  next => cases h

end Catalog

/-- A value that was decoded can be written under the same limit exactly when the blank values that
fill up its fixed arrays can be: their numbers are finite and they are not too deep. So it always
can if fixed arrays hold values without parts only. The same holds for arrays. -/
theorem decoded_values_encode {catalog : Catalog} {document : String} {options : ReadOptions}
    {writeOptions : WriteOptions} (hdepth : writeOptions.maxDepth = options.maxDepth) :
    (∀ typeName value, catalog.WritesInOrder typeName → catalog.BlanksBelow typeName →
      catalog.decode typeName (Bytes.ofString document) options = .ok value →
      ((∃ text, catalog.encode value writeOptions = .ok text) ↔ ∀ left element,
        Value.HasBlank catalog left element (options.maxDepth + 1) (.record typeName) value →
        (element.blank catalog.blank).Writable left) ∧
      (catalog.FillsScalars typeName → ∃ text, catalog.encode value writeOptions = .ok text)) ∧
    ∀ type tag value, type.elementTag? = some tag → catalog.WritesTagInOrder tag →
      catalog.BlanksTag tag →
      catalog.decodeArray type (Bytes.ofString document) options = .ok value →
      ∃ items, value = .list items ∧
        ((∃ text, catalog.encodeArray items writeOptions = .ok text) ↔ ∀ left element,
          Value.HasBlank catalog left element (options.maxDepth + 1) (.growable type) value →
          (element.blank catalog.blank).Writable left) ∧
        (type.fillsScalars = true → (∀ typeName ∈ tag.typeName?, catalog.FillsScalars typeName) →
          ∃ text, catalog.encodeArray items writeOptions = .ok text) := by
  have htext : (Bytes.ofString document).IsText := ⟨document, rfl⟩
  constructor
  · intro typeName value horder hblanks hdecode
    have haccepts := ArgType.accepts_record_self typeName
    have hencode := (Catalog.isRead_of_decode htext hdecode).encodes_iff haccepts
      (by rintro _ ⟨⟩; exact horder) (by rintro _ ⟨⟩; exact hblanks)
    rw [← hdepth, ← Catalog.encode_succeeds_iff] at hencode
    rw [← hdepth]
    refine ⟨hencode, fun hfills => hencode.mpr fun left element hblank => ?_⟩
    refine Catalog.writable_of_fillsScalars hblank rfl haccepts ?_
    rintro _ ⟨⟩
    exact hfills
  · intro type tag value htag horder hblanks hdecode
    have haccepts := ArgType.accepts_growable_of_elementTag? htag
    have hread := Catalog.isRead_of_decodeArray htext hdecode
    have hencode := hread.encodes_iff haccepts horder hblanks
    rw [← hdepth, ← Catalog.encode_succeeds_iff] at hencode
    rw [← hdepth]
    cases hread with
    | growable =>
      refine ⟨_, rfl, hencode, fun hfills hclasses => hencode.mpr fun left element hblank => ?_⟩
      exact Catalog.writable_of_fillsScalars hblank hfills haccepts hclasses

def gridClass : ClassDecl where
  typeName := "math::Grid"
  members := [.ofString "rows" (.array (.array (.number (.integer .i16) .never)))]
  signature := ⟨.direct, [.fixed (.fixed (.scalar (.number (.integer .i16))) 2) 2]⟩
  memberValues := [0]
  blank := [.list (List.replicate 2 (.list (List.replicate 2 (.scalar (.integer .i16 0)))))]

def gridCatalog : Catalog := ⟨[gridClass]⟩

theorem gridCatalog_reaches {nested : String}
    (h : Relation.ReflTransGen gridCatalog.Nests "math::Grid" nested) : nested = "math::Grid" :=
  Catalog.eq_of_reaches (rfl : gridCatalog.find? "math::Grid" = some gridClass)
    (List.forall_mem_singleton.mpr rfl) h

theorem gridCatalog_writesInOrder : gridCatalog.WritesInOrder "math::Grid" := by
  intro nested hreaches
  rw [gridCatalog_reaches hreaches]
  exact ⟨gridClass, _, rfl, rfl, rfl⟩

theorem gridCatalog_blanksBelow : gridCatalog.BlanksBelow "math::Grid" := by
  intro nested hreaches
  rw [gridCatalog_reaches hreaches]
  have hzero : Value.IsBuilt gridCatalog (.scalar (.number (.integer .i16)))
      (.scalar (.integer .i16 0)) := @Value.IsBuilt.scalar gridCatalog (.integer .i16 0) rfl
  refine .record rfl rfl (List.forall_mem_singleton.mpr (.fixed rfl fun row hrow => ?_))
  rw [List.eq_of_mem_replicate hrow]
  refine .fixed rfl fun number hnumber => ?_
  rwa [List.eq_of_mem_replicate hnumber]

def shortGrid : Value := .record "math::Grid" [.list
  [.list [.scalar (.integer .i16 7), .scalar (.integer .i16 0)],
    .list [.scalar (.integer .i16 0), .scalar (.integer .i16 0)]]]

/-- A grid of which a row is given can be written again, so that the rows filled in are not too
deep. -/
theorem short_grid_encodes :
    gridCatalog.decode "math::Grid" (Bytes.ofString "\x7b\"rows\":[[7]]\x7d") { maxDepth := 2 }
      = .ok shortGrid ∧
    gridCatalog.encode shortGrid { maxDepth := 2 }
      = .ok (Bytes.ofString "\x7b\"rows\":[[7,0],[0,0]]\x7d") ∧
    ∀ left element, Value.HasBlank gridCatalog left element 3 (.record "math::Grid") shortGrid →
      (element.blank gridCatalog.blank).Writable left := by
  have hdecode : gridCatalog.decode "math::Grid" (Bytes.ofString "\x7b\"rows\":[[7]]\x7d")
      { maxDepth := 2 } = .ok shortGrid := rfl
  have hencode : gridCatalog.encode shortGrid { maxDepth := 2 }
      = .ok (Bytes.ofString "\x7b\"rows\":[[7,0],[0,0]]\x7d") :=
    toOption_eq_some_iff.mp (by decide +kernel)
  obtain ⟨hclasses, -⟩ := @decoded_values_encode gridCatalog "\x7b\"rows\":[[7]]\x7d"
    { maxDepth := 2 } { maxDepth := 2 } rfl
  exact ⟨hdecode, hencode, (hclasses "math::Grid" shortGrid gridCatalog_writesInOrder
    gridCatalog_blanksBelow hdecode).1.mp ⟨_, hencode⟩⟩

/-- A class whose blank value is not a number. -/
def readingClass : ClassDecl where
  typeName := "lab::Reading"
  members := [.ofString "value" (.number (.float .double) .never)]
  signature := ⟨.direct, [.scalar (.number (.float .double))]⟩
  memberValues := [0]
  blank := [.scalar (.float .double 0x7ff8000000000000)]

def seriesClass : ClassDecl where
  typeName := "lab::Series"
  members := [.ofString "readings" (.array (.record "lab::Reading"))]
  signature := ⟨.direct, [.fixed (.record "lab::Reading") 1]⟩
  memberValues := [0]
  blank := [.list [.record "lab::Reading" readingClass.blank]]

def seriesCatalog : Catalog := ⟨[seriesClass, readingClass]⟩

def blankSeries : Value := .record "lab::Series" seriesClass.blank

theorem seriesCatalog_reaches {nested : String}
    (h : Relation.ReflTransGen seriesCatalog.Nests "lab::Series" nested) :
    nested = "lab::Series" ∨ nested = "lab::Reading" := by
  have hclosed : ∀ typeName ∈ ["lab::Series", "lab::Reading"], ∀ nested,
      seriesCatalog.Nests typeName nested → nested ∈ ["lab::Series", "lab::Reading"] := by
    rintro typeName hmem nested ⟨decl, hfind, member, hmember, hnested⟩
    simp only [List.mem_cons, List.not_mem_nil, or_false] at hmem
    rcases hmem with rfl | rfl
    · cases hfind
      rw [List.mem_singleton.mp hmember] at hnested
      cases hnested
      simp
    · cases hfind
      rw [List.mem_singleton.mp hmember] at hnested
      cases hnested
  simpa using Catalog.mem_of_reaches hclosed (by simp) h

/-- Rows that no text was as deep as are filled in, and a value that no text holds: neither grid nor
series can be written under the limit they were decoded under. -/
theorem filled_arrays_fail_to_encode :
    (gridCatalog.WritesInOrder "math::Grid" ∧
      gridCatalog.decode "math::Grid" (Bytes.ofString "\x7b\"rows\":[]\x7d") { maxDepth := 1 }
        = .ok (.record "math::Grid" gridClass.blank) ∧
      gridCatalog.encode (.record "math::Grid" gridClass.blank) { maxDepth := 1 }
        = .error (.encode (.depthExceeded 1))) ∧
    seriesCatalog.WritesInOrder "lab::Series" ∧
      seriesCatalog.decode "lab::Series" (Bytes.ofString "\x7b\"readings\":[]\x7d") {}
        = .ok blankSeries ∧
      seriesCatalog.encode blankSeries {} = .error (.encode (.notFinite "NaN")) := by
  refine ⟨⟨gridCatalog_writesInOrder, rfl, rfl⟩, ?_, rfl, rfl⟩
  intro nested hreaches
  rcases seriesCatalog_reaches hreaches with rfl | rfl
  · exact ⟨seriesClass, _, rfl, rfl, rfl⟩
  · exact ⟨readingClass, _, rfl, rfl, rfl⟩

end SchemaJson
