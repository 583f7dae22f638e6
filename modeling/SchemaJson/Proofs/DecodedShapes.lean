import SchemaJson.Proofs.ObjectGrammar
import SchemaJson.Proofs.PairedDecoding
import SchemaJson.Proofs.TreeRefinement

/-! How the values are written that decode as a type. Every type but a class looks at the shape of a
span; a class is looked for in the text of any span, and of a string an empty object can be read. -/

namespace SchemaJson

/-- The shapes in which values of a type are written. -/
inductive Tag.Fits : Tag → Shape → Prop
  | bareNumber (kind : NumberKind) : Fits (.number kind .never) .literal
  | quotedNumber (kind : NumberKind) : Fits (.number kind .always) .string
  | bareOrQuotedNumber (kind : NumberKind) {shape : Shape} : shape = .literal ∨ shape = .string →
      Fits (.number kind .maybe) shape
  | bool : Fits .bool .literal
  | string : Fits .string .string
  | date : Fits .date .string
  | record (typeName : String) : Fits (.record typeName) .object
  | array (element : Tag) : Fits (.array element) .array

/-- The text starts with an object without members, behind blanks. -/
def OpensEmptyObject (text : Bytes) : Prop :=
  ∃ before inside rest, text = before ++ Ascii.openBrace :: (inside ++ Ascii.closeBrace :: rest) ∧
    IsBlankText before ∧ IsBlankText inside

theorem Tag.fits_of_allows {kind : NumberKind} {quoting : Quoting} {shape : Shape}
    (h : quoting.allows shape = true) : (Tag.number kind quoting).Fits shape := by
  cases quoting with
  | never =>
    rw [beq_iff_eq.mp (show (shape == .literal) = true from h)]
    exact .bareNumber kind
  | always =>
    rw [beq_iff_eq.mp (show (shape == .string) = true from h)]
    exact .quotedNumber kind
  | maybe =>
    simp only [Quoting.allows, Bool.or_eq_true, beq_iff_eq] at h
    exact .bareOrQuotedNumber kind h

theorem Span.fits_of_scalar? {span : Span} {tag : Tag} {scalar : Scalar}
    (h : span.scalar? tag = some scalar) : tag.Fits span.shape := by
  cases tag with
  | number kind quoting =>
    obtain ⟨hallows, -⟩ := Option.ite_none_right_eq_some.mp h
    exact Tag.fits_of_allows hallows
  | bool =>
    obtain ⟨hshape, -⟩ := Option.ite_none_right_eq_some.mp h
    rw [beq_iff_eq.mp hshape]
    exact .bool
  | string =>
    obtain ⟨hshape, -⟩ := Option.ite_none_right_eq_some.mp h
    rw [beq_iff_eq.mp hshape]
    exact .string
  | date =>
    obtain ⟨hshape, -⟩ := Option.ite_none_right_eq_some.mp h
    rw [beq_iff_eq.mp hshape]
    exact .date
  | record => cases h
  | array => cases h

section Captured

theorem Bytes.cut_eq_take_or_nil (ahead : Bytes) (length : Nat) :
    cut ahead length = ahead.take length ∨ cut ahead length = [] := by
  rw [cut]
  split
  · exact .inl rfl
  · exact .inr rfl

theorem Cursor.head?_capture (cursor : Cursor) (length : Nat) (shape : Shape) :
    (cursor.capture 0 length shape).text = [] ∨
      (cursor.capture 0 length shape).text.head? = cursor.peek? := by
  rw [capture, List.drop_zero]
  rcases Bytes.cut_eq_take_or_nil cursor.ahead length with hcut | hcut
  · rw [hcut, peek?]
    cases length with
    | zero => exact .inl rfl
    | succ length =>
      refine .inr ?_
      rw [List.head?_take, if_neg (Nat.succ_ne_zero length)]
  · exact .inl hcut

/-- A text that starts where it was captured is found there again without skipping blanks. -/
theorem Cursor.peek?_ofSpan_ne {start : Cursor} {span : Span} {byte : UInt8}
    (htext : span.text = [] ∨ span.text.head? = start.skipBlanks.peek?)
    (hbyte : start.skipBlanks.peek? ≠ some byte) : (ofSpan span).skipBlanks.peek? ≠ some byte := by
  obtain ⟨-, -, -, hunblank⟩ := start.exists_passes_skipBlanks
  have hspan : startsUnblank (ofSpan span).ahead := by
    intro other hother
    rw [ahead_ofSpan] at hother
    rcases htext with htext | htext
    · rw [htext] at hother
      cases hother
    · exact hunblank other (htext.symm.trans hother)
  rw [skipBlanks_of_startsUnblank hspan, peek?, ahead_ofSpan]
  rcases htext with htext | htext
  · simp [htext]
  · rwa [htext]

namespace Scan

variable {start stop : Cursor} {span : Span}

theorem Gives.of_string (h : Gives string start span stop) :
    span.shape = .string ∧ IsStringContent span.text := by
  obtain ⟨length, hquote, rfl, -⟩ := h.capture_of_string
  obtain ⟨content, rest, hahead, rfl, hcontent⟩ := unescapedQuote?_eq_some_iff.mp hquote
  refine ⟨rfl, ?_⟩
  rw [Cursor.capture, hahead]
  rcases Bytes.cut_eq_take_or_nil (content ++ Ascii.quote :: rest) content.length with hcut | hcut
  · rw [hcut, List.take_left]
    exact hcontent
  · rw [hcut]
    rfl

theorem Gives.of_bracketed {openByte closeByte : UInt8} {shape : Shape}
    {unterminated : StructureFault}
    (h : Gives (bracketed openByte closeByte shape unterminated) start span stop) :
    span.shape = shape ∧ (span.text = [] ∨ span.text.head? = start.peek?) := by
  obtain ⟨last, -, rfl, -⟩ := h.capture_of_bracketed
  exact ⟨rfl, start.head?_capture (last + 1) shape⟩

theorem Gives.of_literal (h : Gives literal start span stop) :
    span.shape = .literal ∧ (span.text = [] ∨ span.text.head? = start.peek?) := by
  obtain ⟨-, rfl, -⟩ := h.capture_of_literal
  exact ⟨rfl, start.head?_capture _ .literal⟩

/-- A captured text is the content of a string, an object, or starts like no object. -/
theorem Gives.of_value (h : Gives value start span stop) :
    (span.shape = .string ∧ IsStringContent span.text) ∨ span.shape = .object ∨
      (span.shape ≠ .string ∧ (Cursor.ofSpan span).skipBlanks.peek? ≠ some Ascii.openBrace) := by
  have hpeek {byte : UInt8} (hbyte : start.skipBlanks.peek? = some byte)
      (hbrace : byte ≠ Ascii.openBrace) : start.skipBlanks.peek? ≠ some Ascii.openBrace := by
    rw [hbyte]
    exact fun heq => hbrace (Option.some.inj heq)
  cases gives_value_iff.mp h with
  | string _ h => exact .inl h.of_string
  | array hbyte h =>
    obtain ⟨hshape, htext⟩ := h.of_bracketed
    exact .inr (.inr ⟨by simp [hshape], Cursor.peek?_ofSpan_ne htext (hpeek hbyte (by decide))⟩)
  | object _ h => exact .inr (.inl h.of_bracketed.1)
  | literal hbyte _ _ hbrace _ _ h =>
    obtain ⟨hshape, htext⟩ := h.of_literal
    exact .inr (.inr ⟨by simp [hshape], Cursor.peek?_ofSpan_ne htext (hpeek hbyte hbrace)⟩)

theorem Gives.isStringContent (h : Gives value start span stop) (hshape : span.shape = .string) :
    IsStringContent span.text := by
  rcases h.of_value with ⟨-, hcontent⟩ | hobject | ⟨hne, -⟩
  · exact hcontent
  · rw [hshape] at hobject
    cases hobject
  · exact absurd hshape hne

end Scan

end Captured

theorem isStringContent_of_isBlankText {blanks : Bytes} (h : IsBlankText blanks) :
    IsStringContent blanks := by
  induction blanks with
  | nil => rfl
  | cons byte blanks ih =>
    obtain ⟨hbyte, hblanks⟩ := List.forall_mem_cons.mp h
    refine IsStringContent.cons ?_ ?_ (ih hblanks)
    · rintro rfl
      cases hbyte
    · rintro rfl
      cases hbyte

/-- Between its quotes a string has no bare quote that a name could start with. -/
theorem IsStringContent.head?_ne_quote {front rest : Bytes} (h : IsStringContent (front ++ rest))
    (hfront : IsStringContent front) : rest.head? ≠ some Ascii.quote := by
  intro hquote
  obtain ⟨tail, rfl⟩ := List.head?_eq_some_iff.mp hquote
  rw [IsStringContent, escapeAfter?_append, hfront] at h
  simp [escapeAfter?] at h

theorem Scan.gives_objectMembers_of_isStringContent {className : String} {start stop : Cursor}
    {met : List (Bytes × Span)} (h : Gives (objectMembers className) start met stop)
    (hcontent : IsStringContent start.ahead) : met = [] ∧ OpensEmptyObject start.ahead := by
  obtain ⟨hopen, hcases⟩ := h.objectMembers_cases
  obtain ⟨before, hpasses, hbefore, -⟩ := start.exists_passes_skipBlanks
  obtain ⟨tail, htail⟩ := List.head?_eq_some_iff.mp hopen
  have hpast := Cursor.passes_advance (show _ = [Ascii.openBrace] ++ tail from htail)
  obtain ⟨inside, hinside, hblanks, -⟩ := (start.skipBlanks.advance 1).exists_passes_skipBlanks
  have hahead := (hpasses.trans (hpast.trans hinside)).ahead
  rcases hcases with ⟨hclose, rfl, -⟩ | hentries
  · obtain ⟨rest, hrest⟩ := List.head?_eq_some_iff.mp hclose
    rw [hrest] at hahead
    exact ⟨rfl, before, inside, rest, by simpa using hahead, hbefore, hblanks⟩
  · -- A first name would start with a quote, and the content has none in that place.
    exfalso
    generalize (start.skipBlanks.advance 1).skipBlanks.ahead.length = steps at hentries
    cases steps with
    | zero => exact not_gives_fail hentries
    | succ steps =>
      simp only [entries, memberEntry, gives_bind] at hentries
      obtain ⟨_, _, ⟨_, _, hname, -⟩, -⟩ := hentries
      have hquote := hname.exists_quoted.1
      rw [Cursor.skipBlanks_skipBlanks] at hquote
      have hfront : IsStringContent (before ++ ([Ascii.openBrace] ++ inside)) :=
        (isStringContent_of_isBlankText hbefore).append
          (.append rfl (isStringContent_of_isBlankText hblanks))
      rw [hahead] at hcontent
      exact hcontent.head?_ne_quote hfront hquote

/-- Without members exactly the classes are read that need none, with every argument empty. -/
theorem Tree.readArguments_nil {read : ArgType → Tag → Tree → Option Value}
    {blank : String → List Value} {members : List Member} {types : List ArgType}
    (hbound : List.Forall₂
      (fun member argument => argument.accepts member.tag member.nullable = true) members types)
    (used : List Bytes) (stored : List Value) :
    readArguments read [] used members types = some stored ↔
      (∀ member ∈ members, member.nullable = true) ∧ stored = types.map (ArgType.blank blank) := by
  induction hbound generalizing used stored with
  | nil =>
    constructor
    · intro h
      exact ⟨nofun, (Option.some.inj h).symm⟩
    · rintro ⟨-, rfl⟩
      rfl
  | @cons member type members types haccepts _ ih =>
    have htree : (if used.contains member.name then none
        else ([] : List (Bytes × Tree)).reverse.lookup member.name) = none := by
      split <;> rfl
    rw [readArguments, htree]
    cases hnullable : member.nullable with
    | true =>
      rw [hnullable] at haccepts
      obtain ⟨wrapper, content, rfl, -⟩ := ArgType.exists_of_accepts_true haccepts
      have hhead : readArgument read member.tag (.nullable wrapper content) none
          = some (.absent wrapper) := rfl
      simp only [hhead, Option.bind_eq_bind, Option.bind_some, Option.bind_eq_some_iff, ih,
        List.forall_mem_cons, hnullable, true_and, List.map_cons, ArgType.blank]
      constructor
      · rintro ⟨rest, ⟨hmembers, rfl⟩, hstored⟩
        exact ⟨hmembers, (Option.some.inj hstored).symm⟩
      · rintro ⟨hmembers, rfl⟩
        exact ⟨_, ⟨hmembers, rfl⟩, rfl⟩
    | false =>
      rw [hnullable] at haccepts
      rw [readArgument_of_accepts haccepts]
      simp [hnullable]

namespace Catalog

variable {catalog : Catalog} {levels : Nat} {typeName : String} {span : Span} {context : Context}

theorem read_succ_eq_ok_iff {stored : List Value} :
    (catalog.reader (levels + 1)).read typeName span context = .ok stored ↔
      ∃ schema, catalog.schema typeName = .ok schema ∧
        (Scan.outcome (schema.readObject (catalog.reader levels) context) (.ofSpan span)).1
          = .ok stored := by
  show (catalog.schema typeName >>= fun schema =>
    (Scan.outcome (schema.readObject (catalog.reader levels) context) (.ofSpan span)).1)
      = .ok stored ↔ _
  exact bind_eq_ok_iff

theorem read_ne_ok_of_peek? {stored : List Value}
    (h : (Cursor.ofSpan span).skipBlanks.peek? ≠ some Ascii.openBrace) :
    (catalog.reader levels).read typeName span context ≠ .ok stored := by
  cases levels with
  | zero => nofun
  | succ levels =>
    intro hread
    obtain ⟨schema, -, hobject⟩ := read_succ_eq_ok_iff.mp hread
    have hnone : (Scan.outcome (schema.readObject (catalog.reader levels) context)
        (.ofSpan span)).1.toOption = none := Schema.toOption_readObject_of_peek? h
    rw [hobject] at hnone
    cases hnone

/-- Of the content of a string, a class is read exactly where it needs no members and the content
opens an object without any. -/
theorem read_string_eq_ok_iff {stored : List Value} (hcontent : IsStringContent span.text) :
    (catalog.reader (levels + 1)).read typeName span context = .ok stored ↔
      ∃ schema, catalog.schema typeName = .ok schema ∧ OpensEmptyObject span.text ∧
        (∀ member ∈ schema.table.members, member.nullable = true) ∧
        stored = schema.signature.arguments.map (ArgType.blank catalog.blank) := by
  rw [read_succ_eq_ok_iff]
  refine exists_congr fun schema => and_congr_right fun hschema => ?_
  obtain ⟨-, -, -, hbound⟩ := schema_eq_ok hschema
  -- Without members the arguments are those that are read of no trees.
  have hnothing : schema.arguments (catalog.reader levels)
      (keptSpans [] [] schema.table.members) context = .ok stored ↔
        (∀ member ∈ schema.table.members, member.nullable = true) ∧
          stored = schema.signature.arguments.map (ArgType.blank catalog.blank) := by
    have harguments : (schema.arguments (catalog.reader levels)
        (keptSpans [] [] schema.table.members) context).toOption
        = Tree.readArguments (fun _ _ _ => none) [] [] schema.table.members
          schema.signature.arguments :=
      Schema.toOption_arguments hbound .nil (fun _ _ _ _ _ _ hfound => nomatch hfound)
    rw [← toOption_eq_some_iff, harguments]
    exact Tree.readArguments_nil hbound [] stored
  rw [Schema.outcome_readObject, Scan.memberTexts_eq]
  constructor
  · intro h
    obtain ⟨given, hgiven, harguments⟩ := bind_eq_ok_iff.mp h
    have hgives : Scan.Gives _ (Cursor.ofSpan span) given _ := Prod.ext hgiven rfl
    obtain ⟨met, hmet, rfl⟩ := Scan.gives_map.mp hgives
    obtain ⟨rfl, hopens⟩ := Scan.gives_objectMembers_of_isStringContent hmet hcontent
    rw [foldl_keep_eq] at harguments
    exact ⟨hopens, hnothing.mp harguments⟩
  · rintro ⟨⟨before, inside, rest, htext, hbefore, hinside⟩, hstored⟩
    have hahead : (Cursor.ofSpan span).ahead
        = before ++ Ascii.openBrace :: (inside ++ Ascii.closeBrace :: rest) := htext
    obtain ⟨stop, hmet, -⟩ := Scan.exists_gives_objectMembers_of_isBlankText schema.className
      hahead hbefore hinside
    have hgives := Scan.gives_map.mpr ⟨[], hmet, foldl_keep_eq schema.table []⟩
    rw [hgives]
    exact hnothing.mpr hstored

end Catalog

theorem Span.decode_record_eq_ok_iff {classes : ClassReader} {label : Bytes} {typeName : String}
    {span : Span} {context : Context} {field : Field} :
    span.decode classes label (.record typeName) context = .ok field ↔
      context.depth < context.maxDepth ∧ ∃ stored, field = .record typeName stored ∧
        classes.read typeName span ⟨context.depth + 1, context.maxDepth⟩ = .ok stored := by
  rw [decode]
  by_cases hdepth : context.depth < context.maxDepth
  · have hdeeper : context.deeper span.offset = .ok ⟨context.depth + 1, context.maxDepth⟩ :=
      if_pos hdepth
    rw [hdeeper]
    constructor
    · intro h
      obtain ⟨inner, hinner, h⟩ := bind_eq_ok_iff.mp h
      obtain ⟨stored, hread, hfield⟩ := bind_eq_ok_iff.mp h
      obtain rfl := Except.ok.inj hinner
      exact ⟨hdepth, stored, (Except.ok.inj hfield).symm, hread⟩
    · rintro ⟨-, stored, rfl, hread⟩
      exact bind_eq_ok_iff.mpr ⟨_, rfl, bind_eq_ok_iff.mpr ⟨stored, hread, rfl⟩⟩
  · rw [Context.deeper, if_neg hdepth]
    constructor
    · intro h
      cases h
    · intro h
      exact absurd h.1 hdepth

theorem Scan.Gives.fits_of_decode {catalog : Catalog} {levels : Nat} {start stop : Cursor}
    {span : Span} (h : Gives value start span stop) {label : Bytes} {tag : Tag} {context : Context}
    {field : Field} (hfield : span.decode (catalog.reader levels) label tag context = .ok field) :
    tag.Fits span.shape ∨ (span.shape = .string ∧ ∃ typeName, tag = .record typeName) := by
  by_cases hscalar : tag.scalarType?.isSome = true
  · rw [Span.decode_of_scalarType? hscalar] at hfield
    split at hfield
    next scalar hread => exact .inl (Span.fits_of_scalar? hread)
    next => cases hfield
  · cases tag with
    | record typeName =>
      obtain ⟨-, stored, -, hread⟩ := Span.decode_record_eq_ok_iff.mp hfield
      rcases h.of_value with ⟨hshape, -⟩ | hshape | ⟨-, hpeek⟩
      · exact .inr ⟨hshape, typeName, rfl⟩
      · rw [hshape]
        exact .inl (.record typeName)
      · exact absurd hread (Catalog.read_ne_ok_of_peek? hpeek)
    | array element =>
      rw [Span.decode] at hfield
      split at hfield
      next hshape =>
        rw [hshape]
        exact .inl (.array element)
      next => cases hfield
    | _ => exact absurd rfl hscalar

/-- A captured value decodes as a type only in a shape that fits it, but for one case: a string as a
class. That goes through exactly where a level is left, the class needs no member and the content
opens an object without members; the value is then the one with every argument empty. -/
theorem decoded_shape_fits (catalog : Catalog) (levels : Nat) {start stop : Cursor} {span : Span}
    (hvalue : Scan.Gives Scan.value start span stop) (label : Bytes) (context : Context) :
    (∀ tag field, span.decode (catalog.reader levels) label tag context = .ok field →
      tag.Fits span.shape ∨ (span.shape = .string ∧ ∃ typeName, tag = .record typeName)) ∧
    (span.shape = .string → ∀ typeName field,
      span.decode (catalog.reader (levels + 1)) label (.record typeName) context = .ok field ↔
        context.depth < context.maxDepth ∧ OpensEmptyObject span.text ∧
        ∃ schema, catalog.schema typeName = .ok schema ∧
          (∀ member ∈ schema.table.members, member.nullable = true) ∧
          field = .record typeName
            (schema.signature.arguments.map (ArgType.blank catalog.blank))) := by
  refine ⟨fun tag field hfield => hvalue.fits_of_decode hfield, fun hshape typeName field => ?_⟩
  rw [Span.decode_record_eq_ok_iff]
  simp only [Catalog.read_string_eq_ok_iff (hvalue.isStringContent hshape)]
  constructor
  · rintro ⟨hdepth, stored, rfl, schema, hschema, hopens, hmembers, rfl⟩
    exact ⟨hdepth, hopens, schema, hschema, hmembers, rfl⟩
  · rintro ⟨hdepth, hopens, schema, hschema, hmembers, rfl⟩
    exact ⟨hdepth, _, rfl, schema, hschema, hopens, hmembers, rfl⟩

/-- Members that may all be absent. -/
def nullablesClass : ClassDecl where
  typeName := "Nullables"
  members := [(Member.ofString "b" .bool).asNullable, (Member.ofString "s" .string).asNullable]
  signature := ⟨.direct, [.nullable .option (.scalar .bool), .nullable .option (.scalar .text)]⟩
  memberValues := [0, 1]
  blank := [.absent .option, .absent .option]

/-- The content of this string decodes, though no object was written and text is left behind it. -/
theorem quotedBraces_decode : ∃ stop,
    Scan.Gives Scan.value (.ofText (Bytes.ofString "\" \x7b\n\x7d !\""))
      ⟨Bytes.ofString " \x7b\n\x7d !", 1, .string⟩ stop ∧
    (⟨Bytes.ofString " \x7b\n\x7d !", 1, .string⟩ : Span).decode
        ((⟨[nullablesClass]⟩ : Catalog).reader 1) (Bytes.ofString "c") (.record "Nullables")
        (.root 1)
      = .ok (.record "Nullables" [.absent .option, .absent .option]) := by
  have hvalue : Scan.Gives Scan.value (.ofText (Bytes.ofString "\" \x7b\n\x7d !\""))
      ⟨Bytes.ofString " \x7b\n\x7d !", 1, .string⟩ _ := rfl
  have hblank (byte : UInt8) (h : isBlank byte = true) : IsBlankText [byte] :=
    List.forall_mem_singleton.mpr h
  have hopens : OpensEmptyObject (Bytes.ofString " \x7b\n\x7d !") :=
    ⟨[Ascii.space], [Ascii.newline], Bytes.ofString " !", rfl, hblank _ rfl, hblank _ rfl⟩
  have hdecode := (decoded_shape_fits ⟨[nullablesClass]⟩ 0 hvalue (Bytes.ofString "c") (.root 1)).2
    rfl "Nullables" (.record "Nullables" [.absent .option, .absent .option])
  exact ⟨_, hvalue, hdecode.mpr ⟨Nat.one_pos, hopens, _, rfl, by decide, rfl⟩⟩

/-- A string of two braces decodes as a class. -/
theorem string_decodes_as_class : ∃ stop field,
    Scan.Gives Scan.value (.ofText (Bytes.ofString "\"\x7b\x7d\""))
      ⟨Bytes.ofString "\x7b\x7d", 1, .string⟩ stop ∧
    (⟨Bytes.ofString "\x7b\x7d", 1, .string⟩ : Span).decode
      ((⟨[nullablesClass]⟩ : Catalog).reader 1) (Bytes.ofString "c") (.record "Nullables") (.root 1)
      = .ok field ∧
    ¬ (Tag.record "Nullables").Fits .string :=
  ⟨_, _, rfl, rfl, nofun⟩

end SchemaJson
