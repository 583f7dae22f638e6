import SchemaJson.Proofs.BindingSoundness
import SchemaJson.Proofs.KeptMembers
import SchemaJson.Proofs.SpelledValues
import SchemaJson.Proofs.TreeReading

/-! The decoder that cuts spans agrees with the decoder that reads trees. The walk over what spells
an object keeps for every declared member the text of the tree that is looked up for it, so the two
go down the declared types in step. -/

namespace SchemaJson

theorem rel_keptSpan {trees : List (Bytes × Tree)} {met : List (Bytes × Span)} (used : List Bytes)
    (name : Bytes)
    (h : List.Forall₂ (fun member met => met.1 = member.1 ∧ Captures member.2 met.2) trees met) :
    Option.Rel Captures (if used.contains name then none else trees.reverse.lookup name)
      (keptSpan met used name) := by
  rw [keptSpan]
  split
  · exact .none
  · exact rel_lookup name (List.forall₂_reverse_iff.mpr h)

theorem Captures.isNull_eq {tree : Tree} {span : Span} (h : Captures tree span) :
    span.isNull = tree.isNull := by
  cases h <;> rfl

theorem Member.toOption_decode_build {classes : ClassReader} {context : Context}
    {read : ArgType → Tag → Tree → Option Value} {member : Member} {type : ArgType}
    {tree : Option Tree} {given : Option Span}
    (haccepts : type.accepts member.tag member.nullable = true)
    (hgiven : Option.Rel Captures tree given)
    (hread : ∀ (type : ArgType) found span, type.accepts member.tag false = true →
      tree = some found → Captures found span →
      ((span.decode classes member.name member.tag context).bind (type.build classes)).toOption
        = read type member.tag found) :
    (if member.isSatisfied given then
        ((member.decode classes given context).bind (type.build classes)).toOption else none)
      = Tree.readArgument read member.tag type tree := by
  cases hnullable : member.nullable with
  | true =>
    rw [hnullable] at haccepts
    obtain ⟨wrapper, content, rfl, hcontent⟩ := ArgType.exists_of_accepts_true haccepts
    rw [if_pos (by simp [isSatisfied, hnullable])]
    cases hgiven with
    | none => rfl
    | @some found span hcaptures =>
      rw [Tree.readArgument, ← hread content found span hcontent rfl hcaptures, decode, hnullable,
        Bool.true_and, ← hcaptures.isNull_eq]
      cases span.isNull with
      | true => rfl
      | false =>
        rw [if_neg (by simp), if_neg (by simp)]
        cases hfield : span.decode classes member.name member.tag context with
        | error error => rfl
        | ok field =>
          have hnull : (ArgType.nullable wrapper content).build classes field
              = (content.build classes field).map (.present wrapper) := by
            cases field with
            | null => exact absurd (Span.hasTag_of_decode hfield) id
            | _ => rfl
          show ((ArgType.nullable wrapper content).build classes field).toOption = _
          rw [hnull, toOption_map]
          rfl
  | false =>
    rw [hnullable] at haccepts
    rw [Tree.readArgument_of_accepts haccepts]
    cases hgiven with
    | none =>
      rw [if_neg (by simp [isSatisfied, hnullable])]
      rfl
    | @some found span hcaptures =>
      rw [if_pos (by simp [isSatisfied]), decode, hnullable, Bool.false_and, if_neg (by simp)]
      exact hread type found span haccepts rfl hcaptures

theorem mem_of_lookup_used {trees : List (Bytes × Tree)} {used : List Bytes} {name : Bytes}
    {tree : Tree}
    (h : (if used.contains name then none else trees.reverse.lookup name) = some tree) :
    (name, tree) ∈ trees := by
  split at h
  · cases h
  · obtain ⟨before, after, hsplit, -⟩ := List.lookup_eq_some_iff.mp h
    rw [← List.mem_reverse, hsplit]
    simp

theorem Tree.toOption_buildAll {classes : ClassReader} {context : Context}
    {read : ArgType → Tag → Tree → Option Value} {trees : List (Bytes × Tree)}
    {met : List (Bytes × Span)} {members : List Member} {types : List ArgType}
    (hmet : List.Forall₂ (fun member met => met.1 = member.1 ∧ Captures member.2 met.2) trees met)
    (hbound : List.Forall₂ (fun member argument => argument.accepts member.tag member.nullable = true)
      members types)
    (hread : ∀ member ∈ members, ∀ (type : ArgType) found span,
      type.accepts member.tag false = true → (member.name, found) ∈ trees → Captures found span →
      ((span.decode classes member.name member.tag context).bind (type.build classes)).toOption
        = read type member.tag found) (used : List Bytes) :
    (if (members.zip (keptSpans met used members)).all (fun entry => entry.1.isSatisfied entry.2) then
        (((members.zip (keptSpans met used members)).mapM fun entry =>
          entry.1.decode classes entry.2 context) >>= ArgType.buildAll classes types).toOption
      else none) = readArguments read trees used members types := by
  induction hbound generalizing used with
  | nil => rfl
  | @cons member type members types haccepts _ ih =>
    have hhead := Member.toOption_decode_build haccepts (rel_keptSpan used member.name hmet)
      fun type found span haccepts hfound hcaptures =>
        hread member (by simp) type found span haccepts (mem_of_lookup_used hfound) hcaptures
    have hrest := ih (fun other hmem => hread other (by simp [hmem])) (member.name :: used)
    rw [readArguments, ← hhead, ← hrest, keptSpans, List.zip_cons_cons, List.all_cons]
    cases member.isSatisfied (keptSpan met used member.name) with
    | false => rfl
    | true =>
      rw [Bool.true_and, if_pos rfl, List.mapM_cons]
      cases hdecode : member.decode classes (keptSpan met used member.name) context with
      | error error =>
        split <;> rfl
      | ok field =>
        show (if _ then _ else none) = ((type.build classes field).toOption >>= fun value => _)
        generalize (members.zip (keptSpans met (member.name :: used) members)).mapM
          (fun entry => entry.1.decode classes entry.2 context) = fields
        cases (members.zip (keptSpans met (member.name :: used) members)).all
            fun entry => entry.1.isSatisfied entry.2 with
        | false => cases type.build classes field <;> rfl
        | true =>
          cases fields with
          | error error => cases type.build classes field <;> rfl
          | ok fields =>
            show (type.build classes field >>= fun value =>
                ArgType.buildAll classes types fields >>= fun stored =>
                  pure (value :: stored)).toOption
              = ((type.build classes field).toOption >>= fun value =>
                (ArgType.buildAll classes types fields).toOption >>= fun stored =>
                  some (value :: stored))
            cases type.build classes field with
            | error error => rfl
            | ok value => cases ArgType.buildAll classes types fields <;> rfl

/-- What is kept of an object builds the arguments that the object's tree fills. -/
theorem Schema.toOption_arguments {classes : ClassReader} {schema : Schema} {context : Context}
    {read : ArgType → Tag → Tree → Option Value} {trees : List (Bytes × Tree)}
    {met : List (Bytes × Span)} (hbound : schema.IsBound)
    (hmet : List.Forall₂ (fun member met => met.1 = member.1 ∧ Captures member.2 met.2) trees met)
    (hread : ∀ member ∈ schema.table.members, ∀ (type : ArgType) found span,
      type.accepts member.tag false = true → (member.name, found) ∈ trees → Captures found span →
      ((span.decode classes member.name member.tag context).bind (type.build classes)).toOption
        = read type member.tag found) :
    (schema.arguments classes (keptSpans met [] schema.table.members) context).toOption
      = Tree.readArguments read trees [] schema.table.members schema.signature.arguments := by
  rw [← Tree.toOption_buildAll hmet hbound hread [], arguments]
  cases hmissing : schema.table.missing? (keptSpans met [] schema.table.members) with
  | some member =>
    have hsome := Option.map_eq_some_iff.mp hmissing
    obtain ⟨entry, hentry, -⟩ := hsome
    have hfalse := List.find?_some hentry
    rw [if_neg]
    · rfl
    · intro hall
      have htrue := List.all_eq_true.mp hall entry (List.mem_of_find?_eq_some hentry)
      simp [htrue] at hfalse
  | none =>
    have hnone := List.find?_eq_none.mp (Option.map_eq_none_iff.mp hmissing)
    rw [if_pos]
    · rfl
    · exact List.all_eq_true.mpr fun entry hentry => by simpa using hnone entry hentry

/-- Reading what spells an object comes to its end, with the arguments that its tree fills. -/
theorem Schema.exists_outcome_readObject {classes : ClassReader} {schema : Schema}
    {context : Context} {read : ArgType → Tag → Tree → Option Value} {trees : List (Bytes × Tree)}
    {text blanks after rest : Bytes} {start : Cursor} (hbound : schema.IsBound)
    (hspells : Spells looseLexicon (.object trees) text)
    (hahead : start.ahead = blanks ++ (text ++ (after ++ rest))) (haligned : start.ahead.IsAligned)
    (hblanks : IsBlankText blanks) (hafter : IsBlankText after) (hrest : startsUnblank rest)
    (hread : ∀ member ∈ schema.table.members, ∀ (type : ArgType) found span,
      type.accepts member.tag false = true → (member.name, found) ∈ trees → Captures found span →
      ((span.decode classes member.name member.tag context).bind (type.build classes)).toOption
        = read type member.tag found) :
    ∃ result stop, Scan.outcome (schema.readObject classes context) start = (result, stop) ∧
      stop.ahead = rest ∧ result.toOption
        = Tree.readArguments read trees [] schema.table.members schema.signature.arguments := by
  obtain ⟨met, stop, hgives, hmet, hstop⟩ := Scan.exists_gives_objectMembers schema.className hspells
    hahead haligned hblanks hafter hrest
  have hgiven : Scan.Gives (Scan.memberTexts schema.table schema.className) start
      (keptSpans met [] schema.table.members) stop := by
    rw [Scan.memberTexts_eq, Scan.gives_map]
    exact ⟨met, hgives, foldl_keep_eq schema.table met⟩
  refine ⟨schema.arguments classes (keptSpans met [] schema.table.members) context, stop, ?_, hstop,
    toOption_arguments hbound hmet hread⟩
  rw [readObject, Scan.outcome_bind, hgiven]
  exact Scan.outcome_lift _ _

theorem Schema.toOption_readObject_of_peek? {classes : ClassReader} {schema : Schema}
    {context : Context} {start : Cursor} (h : start.skipBlanks.peek? ≠ some Ascii.openBrace) :
    (Scan.outcome (schema.readObject classes context) start).1.toOption = none := by
  refine toOption_eq_none fun stored hstored => ?_
  have hgives : Scan.Gives (schema.readObject classes context) start stored _ :=
    Prod.ext hstored rfl
  simp only [readObject, Scan.memberTexts_eq, Scan.gives_bind, Scan.gives_map, Scan.objectMembers,
    Scan.gives_skipBlanks, Scan.gives_get] at hgives
  obtain ⟨_, _, ⟨_, ⟨_, _, rfl, _, _, ⟨rfl, rfl⟩, hobject⟩, -⟩, -⟩ := hgives
  rw [if_neg h] at hobject
  exact Scan.not_gives_throw hobject

theorem ArrayView.fields_eq {classes : ClassReader} {view : ArrayView} {spans : List Span}
    (h : view.spans = (spans, none)) : view.fields classes = untilError
      (spans.map fun span => span.decode classes view.label view.element view.context) := by
  simp [fields, h]

namespace Catalog

theorem reader_blank (catalog : Catalog) (levels : Nat) :
    (catalog.reader levels).blank = catalog.blank := by
  cases levels <;> rfl

/-- With so many levels left, a span is read as the tree it keeps. -/
def Agrees (catalog : Catalog) (levels : Nat) : Prop :=
  ∀ type tag tree span label context readerLevels, ArgType.accepts type tag false = true →
    catalog.BindsTag tag → Captures tree span → ¬ catalog.QuotesClass tag tree →
    context.depth + levels = context.maxDepth → levels ≤ readerLevels →
    ((span.decode (catalog.reader readerLevels) label tag context).bind
      (type.build (catalog.reader readerLevels))).toOption = catalog.readTree levels type tag tree

variable {catalog : Catalog} {levels readerLevels : Nat}

theorem Agrees.members {typeName : String} {schema : Schema} {trees : List (Bytes × Tree)}
    {context : Context} (h : catalog.Agrees levels) (hbinds : catalog.BindsBelow typeName)
    (hschema : catalog.schema typeName = .ok schema)
    (hquotes : ¬ catalog.QuotesClass (.record typeName) (.object trees))
    (hdepth : context.depth + levels = context.maxDepth) (hlevels : levels ≤ readerLevels) :
    ∀ member ∈ schema.table.members, ∀ (type : ArgType) found span,
      type.accepts member.tag false = true → (member.name, found) ∈ trees → Captures found span →
      ((span.decode (catalog.reader readerLevels) member.name member.tag context).bind
        (type.build (catalog.reader readerLevels))).toOption
        = catalog.readTree levels type member.tag found := by
  intro member hmember type found span haccepts hfound hcaptures
  exact h type member.tag found span member.name context readerLevels haccepts
    (hbinds.bindsTag hschema hmember) hcaptures
    (fun hmemberQuotes => hquotes (.member hschema hmember hfound hmemberQuotes)) hdepth hlevels

/-- The text kept for a literal or an array does not start with a brace. -/
theorem peek?_ofSpan_ne_openBrace {tree : Tree} {span : Span} (h : Captures tree span)
    (hstring : ∀ raw, tree ≠ .string raw) (hobject : ∀ trees, tree ≠ .object trees) :
    (Cursor.ofSpan span).skipBlanks.peek? ≠ some Ascii.openBrace := by
  have hfirst (byte : UInt8) (tail : Bytes) (hahead : (Cursor.ofSpan span).ahead = byte :: tail)
      (hblank : isBlank byte = false) (hbrace : byte ≠ Ascii.openBrace) :
      (Cursor.ofSpan span).skipBlanks.peek? ≠ some Ascii.openBrace := by
    have hunblank : startsUnblank (Cursor.ofSpan span).ahead := by
      rw [hahead]
      exact startsUnblank_cons hblank tail
    rw [Cursor.skipBlanks_of_startsUnblank hunblank, Cursor.peek?, hahead]
    simpa using hbrace
  cases h with
  | string raw => exact absurd rfl (hstring raw)
  | @literal raw offset hraw =>
    cases raw with
    | nil => exact absurd rfl hraw.1
    | cons byte tail =>
      have hbyte := hraw.2 byte (by simp)
      simp only [isPlain, Bool.and_eq_true, Bool.not_eq_true', bne_iff_ne] at hbyte
      exact hfirst byte tail rfl (by tauto) (by tauto)
  | @array _ _ offset hspells =>
    cases hspells with
    | array => exact hfirst _ _ rfl rfl (by decide)
  | @object trees => exact absurd rfl (hobject trees)

theorem Agrees.read_record {typeName : String} {tree : Tree} {span : Span} {context : Context}
    (h : catalog.Agrees levels) (hbinds : catalog.BindsBelow typeName) (hcaptures : Captures tree span)
    (hquotes : ¬ catalog.QuotesClass (.record typeName) tree)
    (hdepth : context.depth + levels = context.maxDepth) (hlevels : levels ≤ readerLevels) :
    (((catalog.reader (readerLevels + 1)).read typeName span context).map
      (Value.record typeName)).toOption = catalog.readRecord (catalog.readTree levels) typeName tree := by
  obtain ⟨schema, hschema⟩ := hbinds typeName .refl
  obtain ⟨-, -, -, hbound⟩ := schema_eq_ok hschema
  have hread : (catalog.reader (readerLevels + 1)).read typeName span context
      = (Scan.outcome (schema.readObject (catalog.reader readerLevels) context)
          (.ofSpan span)).1 := by
    simp only [reader, hschema]
    rfl
  have hpeek := peek?_ofSpan_ne_openBrace hcaptures
  rw [hread, toOption_map]
  cases hcaptures with
  | string => exact absurd (.here typeName _) hquotes
  | literal | array =>
    rw [Schema.toOption_readObject_of_peek? (hpeek (by simp) (by simp))]
    rfl
  | @object trees text offset hspells haligned =>
    have hahead : (Cursor.ofSpan ⟨text, offset, .object⟩).ahead = [] ++ (text ++ ([] ++ [])) := by
      simp
    obtain ⟨result, stop, houtcome, -, hresult⟩ := Schema.exists_outcome_readObject hbound hspells
      hahead haligned isBlankText_nil isBlankText_nil (by simp [startsUnblank])
      (h.members hbinds hschema hquotes hdepth hlevels)
    rw [houtcome, hresult, readRecord, hschema, Option.map_eq_bind]
    rfl

theorem toOption_build_scalar {classes : ClassReader} {type : ScalarType} {tag : Tag} {tree : Tree}
    {span : Span} {label : Bytes} {context : Context}
    (haccepts : (ArgType.scalar type).accepts tag false = true) (hcaptures : Captures tree span) :
    ((span.decode classes label tag context).bind ((ArgType.scalar type).build classes)).toOption
      = catalog.readTree levels (.scalar type) tag tree := by
  obtain ⟨-, htype⟩ := ArgType.accepts_scalar.mp haccepts
  have hleaf : span.scalar? tag = tree.leaf?.bind fun leaf => leaf.scalar? tag := by
    cases hcaptures <;> cases tag with
    | number kind quoting => cases quoting <;> rfl
    | _ => rfl
  rw [Span.decode_of_scalarType? (by simp [htype])]
  rw [readTree_scalar, ← hleaf]
  cases hscalar : span.scalar? tag with
  | none => rfl
  | some scalar =>
    have hscalarType := Span.scalarType?_of_scalar? hscalar
    rw [htype, Option.some.injEq] at hscalarType
    show ((ArgType.scalar type).build classes (.scalar scalar)).toOption = _
    rw [ArgType.build, if_pos hscalarType.symm]
    rfl

theorem exists_spans_of_captures {view : ArrayView} {items : List Tree}
    (h : Captures (.array items) view.span) :
    ∃ spans, view.spans = (spans, none) ∧ List.Forall₂ Captures items spans := by
  obtain ⟨span, element, label, context⟩ := view
  cases h with
  | array offset hspells haligned =>
    obtain ⟨spans, stop, hgives, hcaptures⟩ := Scan.exists_gives_arrayValues hspells
      (show (Cursor.ofSpan ⟨_, offset, .array⟩).ahead = _ from rfl) haligned
    exact ⟨spans, congrArg Prod.fst (Scan.run_arrayElements_iff.mpr hgives), hcaptures⟩

theorem Agrees.mapM_spans {element : ArgType} {view : ArrayView} {items : List Tree}
    {spans : List Span} (h : catalog.Agrees levels)
    (haccepts : element.accepts view.element false = true)
    (hbinds : catalog.BindsTag view.element)
    (hquotes : ¬ catalog.QuotesClass (.array view.element) (.array items))
    (hdepth : view.context.depth + levels = view.context.maxDepth) (hlevels : levels ≤ readerLevels)
    (hcaptures : List.Forall₂ Captures items spans) :
    (spans.mapM fun span => ((span.decode (catalog.reader readerLevels) view.label view.element
        view.context).bind (element.build (catalog.reader readerLevels))).toOption)
      = items.mapM (catalog.readTree levels element view.element) := by
  refine mapM_congr_of_forall₂ (List.forall₂_iff_zip.mpr ⟨hcaptures.length_eq.symm, ?_⟩)
  intro span item hpair
  obtain ⟨hspan, hitem⟩ := List.of_mem_zip hpair
  refine h element view.element item span view.label view.context readerLevels haccepts hbinds ?_
    (fun hitemQuotes => hquotes (.element hitem hitemQuotes)) hdepth hlevels
  exact (List.forall₂_iff_zip.mp hcaptures.flip).2 hpair

section Arrays

variable {element : ArgType} {view : ArrayView} {items : List Tree}

theorem Agrees.build_growable (h : catalog.Agrees levels)
    (haccepts : element.accepts view.element false = true)
    (hbinds : catalog.BindsTag view.element) (hcaptures : Captures (.array items) view.span)
    (hquotes : ¬ catalog.QuotesClass (.array view.element) (.array items))
    (hdepth : view.context.depth + levels = view.context.maxDepth) (hlevels : levels ≤ readerLevels) :
    ((ArgType.growable element).build (catalog.reader readerLevels) (.array view)).toOption
      = catalog.readTree (levels + 1) (.growable element) (.array view.element) (.array items) := by
  obtain ⟨spans, hspans, hitems⟩ := exists_spans_of_captures hcaptures
  have hread := h.mapM_spans haccepts hbinds hquotes hdepth hlevels hitems
  rw [ArgType.build, toOption_map, ArrayView.fields_eq hspans, Sequence.growable, toOption_readAll,
    hread, readTree, Option.map_eq_bind]
  rfl

theorem Agrees.build_fixed {size : Nat} (h : catalog.Agrees levels)
    (haccepts : element.accepts view.element false = true)
    (hbinds : catalog.BindsTag view.element) (hcaptures : Captures (.array items) view.span)
    (hquotes : ¬ catalog.QuotesClass (.array view.element) (.array items))
    (hdepth : view.context.depth + levels = view.context.maxDepth) (hlevels : levels ≤ readerLevels) :
    ((ArgType.fixed element size).build (catalog.reader readerLevels) (.array view)).toOption
      = catalog.readTree (levels + 1) (.fixed element size) (.array view.element) (.array items) := by
  obtain ⟨spans, hspans, hitems⟩ := exists_spans_of_captures hcaptures
  have htaken : ¬ catalog.QuotesClass (.array view.element) (.array (items.take size)) := by
    rintro ⟨⟩
    next item hitemQuotes hitem =>
      exact hquotes (.element (List.mem_of_mem_take hitem) hitemQuotes)
  have hread := h.mapM_spans haccepts hbinds htaken hdepth hlevels (List.forall₂_take size hitems)
  rw [ArgType.build, toOption_map, ArrayView.fields_eq hspans, Sequence.fixed, ← List.map_take,
    take_untilError, ← List.map_take, toOption_map, toOption_readAll, hread, readTree,
    reader_blank]
  cases (items.take size).mapM (catalog.readTree levels element view.element) <;> rfl

end Arrays

/-- At the depth limit nothing with parts is read. -/
theorem toOption_decode_of_depth {classes : ClassReader} {tag : Tag} {span : Span} {label : Bytes}
    {context : Context} (htag : tag.scalarType? = none) (h : context.depth = context.maxDepth) :
    (span.decode classes label tag context).toOption = none := by
  have hdeeper : (context.deeper span.offset).toOption = none := by
    rw [Context.deeper, if_neg (by omega)]
    rfl
  cases tag with
  | record typeName =>
    rw [Span.decode, toOption_bind, hdeeper]
    rfl
  | array element =>
    rw [Span.decode]
    split
    · rw [toOption_bind, hdeeper]
      rfl
    · rfl
  | _ => cases htag

theorem agrees_zero (catalog : Catalog) : catalog.Agrees 0 := by
  intro type tag tree span label context readerLevels haccepts _ hcaptures _ hdepth _
  have hnone (htag : tag.scalarType? = none) : ((span.decode (catalog.reader readerLevels) label tag
      context).bind (type.build (catalog.reader readerLevels))).toOption = none := by
    show (_ >>= _ : Except Error Value).toOption = none
    rw [toOption_bind, toOption_decode_of_depth htag hdepth]
    rfl
  cases type with
  | scalar type => exact toOption_build_scalar haccepts hcaptures
  | record typeName =>
    obtain ⟨-, rfl⟩ := ArgType.accepts_record.mp haccepts
    rw [hnone rfl]
    rfl
  | growable element =>
    obtain ⟨-, declared, rfl, -⟩ := ArgType.accepts_growable.mp haccepts
    rw [hnone rfl]
    rfl
  | fixed element size =>
    obtain ⟨-, declared, rfl, -⟩ := ArgType.accepts_fixed.mp haccepts
    rw [hnone rfl]
    rfl
  | nullable wrapper content => cases (ArgType.accepts_nullable.mp haccepts).1

theorem Agrees.succ (h : catalog.Agrees levels) : catalog.Agrees (levels + 1) := by
  intro type tag tree span label context readerLevels haccepts hbinds hcaptures hquotes hdepth hlevels
  obtain ⟨below, rfl⟩ : ∃ below, readerLevels = below + 1 := ⟨readerLevels - 1, by omega⟩
  obtain ⟨inner, hdeeper, hinner⟩ : ∃ inner, context.deeper span.offset = .ok inner ∧
      inner.depth + levels = inner.maxDepth :=
    ⟨⟨context.depth + 1, context.maxDepth⟩, if_pos (by omega),
      by rw [← hdepth, Nat.add_right_comm, Nat.add_assoc]⟩
  -- An array view keeps the span, so what is built from it is a matter of its tree alone.
  have harray (declared : Tag) : span.decode (catalog.reader (below + 1)) label (.array declared) context
      = if span.shape = .array then .ok (.array ⟨span, declared, label, inner⟩)
        else .error (span.invalid label (.array declared)) := by
    rw [Span.decode, hdeeper]
    split <;> rfl
  cases type with
  | scalar type => exact toOption_build_scalar haccepts hcaptures
  | record typeName =>
    obtain ⟨-, rfl⟩ := ArgType.accepts_record.mp haccepts
    have hread := h.read_record (hbinds typeName rfl) hcaptures hquotes hinner
      (show levels ≤ below by omega)
    have hdecode : span.decode (catalog.reader (below + 1)) label (.record typeName) context
        = ((catalog.reader (below + 1)).read typeName span inner).map (Field.record typeName) := by
      rw [Span.decode, hdeeper]
      rfl
    rw [readTree, ← hread, hdecode]
    cases (catalog.reader (below + 1)).read typeName span inner with
    | error error => rfl
    | ok stored =>
      show ((ArgType.record typeName).build (catalog.reader (below + 1))
          (.record typeName stored)).toOption = _
      rw [ArgType.build, if_pos rfl]
      rfl
  | growable element =>
    obtain ⟨-, declared, rfl, helement⟩ := ArgType.accepts_growable.mp haccepts
    rw [harray]
    cases hcaptures with
    | array offset hspells haligned =>
      exact h.build_growable helement hbinds (.array offset hspells haligned) hquotes hinner
        (by omega)
    | _ => rfl
  | fixed element size =>
    obtain ⟨-, declared, rfl, helement⟩ := ArgType.accepts_fixed.mp haccepts
    rw [harray]
    cases hcaptures with
    | array offset hspells haligned =>
      exact h.build_fixed helement hbinds (.array offset hspells haligned) hquotes hinner
        (by omega)
    | _ => rfl
  | nullable wrapper content => cases (ArgType.accepts_nullable.mp haccepts).1

/-- Spans are read as the trees they keep, for as many levels as are left. -/
theorem agrees (catalog : Catalog) (levels : Nat) : catalog.Agrees levels := by
  induction levels with
  | zero => exact agrees_zero catalog
  | succ levels ih => exact ih.succ

end Catalog

end SchemaJson
