import SchemaJson.Proofs.BindingSoundness
import SchemaJson.Proofs.DocumentTrees
import SchemaJson.Proofs.FoundSpans
import SchemaJson.Proofs.MovedTexts
import SchemaJson.Proofs.StreamedObjects

/-! An array that is a document, and the same array as the only member of an object. The member has
another label and stands further on and one level deeper; its elements are the same. -/

namespace SchemaJson

section Labels

/-- The failures are the same, or each says of the same element the label of its array. -/
inductive Error.Relabeled (label label' : Bytes) : Error → Error → Prop
  | same (error : Error) : Relabeled label label' error error
  | invalidValue (expected : String) (text : Bytes) (offset : Nat) :
      Relabeled label label' (.invalidValue label expected text offset)
        (.invalidValue label' expected text offset)

inductive Field.Relabeled (label label' : Bytes) : Field → Field → Prop
  | same (field : Field) : Relabeled label label' field field
  | array (span : Span) (element : Tag) (context : Context) :
      Relabeled label label' (.array ⟨span, element, label, context⟩)
        (.array ⟨span, element, label', context⟩)

variable {label label' : Bytes} {classes : ClassReader} {field field' : Field}

theorem Field.Relabeled.typeName_eq (h : field.Relabeled label label' field') :
    field'.typeName = field.typeName := by
  cases h <;> rfl

theorem Error.Relabeled.self {α : Type} (result : Except Error α) {R : α → α → Prop}
    (h : ∀ a, R a a) : InStep (fun _ => False) (Error.Relabeled label label') R result result :=
  .self (fun a _ => h a) fun error _ => .same error

theorem decode_relabeled (span : Span) (tag : Tag) (context : Context) :
    InStep (fun _ => False) (Error.Relabeled label label') (Field.Relabeled label label')
      (span.decode classes label tag context) (span.decode classes label' tag context) := by
  cases tag with
  | record typeName => exact Error.Relabeled.self _ .same
  | array element =>
    simp only [Span.decode]
    split
    · refine (Error.Relabeled.self _ fun _ => rfl).bind fun inner inner' hinner => ?_
      rw [← hinner]
      exact .ok (.array _ _ _)
    · exact .error (.invalidValue _ _ _)
  | _ =>
    simp only [Span.decode]
    split
    · exact .ok (.same _)
    · exact .error (.invalidValue _ _ _)

theorem items_relabeled (classes : ClassReader) (span : Span) (tag : Tag) (context : Context) :
    List.Forall₂
      (InStep (fun _ => False) (Error.Relabeled label label') (Field.Relabeled label label'))
      (ArrayView.items classes ⟨span, tag, label, context⟩)
      (ArrayView.items classes ⟨span, tag, label', context⟩) := by
  refine List.rel_append ?_ ?_
  · refine List.forall₂_map_left_iff.mpr (List.forall₂_map_right_iff.mpr ?_)
    exact List.forall₂_same.mpr fun item _ => decode_relabeled item tag context
  · exact List.forall₂_same.mpr fun item _ => Error.Relabeled.self item .same

theorem build_relabeled (type : ArgType) (h : field.Relabeled label label' field') :
    InStep (fun _ => False) (Error.Relabeled label label') Eq (type.build classes field)
      (type.build classes field') := by
  induction type generalizing field field' with
  | scalar type =>
    cases h with
    | same => exact Error.Relabeled.self _ fun _ => rfl
    | array => exact .error (.same _)
  | record typeName =>
    cases h with
    | same => exact Error.Relabeled.self _ fun _ => rfl
    | array => exact .error (.same _)
  | growable element ih =>
    cases h with
    | same => exact Error.Relabeled.self _ fun _ => rfl
    | array span tag context =>
      simp only [ArgType.build, ArrayView.fields_eq_untilError]
      have hread := InStep.readAll_untilError (fun _ _ hfield => ih hfield)
        (items_relabeled classes span tag context)
      rw [List.forall₂_eq_eq_eq] at hread
      exact hread.map fun _ _ hlist => congrArg Value.list hlist
  | fixed element size ih =>
    cases h with
    | same => exact Error.Relabeled.self _ fun _ => rfl
    | array span tag context =>
      simp only [ArgType.build, ArrayView.fields_eq_untilError]
      have hread := InStep.readAll_untilError (fun _ _ hfield => ih hfield)
        (List.forall₂_take size (items_relabeled classes span tag context))
      rw [List.forall₂_eq_eq_eq, ← take_untilError, ← take_untilError, List.map_take,
        List.map_take] at hread
      refine (hread.map fun _ _ hlist => ?_).map fun _ _ hlist => congrArg Value.list hlist
      rw [hlist]
  | nullable wrapper content ih =>
    have hcontent := (ih h).map fun _ _ hvalue => congrArg (Value.present wrapper) hvalue
    cases h with
    | same => exact Error.Relabeled.self _ fun _ => rfl
    | array => exact hcontent

end Labels

section Documents

theorem IsFound.raw_eq_of_array {raw rest text : Bytes} (h : IsFound raw rest .array text) :
    raw = text := by
  generalize hshape : Shape.array = shape at h
  cases h with
  | bracketed => rfl
  | _ => cases hshape

/-- A document that is an array has nothing but blanks around it. -/
theorem Scan.Gives.exists_blanks_around {text : Bytes} {span : Span} {stop : Cursor}
    (h : Gives (documentArray false) (.ofText text) span stop) (haligned : text.IsAligned) :
    ∃ before after, text = before ++ (span.text ++ after) ∧ IsBlankText before ∧
      IsBlankText after ∧ IsFound span.text after .array span.text ∧
      span = ⟨span.text, before.length, .array⟩ := by
  have harray := (h.exists_documentArray haligned).1
  obtain ⟨-, middle, hvalue, hfinish⟩ := h.value_of_documentArray
  obtain ⟨before, raw, hpasses, hbefore, hfound, hoffset⟩ :=
    (gives_value_skipBlanks.mp hvalue).exists_isFound haligned
  rw [harray] at hfound hoffset
  obtain rfl := hfound.raw_eq_of_array
  have hplace : span.offset = before.length := by
    simpa [Cursor.offset, Cursor.ofText, openingLength] using hoffset
  refine ⟨before, middle.ahead, ?_, hbefore, hfinish.isBlankText_ahead, hfound, ?_⟩
  · simpa using hpasses.ahead
  · rw [← hplace, ← harray]

theorem Scan.exists_gives_memberTexts {text : Bytes} {met : List (Bytes × Span)}
    (h : IsObjectText 0 text [] met) (haligned : text.IsAligned) (table : MemberTable)
    (className : String) : ∃ stop,
      Gives (memberTexts table className) (.ofText text) (keptSpans met [] table.members) stop ∧
      stop.ahead = [] := by
  have hahead : (Cursor.ofText text).ahead = text ++ [] := by simp
  have hstart : IsObjectText (Cursor.ofText text).offset text [] met := h
  obtain ⟨stop, hmet, hpasses⟩ :=
    exists_gives_objectMembers_of_isObjectText className hstart hahead haligned
  refine ⟨stop, ?_, hpasses.ahead_eq (by simp)⟩
  rw [memberTexts_eq, gives_map]
  exact ⟨met, hmet, foldl_keep_eq table met⟩

/-- The array as the only member of an object is found six bytes further on. -/
theorem Scan.Gives.exists_gives_member {text : Bytes} {span : Span} {last : Cursor}
    (h : Gives (documentArray false) (.ofText text) span last) (haligned : text.IsAligned)
    (className : String) (tag : Tag) : ∃ stop,
      Gives (memberTexts ⟨[Member.ofString "xs" tag]⟩ className)
        (.ofText (Bytes.ofString "\x7b\"xs\":" ++ (text ++ [Ascii.closeBrace])))
        [some (span.moved 6)] stop ∧
      stop.ahead = [] := by
  have haligned' : (Bytes.ofString "\x7b\"xs\":" ++ (text ++ [Ascii.closeBrace])).IsAligned :=
    (Bytes.isAligned_ofString _).append (haligned.append (Bytes.isAligned_ofString "\x7d"))
  obtain ⟨before, after, rfl, hbefore, hafter, hfound, hspan⟩ := h.exists_blanks_around haligned
  have hopen : Bytes.ofString "\x7b\"xs\":" = Ascii.openBrace :: Bytes.ofString "\"xs\":" := by decide
  have hlength : (Bytes.ofString "\"xs\":").length = 5 := by decide
  have hname : IsNameText (Bytes.ofString "xs") (Bytes.ofString "\"xs\":" ++ before) :=
    @IsNameText.mk (Bytes.ofString "xs") [] [] before rfl isBlankText_nil isBlankText_nil hbefore
  have hmoved : span.moved 6 = ⟨span.text, 1 + (Bytes.ofString "\"xs\":" ++ before).length
      + openingLength .array, .array⟩ := by
    rw [hspan, Span.moved, List.length_append, hlength]
    simp only [openingLength, Span.mk.injEq, true_and, and_true]
    omega
  have hmember : IsMemberText 1 (Bytes.ofString "\"xs\":" ++ before ++ (span.text ++ after))
      [Ascii.closeBrace] (Bytes.ofString "xs", span.moved 6) := by
    rw [hmoved]
    exact .mk hname (hfound.append_rest [Ascii.closeBrace]) hafter
  have hobject : IsObjectText 0 (Bytes.ofString "\x7b\"xs\":"
      ++ (before ++ (span.text ++ after) ++ [Ascii.closeBrace])) []
      [(Bytes.ofString "xs", span.moved 6)] := by
    rw [hopen]
    simpa only [List.nil_append, List.cons_append, List.append_assoc] using
      @IsObjectText.full 0 [] _ _ _ isBlankText_nil (.last hmember)
  exact Scan.exists_gives_memberTexts hobject haligned' _ className

/-- A class whose only member is a required array. -/
structure ClassDecl.HoldsArray (decl : ClassDecl) (element : ArgType) (tag : Tag) : Prop where
  members : decl.members = [Member.ofString "xs" (.array tag)]
  arguments : decl.signature.arguments = [.growable element]

theorem ClassDecl.HoldsArray.bind_eq {decl : ClassDecl} {element : ArgType} {tag : Tag}
    (h : decl.HoldsArray element tag) (htag : element.elementTag? = some tag) :
    decl.bind = .ok
      ⟨shortName decl.typeName, ⟨[Member.ofString "xs" (.array tag)]⟩, decl.signature⟩ := by
  have haccepts := ArgType.accepts_growable_of_elementTag? htag
  simp [ClassDecl.bind, Schema.bind, Signature.fault?, Signature.arity, Signature.argumentFault?,
    h.members, h.arguments, Member.ofString, haccepts]

theorem arguments_of_array {classes : ClassReader} {schema : Schema} {element : ArgType} {tag : Tag}
    {span : Span} {limit : Nat} (hmembers : schema.table = ⟨[Member.ofString "xs" (.array tag)]⟩)
    (harguments : schema.signature.arguments = [.growable element]) (harray : span.shape = .array) :
    schema.arguments classes [some span] (.root (limit + 1)) =
      ((ArgType.growable element).build classes
        (.array ⟨span, tag, Bytes.ofString "xs", ⟨1, limit + 1⟩⟩)).map fun value => [value] := by
  have hmissing : schema.table.missing? [some span] = none := by
    simp [MemberTable.missing?, hmembers, Member.isSatisfied]
  have hfields : schema.table.fields classes [some span] (.root (limit + 1))
      = .ok [.array ⟨span, tag, Bytes.ofString "xs", ⟨1, limit + 1⟩⟩] := by
    simp only [MemberTable.fields, hmembers, List.zip_cons_cons, List.zip_nil_left]
    simp [Member.decode, Member.ofString, Span.decode, harray, Context.deeper, Context.root]
  rw [Schema.arguments, hmissing]
  show (schema.table.fields classes [some span] (.root (limit + 1)) >>= fun fields =>
    ArgType.buildAll classes schema.signature.arguments fields) = _
  rw [hfields, harguments]
  show ArgType.buildAll classes [_] [_] = _
  rw [ArgType.buildAll]
  cases (ArgType.growable element).build classes
    (.array ⟨span, tag, Bytes.ofString "xs", ⟨1, limit + 1⟩⟩) <;> rfl

/-- Decoding the object comes down to building the member. -/
theorem decode_of_array {catalog : Catalog} {typeName : String} {decl : ClassDecl} {element : ArgType}
    {tag : Tag} {text : Bytes} {span : Span} {stop : Cursor} (limit : Nat) (allowTrailing : Bool)
    (hfind : catalog.find? typeName = some decl) (hdecl : decl.HoldsArray element tag)
    (htag : element.elementTag? = some tag) (harray : span.shape = .array)
    (hmember : Scan.Gives (Scan.memberTexts ⟨[Member.ofString "xs" (.array tag)]⟩
      (shortName decl.typeName)) (.ofText text) [some span] stop) (hstop : stop.ahead = []) :
    catalog.decode typeName text ⟨limit + 1, allowTrailing⟩ =
      ((ArgType.growable element).build (catalog.reader (limit + 1))
        (.array ⟨span, tag, Bytes.ofString "xs", ⟨1, limit + 1⟩⟩)).map fun value =>
          .record typeName [value] := by
  have hschema : catalog.schema typeName = decl.bind := by rw [Catalog.schema, hfind]
  obtain ⟨last, hfinish⟩ := Scan.exists_outcome_finish allowTrailing
    (show IsBlankText stop.ahead by simp [hstop, isBlankText_nil])
  rw [Catalog.decode, hschema, hdecl.bind_eq htag]
  show (Schema.decode _ _ text ⟨limit + 1, allowTrailing⟩ >>= fun stored =>
    pure (Value.record typeName stored)) = _
  rw [Schema.decode_eq, show Scan.outcome _ _ = _ from hmember]
  show (Schema.arguments _ _ [some span] (.root (limit + 1)) >>= fun stored =>
    (Scan.outcome (Scan.finish allowTrailing) stop).1 >>= fun _ => .ok stored) >>= _ = _
  rw [arguments_of_array rfl hdecl.arguments harray, hfinish]
  cases (ArgType.growable element).build (catalog.reader (limit + 1))
    (.array ⟨span, tag, Bytes.ofString "xs", ⟨1, limit + 1⟩⟩) <;> rfl

end Documents

section Members

variable {catalog : Catalog} {typeName document : String} {decl : ClassDecl} {element : ArgType}
  {tag : Tag} {limit : Nat} {span : Span}

/-- Two results that are the same, or failures that are alike. -/
theorem InStep.ok_or_error {α : Type} {alike : Error → Error → Prop} {first second : Except Error α}
    (h : InStep (fun _ => False) alike Eq first second) :
    (∃ a, first = .ok a ∧ second = .ok a) ∨
      ∃ error error', first = .error error ∧ second = .error error' ∧ alike error error' := by
  cases h with
  | ok hab => exact .inl ⟨_, rfl, by rw [hab]⟩
  | error halike => exact .inr ⟨_, _, rfl, rfl, halike⟩
  | stopped hstops => exact hstops.elim

theorem root_array_built_like_member (distance : Nat) (label label' : Bytes) :
    (∃ items, (ArgType.growable element).build (catalog.reader limit)
        (.array ⟨span, tag, label, .root limit⟩) = .ok (.list items) ∧
      (ArgType.growable element).build (catalog.reader (limit + 1))
        (.array ⟨span.moved distance, tag, label', ⟨1, limit + 1⟩⟩) = .ok (.list items)) ∨
    ∃ error error', (ArgType.growable element).build (catalog.reader limit)
        (.array ⟨span, tag, label, .root limit⟩) = .error error ∧
      (ArgType.growable element).build (catalog.reader (limit + 1))
        (.array ⟨span.moved distance, tag, label', ⟨1, limit + 1⟩⟩) = .error error' ∧
      (error.moved distance).Relabeled label label' error' := by
  have hmoved := (@moved_growable_in_step distance catalog element tag label span limit).ok_or_error
  have hfield : Field.Relabeled label label'
      (.array ⟨span.moved distance, tag, label, ⟨1, limit + 1⟩⟩) _ := .array _ _ _
  have hlabeled :=
    (@build_relabeled _ _ (catalog.reader (limit + 1)) _ _ (.growable element) hfield).ok_or_error
  rcases hmoved with ⟨value, hroot, hsame⟩ | ⟨error, error', hroot, hsame, rfl⟩
  · obtain ⟨items, -, rfl⟩ := map_eq_ok_iff.mp hroot
    rcases hlabeled with ⟨value', hsame', hmember⟩ | ⟨error, error', hsame', -, -⟩
    · obtain rfl := Except.ok.inj (hsame.symm.trans hsame')
      exact .inl ⟨items, hroot, hmember⟩
    · cases hsame.symm.trans hsame'
  · rcases hlabeled with ⟨value', hsame', -⟩ | ⟨error', error'', hsame', hmember, hrelabeled⟩
    · cases hsame.symm.trans hsame'
    · obtain rfl := Except.error.inj (hsame.symm.trans hsame')
      exact .inr ⟨error, error'', hroot, hmember, hrelabeled⟩

/-- Decoding an array as a document and as the only member of an object gives the same elements, or it
fails for the same reason: the text stands six bytes further on, one more level is allowed there, and
an element may be one of `xs`. -/
theorem root_array_decodes_like_member {view : ArrayView} (hfind : catalog.find? typeName = some decl)
    (hdecl : decl.HoldsArray element tag) (htag : element.elementTag? = some tag)
    (hroot : ArrayView.ofDocument (Bytes.ofString document) tag ⟨limit, false⟩ = .ok view)
    (allowTrailing : Bool) :
    (∃ items, catalog.decodeArray element (Bytes.ofString document) ⟨limit, false⟩
        = .ok (.list items) ∧
      catalog.decode typeName (Bytes.ofString ("\x7b\"xs\":" ++ document ++ "\x7d"))
        ⟨limit + 1, allowTrailing⟩ = .ok (.record typeName [.list items])) ∨
    ∃ error error', catalog.decodeArray element (Bytes.ofString document) ⟨limit, false⟩
        = .error error ∧
      catalog.decode typeName (Bytes.ofString ("\x7b\"xs\":" ++ document ++ "\x7d"))
        ⟨limit + 1, allowTrailing⟩ = .error error' ∧
      (error.moved 6).Relabeled (Bytes.ofString "[]") (Bytes.ofString "xs") error' := by
  have hdocument : Bytes.ofString ("\x7b\"xs\":" ++ document ++ "\x7d")
      = Bytes.ofString "\x7b\"xs\":" ++ (Bytes.ofString document ++ [Ascii.closeBrace]) := by
    rw [Bytes.ofString_append, Bytes.ofString_append, List.append_assoc]
    rfl
  rw [ArrayView.ofDocument_eq] at hroot
  obtain ⟨span, hspan, -⟩ := bind_eq_ok_iff.mp hroot
  have hgives : Scan.Gives (Scan.documentArray false) (.ofText (Bytes.ofString document)) span _ :=
    Prod.ext hspan rfl
  have haligned := Bytes.isAligned_ofString document
  obtain ⟨stop, hmember, hstop⟩ :=
    hgives.exists_gives_member haligned (shortName decl.typeName) (.array tag)
  have harray : (span.moved 6).shape = .array := (hgives.exists_documentArray haligned).1
  have hdecode := decode_of_array limit allowTrailing hfind hdecl htag harray hmember hstop
  have hdecodeArray : catalog.decodeArray element (Bytes.ofString document) ⟨limit, false⟩
      = (ArgType.growable element).build (catalog.reader limit)
        (.array ⟨span, tag, Bytes.ofString "[]", .root limit⟩) := by
    rw [Catalog.decodeArray, htag]
    dsimp only
    rw [ArrayView.ofDocument_eq, hspan]
    rfl
  rw [hdocument, hdecodeArray, hdecode]
  rcases root_array_built_like_member 6 (Bytes.ofString "[]") (Bytes.ofString "xs") with
    ⟨items, hfirst, hsecond⟩ | ⟨error, error', hfirst, hsecond, hrelabeled⟩
  · exact .inl ⟨items, hfirst, by rw [hsecond]; rfl⟩
  · exact .inr ⟨error, error', hfirst, by rw [hsecond]; rfl, hrelabeled⟩

end Members

/-- A class that holds rows of truth values. -/
def rowsClass : ClassDecl :=
  ⟨"rows::Rows", [Member.ofString "xs" (.array (.array .bool))],
    ⟨.direct, [.growable (.growable (.scalar .bool))]⟩, [0], [.list []]⟩

def rowsCatalog : Catalog := ⟨[rowsClass]⟩

/-- One level below the root a row may hold no row, and at the root no row may be. As a document and
as the member the same text is one byte of a string that is no truth value. -/
theorem rows_decode_like_member :
    rowsCatalog.decodeArray (.growable (.scalar .bool)) (Bytes.ofString " [[f],[\"t\"]]") ⟨1, false⟩
      = .error (.invalidValue (Bytes.ofString "[]") "bool" (Bytes.ofString "t") 8) ∧
    ∃ error', rowsCatalog.decode "rows::Rows"
        (Bytes.ofString ("\x7b\"xs\":" ++ " [[f],[\"t\"]]" ++ "\x7d")) ⟨2, false⟩ = .error error' ∧
      (Error.invalidValue (Bytes.ofString "[]") "bool" (Bytes.ofString "t") 14).Relabeled
        (Bytes.ofString "[]") (Bytes.ofString "xs") error' := by
  have hdecl : rowsClass.HoldsArray (.growable (.scalar .bool)) (.array .bool) := ⟨rfl, rfl⟩
  have hfails : rowsCatalog.decodeArray (.growable (.scalar .bool))
      (Bytes.ofString " [[f],[\"t\"]]") ⟨1, false⟩
      = .error (.invalidValue (Bytes.ofString "[]") "bool" (Bytes.ofString "t") 8) := by rfl
  have hfind : rowsCatalog.find? "rows::Rows" = some rowsClass := by rfl
  have hboth := @root_array_decodes_like_member rowsCatalog "rows::Rows" " [[f],[\"t\"]]" rowsClass
    _ _ 1 _ hfind hdecl rfl rfl false
  rw [hfails] at hboth
  rcases hboth with ⟨_, hdecode, -⟩ | ⟨error, error', hdecode, hmember, hrelabeled⟩
  · cases hdecode
  · cases hdecode
    exact ⟨hfails, error', hmember, hrelabeled⟩

end SchemaJson
