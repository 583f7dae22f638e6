import SchemaJson.Proofs.KeptMembers
import SchemaJson.Proofs.Sequences

/-! Two decodings next to each other. What their spans and contexts have in common is a parameter;
if cutting up a container keeps it, whole values are decoded alike. A decoding next to itself shows
what holds of everything it meets. -/

namespace SchemaJson

/-- Two results that are related, or are both failures that are alike, unless the first run stopped
for a reason of its own. -/
inductive InStep {α β : Type} (stops : Error → Prop) (alike : Error → Error → Prop)
    (R : α → β → Prop) : Except Error α → Except Error β → Prop
  | ok {a : α} {b : β} : R a b → InStep stops alike R (.ok a) (.ok b)
  | error {first second : Error} : alike first second →
      InStep stops alike R (.error first) (.error second)
  | stopped {error : Error} {other : Except Error β} : stops error →
      InStep stops alike R (.error error) other

namespace InStep

variable {α β γ δ : Type} {stops : Error → Prop} {alike : Error → Error → Prop} {R : α → β → Prop}
  {S : γ → δ → Prop} {first : Except Error α} {second : Except Error β}

theorem self {result : Except Error α} {R : α → α → Prop} (hok : ∀ a, result = .ok a → R a a)
    (herror : ∀ error, result = .error error → alike error error) :
    InStep stops alike R result result := by
  cases result with
  | ok a => exact .ok (hok a rfl)
  | error error => exact .error (herror error rfl)

theorem bind {f : α → Except Error γ} {g : β → Except Error δ}
    (h : InStep stops alike R first second)
    (hnext : ∀ a b, R a b → InStep stops alike S (f a) (g b)) :
    InStep stops alike S (first >>= f) (second >>= g) := by
  cases h with
  | ok hab => exact hnext _ _ hab
  | error halike => exact .error halike
  | stopped hstops => exact .stopped hstops

theorem map {f : α → γ} {g : β → δ} (h : InStep stops alike R first second)
    (hnext : ∀ a b, R a b → S (f a) (g b)) : InStep stops alike S (first.map f) (second.map g) := by
  cases h with
  | ok hab => exact .ok (hnext _ _ hab)
  | error halike => exact .error halike
  | stopped hstops => exact .stopped hstops

theorem mono {R' : α → β → Prop} (h : InStep stops alike R first second)
    (hle : ∀ a b, R a b → R' a b) : InStep stops alike R' first second := by
  cases h with
  | ok hab => exact .ok (hle _ _ hab)
  | error halike => exact .error halike
  | stopped hstops => exact .stopped hstops

/-- What goes through in the first run goes through in the second. -/
theorem eq_ok {a : α} {other : Except Error α} (h : InStep stops alike Eq (.ok a) other) :
    other = .ok a := by
  cases h with
  | ok hab => rw [hab]

theorem readAll {items : List (Except Error α)} {others : List (Except Error β)}
    (h : List.Forall₂ (InStep stops alike R) items others) :
    InStep stops alike (List.Forall₂ R) (Sequence.readAll items).2 (Sequence.readAll others).2 := by
  induction h with
  | nil => exact .ok .nil
  | cons hhead _ ih =>
    cases hhead with
    | ok hab => exact ih.map fun _ _ hrest => .cons hab hrest
    | error halike => exact .error halike
    | stopped hstops => exact .stopped hstops

theorem mapM {f : γ → Except Error α} {g : δ → Except Error β} {items : List γ} {others : List δ}
    (h : List.Forall₂ (fun c d => InStep stops alike R (f c) (g d)) items others) :
    InStep stops alike (List.Forall₂ R) (items.mapM f) (others.mapM g) := by
  induction h with
  | nil => exact .ok .nil
  | cons hhead _ ih =>
    rw [List.mapM_cons, List.mapM_cons]
    exact hhead.bind fun _ _ hab => ih.bind fun _ _ hrest => .ok (.cons hab hrest)

end InStep

theorem forall₂_toList {α β : Type} {R : α → β → Prop} {first : Option α} {second : Option β}
    (h : Option.Rel R first second) : List.Forall₂ R first.toList second.toList := by
  cases h with
  | none => exact .nil
  | some hab => exact .cons hab .nil

theorem isSome_eq_of_rel {α β : Type} {R : α → β → Prop} {first : Option α} {second : Option β}
    (h : Option.Rel R first second) : second.isSome = first.isSome := by
  cases h <;> rfl

theorem rel_mono {α β : Type} {R R' : α → β → Prop} {first : Option α} {second : Option β}
    (h : Option.Rel R first second) (hle : ∀ a b, R a b → R' a b) : Option.Rel R' first second := by
  cases h with
  | none => exact .none
  | some hab => exact .some (hle _ _ hab)

/-- Items behind a failure make no difference to what is read. -/
theorem Sequence.readAll_untilError {α β : Type} (items : List (Except Error α))
    (next : α → Except Error β) :
    readAll ((ArrayView.untilError items).map (·.bind next))
      = readAll (items.map (·.bind next)) := by
  induction items with
  | nil => rfl
  | cons item items ih =>
    cases item with
    | error error => rfl
    | ok a =>
      show readAll (next a :: _) = readAll (next a :: _)
      cases next a with
      | error error => rfl
      | ok b => simp only [readAll, ih]

/-- Whatever is built alike from items that are alike is built alike from whole lists of them. -/
theorem InStep.readAll_untilError {α β γ δ : Type} {stops : Error → Prop}
    {alike : Error → Error → Prop} {R : α → β → Prop} {S : γ → δ → Prop} {build : γ → Except Error α}
    {build' : δ → Except Error β}
    (hbuild : ∀ c d, S c d → InStep stops alike R (build c) (build' d))
    {items : List (Except Error γ)} {items' : List (Except Error δ)}
    (h : List.Forall₂ (InStep stops alike S) items items') :
    InStep stops alike (List.Forall₂ R)
      (Sequence.readAll ((ArrayView.untilError items).map (·.bind build))).2
      (Sequence.readAll ((ArrayView.untilError items').map (·.bind build'))).2 := by
  have hbuilt : List.Forall₂ (InStep stops alike R) (items.map (·.bind build))
      (items'.map (·.bind build')) := by
    refine List.forall₂_map_left_iff.mpr (List.forall₂_map_right_iff.mpr (h.imp ?_))
    exact fun item item' hitem => hitem.bind hbuild
  rw [Sequence.readAll_untilError, Sequence.readAll_untilError]
  exact InStep.readAll hbuilt

/-- The elements of an array in order, and the failure that ends the walk over them. -/
def ArrayView.items (classes : ClassReader) (view : ArrayView) : List (Except Error Field) :=
  view.spans.1.map (fun span => span.decode classes view.label view.element view.context)
    ++ view.spans.2.toList.map .error

theorem ArrayView.fields_eq_untilError (classes : ClassReader) (view : ArrayView) :
    view.fields classes = untilError (view.items classes) := rfl

theorem Scan.outcome_bind_fst {α β : Type} (step : Scan α) (next : α → Scan β) (start : Cursor) :
    (outcome (step >>= next) start).1 = (outcome step start).1 >>= fun a =>
      (outcome (next a) (outcome step start).2).1 := by
  rw [outcome_bind]
  rcases outcome step start with ⟨_ | a, middle⟩ <;> rfl

theorem Schema.outcome_readObject (classes : ClassReader) (schema : Schema) (context : Context)
    (start : Cursor) : (Scan.outcome (schema.readObject classes context) start).1
      = (Scan.outcome (Scan.memberTexts schema.table schema.className) start).1 >>= fun given =>
        schema.arguments classes given context := by
  rw [readObject, Scan.outcome_bind_fst]
  simp only [Scan.outcome_lift]

/-- What follows a document is looked at last. -/
theorem Schema.decode_eq (classes : ClassReader) (schema : Schema) (text : Bytes)
    (options : ReadOptions) : schema.decode classes text options =
      (Scan.outcome (Scan.memberTexts schema.table schema.className) (.ofText text)).1 >>=
      fun given => schema.arguments classes given (.root options.maxDepth) >>= fun stored =>
      (Scan.outcome (Scan.finish options.allowTrailing)
        (Scan.outcome (Scan.memberTexts schema.table schema.className) (.ofText text)).2).1 >>=
      fun _ => .ok stored := by
  show (Scan.outcome (schema.readObject classes (.root options.maxDepth) >>= fun stored =>
    Scan.finish options.allowTrailing >>= fun _ => pure stored) (.ofText text)).1 = _
  rw [readObject, bind_assoc]
  simp only [Scan.outcome_bind_fst, Scan.outcome_lift]
  rfl

/-- The span of the array that a document is. -/
def Scan.documentArray (allowTrailing : Bool) : Scan Span := do
  skipBlanks
  let cursor ← get
  match cursor.peek? with
  | none => fail .unexpectedEnd
  | some byte =>
    if byte = Ascii.openBracket then
      let span ← value
      finish allowTrailing
      return span
    else fail (.unexpectedCharacter (cursor.char?.getD (Char.ofNat byte.toNat)))

theorem ArrayView.ofDocument_eq (text : Bytes) (element : Tag) (options : ReadOptions) :
    ofDocument text element options =
      (Scan.outcome (Scan.documentArray options.allowTrailing) (.ofText text)).1 >>= fun span =>
        .ok ⟨span, element, Bytes.ofString "[]", .root options.maxDepth⟩ := by
  have hroot : ofDocument text element options = (Scan.outcome
      (Scan.documentArray options.allowTrailing >>= fun span =>
        pure ⟨span, element, Bytes.ofString "[]", .root options.maxDepth⟩) (.ofText text)).1 := by
    simp only [ofDocument, Scan.documentArray, bind_assoc, Scan.outcome]
    congr 2
    refine congrArg ExceptT.run ?_
    congr 1
    funext _
    congr 1
    funext cursor
    cases cursor.peek? with
    | none => rfl
    | some byte =>
      dsimp only
      split
      · simp only [bind_assoc, pure_bind]
      · rfl
  rw [hroot, Scan.outcome_bind_fst]
  rfl

/-- What two decodings have in common. `met` is about a span in the context of its container, and
`opened` about a container in a context of its own, both for classes nested at most so many
levels. -/
structure Comparison where
  stops : Error → Prop
  alike : Error → Error → Prop
  met : (levels : Nat) → Span → Context → Span → Context → Prop
  opened : (levels : Nat) → Span → Context → Span → Context → Prop
  plain : ∀ {error : Error}, error.offset? = none → alike error error
  keeps : ∀ {levels span context span' context'}, met levels span context span' context' →
    span'.text = span.text ∧ span'.shape = span.shape
  invalid : ∀ {levels span context span' context'} (label : Bytes) (tag : Tag),
    met levels span context span' context' →
    alike (span.invalid label tag) (span'.invalid label tag)
  deeper : ∀ {levels span context span' context'}, met levels span context span' context' →
    InStep stops alike (fun inner inner' => opened levels span inner span' inner')
      (context.deeper span.offset) (context'.deeper span'.offset)
  elements : ∀ {levels span context span' context'}, opened levels span context span' context' →
    span.shape = .array →
    List.Forall₂ (fun item item' => met levels item context item' context')
        (Scan.arrayElements.run (.ofSpan span)).1.1 (Scan.arrayElements.run (.ofSpan span')).1.1 ∧
      Option.Rel alike (Scan.arrayElements.run (.ofSpan span)).1.2
        (Scan.arrayElements.run (.ofSpan span')).1.2
  members : ∀ {levels span context span' context'} (table : MemberTable) (className : String),
    opened (levels + 1) span context span' context' →
    InStep stops alike
      (List.Forall₂ (Option.Rel fun value value' => met levels value context value' context'))
      (Scan.outcome (Scan.memberTexts table className) (.ofSpan span)).1
      (Scan.outcome (Scan.memberTexts table className) (.ofSpan span')).1

namespace Comparison

variable (comparison : Comparison) {levels : Nat} {classes classes' : ClassReader}
  {span span' : Span} {context context' : Context}

/-- Fields that build the same values. -/
inductive Fields (levels : Nat) : Field → Field → Prop
  | null : Fields levels .null .null
  | scalar (content : Scalar) : Fields levels (.scalar content) (.scalar content)
  | array {view view' : ArrayView} : view'.element = view.element → view'.label = view.label →
      view.span.shape = .array →
      comparison.opened levels view.span view.context view'.span view'.context →
      Fields levels (.array view) (.array view')
  | record (typeName : String) (stored : List Value) :
      Fields levels (.record typeName stored) (.record typeName stored)

structure Reads (levels : Nat) (classes classes' : ClassReader) : Prop where
  read : ∀ (typeName : String) {span context span' context'},
    comparison.opened levels span context span' context' →
    InStep comparison.stops comparison.alike Eq (classes.read typeName span context)
      (classes'.read typeName span' context')
  blank : classes'.blank = classes.blank

variable {comparison}

theorem decode_span (hclasses : comparison.Reads levels classes classes')
    (hmet : comparison.met levels span context span' context') (label : Bytes) (tag : Tag) :
    InStep comparison.stops comparison.alike (comparison.Fields levels)
      (span.decode classes label tag context) (span'.decode classes' label tag context') := by
  obtain ⟨htext, hshape⟩ := comparison.keeps hmet
  have hscalar : span'.scalar? tag = span.scalar? tag := by
    cases tag <;> simp only [Span.scalar?, htext, hshape]
  have hinvalid := comparison.invalid label tag hmet
  cases tag with
  | record typeName =>
    refine (comparison.deeper hmet).bind fun inner inner' hopened => ?_
    refine (hclasses.read typeName hopened).bind fun stored stored' hstored => ?_
    rw [hstored]
    exact .ok (.record typeName stored')
  | array element =>
    simp only [Span.decode, hshape]
    split
    next harray =>
      exact (comparison.deeper hmet).bind fun inner inner' hopened =>
        .ok (.array rfl rfl harray hopened)
    next => exact .error hinvalid
  | _ =>
    simp only [Span.decode, hscalar]
    split
    next content _ => exact .ok (.scalar content)
    next => exact .error hinvalid

variable {field field' : Field}

theorem Fields.typeName_eq (h : comparison.Fields levels field field') :
    field'.typeName = field.typeName := by
  cases h <;> rfl

theorem items_in_step_of_spans {view view' : ArrayView}
    (hclasses : comparison.Reads levels classes classes') (helement : view'.element = view.element)
    (hlabel : view'.label = view.label)
    (hspans : List.Forall₂ (fun span span' =>
      comparison.met levels span view.context span' view'.context) view.spans.1 view'.spans.1)
    (hfault : Option.Rel comparison.alike view.spans.2 view'.spans.2) :
    List.Forall₂ (InStep comparison.stops comparison.alike (comparison.Fields levels))
      (view.items classes) (view'.items classes') := by
  refine List.rel_append ?_ ?_
  · rw [helement, hlabel]
    refine List.forall₂_map_left_iff.mpr (List.forall₂_map_right_iff.mpr (hspans.imp ?_))
    exact fun span span' hmet => decode_span hclasses hmet _ _
  · refine List.forall₂_map_left_iff.mpr (List.forall₂_map_right_iff.mpr ?_)
    exact (forall₂_toList hfault).imp fun _ _ halike => .error halike

theorem items_in_step {view view' : ArrayView} (hclasses : comparison.Reads levels classes classes')
    (h : comparison.Fields levels (.array view) (.array view')) :
    List.Forall₂ (InStep comparison.stops comparison.alike (comparison.Fields levels))
      (view.items classes) (view'.items classes') := by
  cases h with
  | array helement hlabel harray hopened =>
    obtain ⟨hspans, hfault⟩ := comparison.elements hopened harray
    exact items_in_step_of_spans hclasses helement hlabel hspans hfault

theorem readAll_in_step {build build' : Field → Except Error Value}
    (hbuild : ∀ {field field'}, comparison.Fields levels field field' →
      InStep comparison.stops comparison.alike Eq (build field) (build' field'))
    {items items' : List (Except Error Field)}
    (h : List.Forall₂ (InStep comparison.stops comparison.alike (comparison.Fields levels))
      items items') :
    InStep comparison.stops comparison.alike Eq
      (Sequence.readAll ((ArrayView.untilError items).map (·.bind build))).2
      (Sequence.readAll ((ArrayView.untilError items').map (·.bind build'))).2 := by
  have hread := InStep.readAll_untilError (fun _ _ hfield => hbuild hfield) h
  rwa [List.forall₂_eq_eq_eq] at hread

theorem alike_mismatch (h : comparison.Fields levels field field') (type : ArgType) :
    comparison.alike (type.mismatch field) (type.mismatch field') := by
  rw [ArgType.mismatch, ArgType.mismatch, h.typeName_eq]
  exact comparison.plain rfl

theorem build_in_step (hclasses : comparison.Reads levels classes classes') (type : ArgType)
    (h : comparison.Fields levels field field') :
    InStep comparison.stops comparison.alike Eq (type.build classes field)
      (type.build classes' field') := by
  induction type generalizing field field' with
  | scalar type =>
    have hmismatch := alike_mismatch h (.scalar type)
    cases h with
    | scalar content =>
      rw [ArgType.build, ArgType.build]
      split
      · exact .ok rfl
      · exact .error (comparison.plain rfl)
    | _ => exact .error hmismatch
  | record typeName =>
    have hmismatch := alike_mismatch h (.record typeName)
    cases h with
    | record found stored =>
      rw [ArgType.build, ArgType.build]
      split
      · exact .ok rfl
      · exact .error (comparison.plain rfl)
    | _ => exact .error hmismatch
  | growable element ih =>
    have hmismatch := alike_mismatch h (.growable element)
    cases h with
    | array helement hlabel harray hopened =>
      have hitems := items_in_step hclasses (.array helement hlabel harray hopened)
      simp only [ArgType.build, ArrayView.fields_eq_untilError]
      exact (readAll_in_step ih hitems).map fun _ _ hlist => congrArg Value.list hlist
    | _ => exact .error hmismatch
  | fixed element size ih =>
    have hmismatch := alike_mismatch h (.fixed element size)
    cases h with
    | array helement hlabel harray hopened =>
      have hitems := items_in_step hclasses (.array helement hlabel harray hopened)
      -- Elements past the size are never looked at, so only the first ones are compared.
      have hread := readAll_in_step ih (List.forall₂_take size hitems)
      rw [← take_untilError, ← take_untilError, List.map_take, List.map_take] at hread
      simp only [ArgType.build, ArrayView.fields_eq_untilError, hclasses.blank]
      refine (hread.map fun _ _ hlist => ?_).map fun _ _ hlist => congrArg Value.list hlist
      rw [hlist]
    | _ => exact .error hmismatch
  | nullable wrapper content ih =>
    have hcontent := (ih h).map fun _ _ hvalue => congrArg (Value.present wrapper) hvalue
    cases h with
    | null => exact .ok rfl
    | _ => exact hcontent

theorem buildAll_in_step (hclasses : comparison.Reads levels classes classes')
    (types : List ArgType) {fields fields' : List Field} (h : List.Forall₂ (comparison.Fields levels) fields fields') :
    InStep comparison.stops comparison.alike Eq (ArgType.buildAll classes types fields)
      (ArgType.buildAll classes' types fields') := by
  induction types generalizing fields fields' with
  | nil =>
    cases h with
    | nil => exact .ok rfl
    | cons => exact .ok rfl
  | cons type types ih =>
    cases h with
    | nil => exact .error (comparison.plain rfl)
    | cons hfield hfields =>
      refine (build_in_step hclasses type hfield).bind fun value value' hvalue => ?_
      refine (ih hfields).bind fun rest rest' hrest => ?_
      rw [hvalue, hrest]
      exact .ok rfl

/-- The texts that are given for members, in the context of their object. -/
def Given (comparison : Comparison) (levels : Nat) (context context' : Context) :
    List (Option Span) → List (Option Span) → Prop :=
  List.Forall₂ (Option.Rel fun span span' => comparison.met levels span context span' context')

theorem decode_member (hclasses : comparison.Reads levels classes classes') (member : Member)
    {given given' : Option Span}
    (h : Option.Rel (fun span span' => comparison.met levels span context span' context')
      given given') :
    InStep comparison.stops comparison.alike (comparison.Fields levels)
      (member.decode classes given context) (member.decode classes' given' context') := by
  cases h with
  | none => exact .ok .null
  | @some span span' hmet =>
    obtain ⟨htext, hshape⟩ := comparison.keeps hmet
    have hnull : span'.isNull = span.isNull := by rw [Span.isNull, Span.isNull, htext, hshape]
    simp only [Member.decode, hnull]
    split
    · exact .ok .null
    · exact decode_span hclasses hmet member.name member.tag

theorem Given.zip {given given' : List (Option Span)}
    (h : comparison.Given levels context context' given given') (members : List Member) :
    List.Forall₂ (fun entry entry' => entry'.1 = entry.1 ∧ Option.Rel (fun span span' =>
      comparison.met levels span context span' context') entry.2 entry'.2)
      (members.zip given) (members.zip given') := by
  induction h generalizing members with
  | nil => cases members <;> exact .nil
  | cons hhead _ ih =>
    cases members with
    | nil => exact .nil
    | cons member members => exact .cons ⟨rfl, hhead⟩ (ih members)

theorem Given.missing?_eq {given given' : List (Option Span)}
    (h : comparison.Given levels context context' given given') (table : MemberTable) :
    table.missing? given' = table.missing? given := by
  have hzip := h.zip table.members
  rw [MemberTable.missing?, MemberTable.missing?]
  generalize table.members.zip given = entries, table.members.zip given' = entries' at hzip ⊢
  induction hzip with
  | nil => rfl
  | @cons entry entry' _ _ hhead _ ih =>
    obtain ⟨hmember, hgiven⟩ := hhead
    have hsome := isSome_eq_of_rel hgiven
    rw [List.find?_cons, List.find?_cons, Member.isSatisfied, Member.isSatisfied, hmember, hsome]
    cases entry.1.nullable || entry.2.isSome with
    | false => exact congrArg some hmember
    | true => exact ih

theorem arguments_in_step (hclasses : comparison.Reads levels classes classes') (schema : Schema)
    {given given' : List (Option Span)}
    (h : comparison.Given levels context context' given given') :
    InStep comparison.stops comparison.alike Eq (schema.arguments classes given context)
      (schema.arguments classes' given' context') := by
  rw [Schema.arguments, Schema.arguments, h.missing?_eq]
  split
  · exact .error (comparison.plain rfl)
  · refine InStep.bind ?_ fun fields fields' hfields => buildAll_in_step hclasses _ hfields
    refine InStep.mapM ((h.zip schema.table.members).imp fun entry entry' hentry => ?_)
    rw [hentry.1]
    exact decode_member hclasses entry.1 hentry.2

theorem readObject_in_step (hclasses : comparison.Reads levels classes classes') (schema : Schema)
    {start start' : Cursor}
    (h : InStep comparison.stops comparison.alike (comparison.Given levels context context')
      (Scan.outcome (Scan.memberTexts schema.table schema.className) start).1
      (Scan.outcome (Scan.memberTexts schema.table schema.className) start').1) :
    InStep comparison.stops comparison.alike Eq
      (Scan.outcome (schema.readObject classes context) start).1
      (Scan.outcome (schema.readObject classes' context') start').1 := by
  rw [Schema.outcome_readObject, Schema.outcome_readObject]
  exact h.bind fun _ _ hgiven => arguments_in_step hclasses schema hgiven

theorem offset?_of_schema {catalog : Catalog} {typeName : String} {error : Error}
    (h : catalog.schema typeName = .error error) : error.offset? = none := by
  rw [Catalog.schema] at h
  split at h
  next decl _ =>
    rw [ClassDecl.bind, Schema.bind] at h
    split at h
    · cases h
      rfl
    · cases h
  next =>
    cases h
    rfl

/-- Classes are read alike to any depth if they are where the first reader has no levels left. -/
theorem reads_reader (catalog : Catalog) (extra : Nat)
    (hzero : comparison.Reads 0 (catalog.reader 0) (catalog.reader extra)) (levels : Nat) :
    comparison.Reads levels (catalog.reader levels) (catalog.reader (levels + extra)) := by
  -- Going into a class takes one level from either reader, so the second one stays ahead.
  induction levels with
  | zero => rwa [Nat.zero_add]
  | succ levels ih =>
    rw [Nat.add_right_comm]
    refine ⟨fun typeName {_ _ _ _} hopened => ?_, rfl⟩
    simp only [Catalog.reader]
    cases hschema : catalog.schema typeName with
    | error error => exact .error (comparison.plain (offset?_of_schema hschema))
    | ok schema =>
      exact readObject_in_step ih schema (comparison.members schema.table schema.className hopened)

section Documents

variable {text text' : Bytes} {options options' : ReadOptions}

theorem decode_in_step (hclasses : comparison.Reads levels classes classes') (schema : Schema)
    (hwalk : InStep comparison.stops comparison.alike
      (comparison.Given levels (.root options.maxDepth) (.root options'.maxDepth))
      (Scan.outcome (Scan.memberTexts schema.table schema.className) (.ofText text)).1
      (Scan.outcome (Scan.memberTexts schema.table schema.className) (.ofText text')).1)
    (hfinish : ∀ given stop given' stop',
      Scan.Gives (Scan.memberTexts schema.table schema.className) (.ofText text) given stop →
      Scan.Gives (Scan.memberTexts schema.table schema.className) (.ofText text') given' stop' →
      InStep comparison.stops comparison.alike Eq
        (Scan.outcome (Scan.finish options.allowTrailing) stop).1
        (Scan.outcome (Scan.finish options'.allowTrailing) stop').1) :
    InStep comparison.stops comparison.alike Eq (schema.decode classes text options)
      (schema.decode classes' text' options') := by
  rw [Schema.decode_eq, Schema.decode_eq]
  rcases h : Scan.outcome (Scan.memberTexts schema.table schema.className) (.ofText text) with
    ⟨result, stop⟩
  rcases h' : Scan.outcome (Scan.memberTexts schema.table schema.className) (.ofText text') with
    ⟨result', stop'⟩
  rw [h, h'] at hwalk
  cases hwalk with
  | error halike => exact .error halike
  | stopped hstops => exact .stopped hstops
  | ok hgiven =>
    refine (arguments_in_step hclasses schema hgiven).bind fun stored stored' hstored => ?_
    exact (hfinish _ _ _ _ h h').bind fun _ _ _ => .ok hstored

theorem decode_class_in_step {catalog : Catalog} (typeName : String)
    (h : ∀ schema, catalog.schema typeName = .ok schema →
      InStep comparison.stops comparison.alike Eq
        (schema.decode (catalog.reader options.maxDepth) text options)
        (schema.decode (catalog.reader options'.maxDepth) text' options')) :
    InStep comparison.stops comparison.alike Eq (catalog.decode typeName text options)
      (catalog.decode typeName text' options') := by
  rw [Catalog.decode, Catalog.decode]
  cases hschema : catalog.schema typeName with
  | error error => exact .error (comparison.plain (offset?_of_schema hschema))
  | ok schema =>
    refine (h schema hschema).bind fun stored stored' hstored => ?_
    rw [hstored]
    exact .ok rfl

theorem decodeArray_in_step {catalog : Catalog} (element : ArgType)
    (hclasses : comparison.Reads levels (catalog.reader options.maxDepth)
      (catalog.reader options'.maxDepth))
    (h : InStep comparison.stops comparison.alike (fun span span' => span.shape = .array ∧
        comparison.opened levels span (.root options.maxDepth) span' (.root options'.maxDepth))
      (Scan.outcome (Scan.documentArray options.allowTrailing) (.ofText text)).1
      (Scan.outcome (Scan.documentArray options'.allowTrailing) (.ofText text')).1) :
    InStep comparison.stops comparison.alike Eq (catalog.decodeArray element text options)
      (catalog.decodeArray element text' options') := by
  rw [Catalog.decodeArray, Catalog.decodeArray]
  cases element.elementTag? with
  | none => exact .error (comparison.plain rfl)
  | some tag =>
    simp only [ArrayView.ofDocument_eq, bind_assoc]
    refine h.bind fun span span' hspan => ?_
    have hfield : comparison.Fields levels
        (.array ⟨span, tag, Bytes.ofString "[]", .root options.maxDepth⟩)
        (.array ⟨span', tag, Bytes.ofString "[]", .root options'.maxDepth⟩) :=
      .array rfl rfl hspan.1 hspan.2
    exact build_in_step hclasses (.growable element) hfield

end Documents

end Comparison

end SchemaJson
