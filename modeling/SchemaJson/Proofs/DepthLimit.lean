import SchemaJson.Proofs.ErrorPlaces

/-! The depth limit only ever cuts a decoding off. Until it does, nothing depends on it; and since a
value is two bytes shorter than its container, no limit half as long as the document is ever exceeded. -/

namespace SchemaJson

/-- Two contexts of the same depth, the first under the limit and the second under one that is not
lower. -/
structure Context.Limits (limit : Nat) (context context' : Context) : Prop where
  depth : context'.depth = context.depth
  maxDepth : context.maxDepth = limit
  le : limit ≤ context'.maxDepth

/-- The same document decoded under the limit and under one that is not lower. -/
def limitedDecoding (limit : Nat) : Comparison where
  stops error := ∃ offset, error = .structural (.depthExceeded limit) offset
  alike error error' := error = error'
  met _ span context span' context' := span' = span ∧ context.Limits limit context'
  opened _ span context span' context' := span' = span ∧ context.Limits limit context'
  plain _ := rfl
  keeps := by
    rintro _ _ _ _ _ ⟨rfl, -⟩
    exact ⟨rfl, rfl⟩
  invalid label tag := by
    rintro ⟨rfl, -⟩
    rfl
  deeper := by
    rintro _ span context _ context' ⟨rfl, hdepth, rfl, hle⟩
    rw [Context.deeper, Context.deeper]
    split
    next hlt =>
      rw [if_pos (by omega)]
      exact .ok ⟨rfl, congrArg (· + 1) hdepth, rfl, hle⟩
    next => exact .stopped ⟨_, rfl⟩
  elements := by
    rintro _ _ _ span _ ⟨rfl, hlimits⟩ _
    constructor
    · exact List.forall₂_same.mpr fun item _ => ⟨rfl, hlimits⟩
    · cases (Scan.arrayElements.run (.ofSpan span)).1.2 with
      | none => exact .none
      | some error => exact .some rfl
  members table className := by
    rintro ⟨rfl, hlimits⟩
    refine .self (fun given _ => List.forall₂_same.mpr fun value _ => ?_) fun _ _ => rfl
    cases value with
    | none => exact .none
    | some value => exact .some ⟨rfl, hlimits⟩

theorem limitedDecoding_reads (catalog : Catalog) {low high : Nat} (h : low ≤ high) :
    (limitedDecoding low).Reads low (catalog.reader low) (catalog.reader high) := by
  obtain ⟨extra, rfl⟩ := Nat.exists_eq_add_of_le h
  refine Comparison.reads_reader catalog extra
    ⟨fun typeName {span context _ _} hopened => ?_, ?_⟩ low
  · obtain ⟨-, -, hlimit, -⟩ := hopened
    exact .stopped ⟨span.offset, by rw [hlimit]⟩
  · cases extra <;> rfl

/-- The results are the same, or the first one is that the limit was exceeded. -/
def IsCutOff {α : Type} (limit : Nat) (result other : Except Error α) : Prop :=
  result = other ∨ ∃ offset, result = .error (.structural (.depthExceeded limit) offset)

theorem IsCutOff.of_inStep {α : Type} {limit : Nat} {result other : Except Error α}
    (h : InStep (limitedDecoding limit).stops (limitedDecoding limit).alike Eq result other) :
    IsCutOff limit result other := by
  cases h with
  | ok hvalue => exact .inl (congrArg _ hvalue)
  | error halike => exact .inl (congrArg _ halike)
  | stopped hstops =>
    obtain ⟨offset, rfl⟩ := hstops
    exact .inr ⟨offset, rfl⟩

section Limits

variable {catalog : Catalog} {text : Bytes} {options : ReadOptions} {low high : Nat}

theorem isCutOff_decode (typeName : String) (h : low ≤ high) :
    IsCutOff low (catalog.decode typeName text { options with maxDepth := low })
      (catalog.decode typeName text { options with maxDepth := high }) := by
  have hlimits : Context.Limits low (.root low) (.root high) := ⟨rfl, rfl, h⟩
  refine .of_inStep (Comparison.decode_class_in_step typeName fun schema _ => ?_)
  refine Comparison.decode_in_step (limitedDecoding_reads catalog h) schema ?_ ?_
  · have hroot : (limitedDecoding low).opened (low + 1) ⟨text, 0, .object⟩ (.root low)
        ⟨text, 0, .object⟩ (.root high) := ⟨rfl, hlimits⟩
    exact (limitedDecoding low).members _ _ hroot
  · intro given stop given' stop' hgiven hgiven'
    obtain ⟨-, rfl⟩ := hgiven.unique hgiven'
    exact .self (fun _ _ => rfl) fun _ _ => rfl

theorem isCutOff_decodeArray_of_isAligned (element : ArgType) (haligned : text.IsAligned)
    (h : low ≤ high) :
    IsCutOff low (catalog.decodeArray element text { options with maxDepth := low })
      (catalog.decodeArray element text { options with maxDepth := high }) := by
  refine .of_inStep (Comparison.decodeArray_in_step element (limitedDecoding_reads catalog h) ?_)
  refine .self (fun span hspan => ?_) fun _ _ => rfl
  have hgives : Scan.Gives (Scan.documentArray options.allowTrailing) (.ofText text) span _ :=
    Prod.ext hspan rfl
  exact ⟨(hgives.exists_documentArray haligned).1, rfl, rfl, rfl, h⟩

theorem isCutOff_decodeArray (element : ArgType) (htext : text.IsText) (h : low ≤ high) :
    IsCutOff low (catalog.decodeArray element text { options with maxDepth := low })
      (catalog.decodeArray element text { options with maxDepth := high }) :=
  isCutOff_decodeArray_of_isAligned element htext.isAligned h

end Limits

/-- An array is no object. -/
theorem Span.StandsIn.not_gives_memberTexts {document : Bytes} {span : Span} {stop : Cursor}
    {table : MemberTable} {className : String} {given : List (Option Span)}
    (h : span.StandsIn document) (harray : span.shape = .array) :
    ¬ Scan.Gives (Scan.memberTexts table className) (.ofSpan span) given stop := by
  intro hgiven
  rw [Scan.memberTexts_eq, Scan.gives_map] at hgiven
  obtain ⟨met, hmet, -⟩ := hgiven
  have hbracket : (Cursor.ofSpan span).peek? = some Ascii.openBracket := h.array harray
  have hskip : (Cursor.ofSpan span).skipBlanks = .ofSpan span := by
    obtain ⟨tail, htail⟩ := List.head?_eq_some_iff.mp hbracket
    exact Cursor.skipBlanks_of_startsUnblank (htail ▸ startsUnblank_cons rfl tail)
  have hbrace := hmet.objectMembers_cases.1
  rw [hskip, hbracket] at hbrace
  cases hbrace

/-- Around a span in the document lie two bytes of it for every level above, so half as many levels
as the document has bytes are enough. The array that a document is takes a level without being read as
a class. -/
def halving (document : Bytes) : Invariant where
  fine error := error.isDepthExceeded = false
  met levels span context := span.StandsIn document ∧
    span.text.length + 2 * context.depth + 2 ≤ document.length ∧
    document.length ≤ 2 * context.maxDepth + 1 ∧ context.maxDepth ≤ levels + context.depth
  opened levels span context := span.StandsIn document ∧
    span.text.length + 2 * context.depth ≤ document.length ∧
    document.length ≤ 2 * context.maxDepth + 1 ∧
    (context.maxDepth < levels + context.depth ∨
      span.shape = .array ∧ 2 ≤ span.text.length ∧ context.maxDepth ≤ levels + context.depth)
  plain {error} h := by
    cases error with
    | structural fault offset => cases h
    | _ => rfl
  invalid label tag _ := rfl
  deeper h hdepth := by
    obtain ⟨hstands, hlength, hlimit, hlevels⟩ := h
    refine ⟨hstands, ?_, hlimit, .inl ?_⟩
    · dsimp only
      omega
    · dsimp only
      omega
  tooDeep h hdepth := by
    obtain ⟨-, hlength, hlimit, -⟩ := h
    omega
  zero h := by
    obtain ⟨-, hlength, hlimit, hlevels | ⟨-, harray, hlevels⟩⟩ := h
    · omega
    · omega
  -- A part is two bytes shorter than its container, and one level deeper.
  elements h harray hitem := by
    obtain ⟨hstands, hlength, hlimit, hlevels⟩ := h
    have hpart := (Scan.isPartOf_of_arrayElements hstands.isText.isAligned hitem).length_lt
    exact ⟨hstands.of_arrayElements hitem, by omega, hlimit, by omega⟩
  fault h harray hfault := by
    obtain ⟨cursor, -, hpoints⟩ := Scan.exists_pointsAt_of_arrayElements
      (show (Cursor.ofSpan _).ahead.IsText from h.1.isText) (h.1.array harray) hfault
    exact hpoints.isDepthExceeded
  members table className h hgiven hvalue := by
    obtain ⟨hstands, hlength, hlimit, hlevels⟩ := h
    have hpart := (Scan.isPartOf_of_memberTexts hstands.isText.isAligned hgiven hvalue).length_lt
    have hclass := fun harray => hstands.not_gives_memberTexts harray (Prod.ext hgiven rfl)
    have hnext := hlevels.resolve_right fun hroot => hclass hroot.1
    exact ⟨hstands.of_memberTexts hgiven hvalue, by omega, hlimit, by omega⟩
  noMembers table className h herror := by
    obtain ⟨cursor, -, hpoints⟩ :=
      Scan.FailsBehind.memberTexts table className h.1.isText _ herror
    exact hpoints.isDepthExceeded

section Long

variable {catalog : Catalog} {text : Bytes} {options : ReadOptions} {limit offset : Nat}

theorem decode_ne_depthExceeded_of_half (typeName : String) (htext : text.IsText)
    (hlength : text.length ≤ 2 * options.maxDepth + 1) :
    catalog.decode typeName text options
      ≠ .error (.structural (.depthExceeded limit) offset) := by
  intro h
  have hfine := (halving text).fine_of_decode ⟨Span.standsIn_document htext, Nat.le_refl _, hlength,
    .inl (Nat.lt_succ_self _)⟩ ?_ h
  · cases hfine
  · intro table className given stop error hgiven herror
    have hstop := hgiven.reaches_memberTexts htext.isAligned
    obtain ⟨cursor, -, hpoints⟩ := Scan.FailsBehind.finish options.allowTrailing hstop error herror
    exact hpoints.isDepthExceeded

theorem decodeArray_ne_depthExceeded_of_half (element : ArgType) (htext : text.IsText)
    (hlength : text.length ≤ 2 * options.maxDepth + 1) :
    catalog.decodeArray element text options
      ≠ .error (.structural (.depthExceeded limit) offset) := by
  intro h
  have hfine := (halving text).fine_of_decodeArray ?_ ?_ h
  · cases hfine
  · intro span hspan
    obtain ⟨harray, hstands⟩ := Span.standsIn_of_documentArray htext hspan
    have hbrackets : 2 ≤ span.text.length := by
      have hgives : Scan.Gives (Scan.documentArray options.allowTrailing) (.ofText text) span _ :=
        Prod.ext hspan rfl
      obtain ⟨-, -, value, rest, -, hfound, -⟩ := hgives.exists_documentArray htext.isAligned
      obtain ⟨inner, hinner, -⟩ :=
        IsFound.exists_inner (show IsFound _ _ Container.array.shape _ from harray ▸ hfound)
      simp [hinner]
    exact ⟨harray, hstands, hstands.length_le, hlength, .inr ⟨harray, hbrackets, Nat.le_refl _⟩⟩
  · intro error herror
    obtain ⟨cursor, -, hpoints⟩ :=
      Scan.FailsBehind.documentArray options.allowTrailing htext error herror
    exact hpoints.isDepthExceeded

theorem decode_ne_depthExceeded (typeName : String) (htext : text.IsText)
    (hlength : text.length ≤ options.maxDepth) :
    catalog.decode typeName text options
      ≠ .error (.structural (.depthExceeded limit) offset) :=
  decode_ne_depthExceeded_of_half typeName htext (by omega)

theorem decodeArray_ne_depthExceeded (element : ArgType) (htext : text.IsText)
    (hlength : text.length ≤ options.maxDepth) :
    catalog.decodeArray element text options
      ≠ .error (.structural (.depthExceeded limit) offset) :=
  decodeArray_ne_depthExceeded_of_half element htext (by omega)

end Long

/-- Under a lower limit a document has the same result or exceeds the limit, and it exceeds none
that is as large as its length in bytes. -/
theorem depth_limit_only_cuts_off (catalog : Catalog) (document : String) (options : ReadOptions) :
    (∀ low high, low ≤ high →
      (∀ typeName, IsCutOff low
        (catalog.decode typeName (Bytes.ofString document) { options with maxDepth := low })
        (catalog.decode typeName (Bytes.ofString document) { options with maxDepth := high })) ∧
      ∀ element, IsCutOff low
        (catalog.decodeArray element (Bytes.ofString document) { options with maxDepth := low })
        (catalog.decodeArray element (Bytes.ofString document) { options with maxDepth := high })) ∧
    ((Bytes.ofString document).length ≤ options.maxDepth → ∀ limit offset,
      (∀ typeName, catalog.decode typeName (Bytes.ofString document) options
        ≠ .error (.structural (.depthExceeded limit) offset)) ∧
      ∀ element, catalog.decodeArray element (Bytes.ofString document) options
        ≠ .error (.structural (.depthExceeded limit) offset)) := by
  have htext : (Bytes.ofString document).IsText := ⟨document, rfl⟩
  constructor
  · intro low high h
    exact ⟨fun typeName => isCutOff_decode typeName h,
      fun element => isCutOff_decodeArray element htext h⟩
  · intro hlength limit offset
    exact ⟨fun typeName => decode_ne_depthExceeded typeName htext hlength,
      fun element => decodeArray_ne_depthExceeded element htext hlength⟩

/-- A tree with one child is cut off above the child, and not at all under the usual limit. -/
theorem child_cut_off :
    treeCatalog.decode "tree::Node" (Bytes.ofString
        "\x7b\"label\":\"a\",\"children\":[\x7b\"label\":\"b\"\x7d]\x7d") { maxDepth := 1 }
      = .error (.structural (.depthExceeded 1) 25) ∧
    IsCutOff 1
      (treeCatalog.decode "tree::Node" (Bytes.ofString
        "\x7b\"label\":\"a\",\"children\":[\x7b\"label\":\"b\"\x7d]\x7d") { maxDepth := 1 })
      (treeCatalog.decode "tree::Node" (Bytes.ofString
        "\x7b\"label\":\"a\",\"children\":[\x7b\"label\":\"b\"\x7d]\x7d") { maxDepth := 2 }) ∧
    ∀ limit offset, treeCatalog.decode "tree::Node" (Bytes.ofString
        "\x7b\"label\":\"a\",\"children\":[\x7b\"label\":\"b\"\x7d]\x7d") {}
      ≠ .error (.structural (.depthExceeded limit) offset) := by
  obtain ⟨hlimits, hlong⟩ := depth_limit_only_cuts_off treeCatalog
    "\x7b\"label\":\"a\",\"children\":[\x7b\"label\":\"b\"\x7d]\x7d" {}
  have hlength : (Bytes.ofString
      "\x7b\"label\":\"a\",\"children\":[\x7b\"label\":\"b\"\x7d]\x7d").length ≤ 128 := by decide
  exact ⟨rfl, (hlimits 1 2 (by decide)).1 "tree::Node",
    fun limit offset => (hlong hlength limit offset).1 "tree::Node"⟩

end SchemaJson
