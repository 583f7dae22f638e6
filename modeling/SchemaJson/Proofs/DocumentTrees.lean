import SchemaJson.Proofs.TreeRefinement

/-! Whole documents as the trees they spell: what is decoded from a document is what its tree
holds, and nothing is decoded where the tree holds nothing. -/

namespace SchemaJson

namespace Scan

theorem exists_outcome_finish {start : Cursor} (allowed : Bool) (h : IsBlankText start.ahead) :
    ∃ stop, outcome (finish allowed) start = (.ok (), stop) := by
  have hend : start.skipBlanks.atEnd = true := by
    rw [Cursor.atEnd, Cursor.ahead_skipBlanks, List.isEmpty_iff, List.dropWhile_eq_nil_iff]
    exact h
  refine ⟨start.skipBlanks, show Gives (finish allowed) start () start.skipBlanks from ?_⟩
  simp only [finish, gives_bind, gives_skipBlanks, gives_get]
  refine ⟨(), _, rfl, _, _, ⟨rfl, rfl⟩, ?_⟩
  rw [hend, Bool.or_true, if_pos rfl]
  exact gives_pure.mpr ⟨rfl, rfl⟩

end Scan

namespace Catalog

variable {catalog : Catalog} {options : ReadOptions} {before text after : Bytes}

/-- A document that spells an object is decoded as the object's tree. -/
theorem toOption_decode {typeName : String} {trees : List (Bytes × Tree)}
    (hbinds : catalog.BindsBelow typeName) (hspells : Spells looseLexicon (.object trees) text)
    (haligned : (before ++ (text ++ after)).IsAligned) (hbefore : IsBlankText before)
    (hafter : IsBlankText after) (hquotes : ¬ catalog.QuotesClass (.record typeName) (.object trees)) :
    (catalog.decode typeName (before ++ (text ++ after)) options).toOption
      = catalog.readRecord (catalog.readTree options.maxDepth) typeName (.object trees) := by
  obtain ⟨schema, hschema⟩ := hbinds typeName .refl
  obtain ⟨-, -, -, hbound⟩ := schema_eq_ok hschema
  have hahead : (Cursor.ofText (before ++ (text ++ after))).ahead
      = before ++ (text ++ (after ++ [])) := by simp
  have hlevels : (Context.root options.maxDepth).depth + options.maxDepth
      = (Context.root options.maxDepth).maxDepth := Nat.zero_add _
  obtain ⟨result, stop, houtcome, hstop, hresult⟩ := Schema.exists_outcome_readObject hbound hspells
    hahead haligned hbefore hafter (by simp [startsUnblank])
    ((catalog.agrees options.maxDepth).members hbinds hschema hquotes hlevels le_rfl)
  obtain ⟨last, hfinish⟩ := Scan.exists_outcome_finish options.allowTrailing
    (show IsBlankText stop.ahead by simp [hstop, IsBlankText])
  have hdecode : schema.decode (catalog.reader options.maxDepth) (before ++ (text ++ after)) options
      = result := by
    show (Scan.outcome _ (.ofText _)).1 = result
    rw [Scan.outcome_bind, houtcome]
    cases result with
    | error error => rfl
    | ok stored =>
      show (Scan.outcome _ stop).1 = _
      rw [Scan.outcome_bind, hfinish]
      rfl
  rw [decode, readRecord, hschema]
  show (schema.decode _ _ options >>= fun stored => Except.ok (Value.record typeName stored)).toOption
    = Tree.readArguments _ trees [] schema.table.members schema.signature.arguments >>=
      fun stored => some (Value.record typeName stored)
  rw [hdecode, toOption_bind, hresult]
  rfl

theorem ofDocument_eq_ok (tag : Tag) (options : ReadOptions) {items : List Tree}
    (hspells : Spells looseLexicon (.array items) text)
    (haligned : (before ++ (text ++ after)).IsAligned) (hbefore : IsBlankText before)
    (hafter : IsBlankText after) :
    ∃ span, ArrayView.ofDocument (before ++ (text ++ after)) tag options
      = .ok ⟨span, tag, Bytes.ofString "[]", .root options.maxDepth⟩ ∧
      Captures (.array items) span := by
  have htext : text.IsAligned := (haligned.after_blanks hbefore).left
  have hahead : (Cursor.ofText (before ++ (text ++ after))).ahead = before ++ (text ++ after) := rfl
  have hunblank := hspells.isCore.startsUnblank after
  have hpasses := Cursor.passes_skipBlanks_of_eq hahead hbefore hunblank
  have hpeek : (Cursor.ofText (before ++ (text ++ after))).skipBlanks.peek?
      = some Ascii.openBracket := by
    rw [Cursor.peek?, hpasses.ahead_eq hahead]
    cases hspells with
    | array => rfl
  obtain ⟨span, stop, hgives, hcaptures, hleft⟩ : ∃ span stop, Scan.Gives Scan.value
      (Cursor.ofText (before ++ (text ++ after))).skipBlanks span stop ∧
      Captures (.array items) span ∧ stop.ahead = after := by
    obtain ⟨stop, hgives, hstop⟩ := Scan.exists_gives_value hahead haligned hbefore
      (hspells.isFound_array after)
    exact ⟨_, stop, Scan.gives_value_skipBlanks.mpr hgives, .array _ hspells htext,
      hstop.ahead_eq (by rw [hahead, List.append_assoc])⟩
  obtain ⟨last, hfinish⟩ := Scan.exists_outcome_finish options.allowTrailing (hleft ▸ hafter)
  refine ⟨span, ?_, hcaptures⟩
  simp only [ArrayView.ofDocument]
  refine congrArg Prod.fst (show Scan.Gives _ (Cursor.ofText _) _ last from ?_)
  simp only [Scan.gives_bind, Scan.gives_skipBlanks, Scan.gives_get]
  refine ⟨(), _, rfl, _, _, ⟨rfl, rfl⟩, ?_⟩
  rw [hpeek]
  simp only [if_true, Scan.gives_bind, Scan.gives_pure]
  exact ⟨span, stop, hgives, (), last, hfinish, rfl, rfl⟩

/-- An array document is read as the tree of its elements. -/
theorem toOption_decodeArray {element : ArgType} {tag : Tag} {items : List Tree}
    (htag : element.elementTag? = some tag) (hbinds : catalog.BindsTag tag)
    (hspells : Spells looseLexicon (.array items) text)
    (haligned : (before ++ (text ++ after)).IsAligned) (hbefore : IsBlankText before)
    (hafter : IsBlankText after) (hquotes : ¬ catalog.QuotesClass (.array tag) (.array items)) :
    (catalog.decodeArray element (before ++ (text ++ after)) options).toOption
      = catalog.readTree (options.maxDepth + 1) (.growable element) (.array tag) (.array items) := by
  obtain ⟨span, hview, hcaptures⟩ := ofDocument_eq_ok tag options hspells haligned hbefore
    hafter
  simp only [decodeArray, htag]
  rw [toOption_bind, hview]
  exact (catalog.agrees options.maxDepth).build_growable (ArgType.accepts_of_elementTag? htag) hbinds
    hcaptures hquotes (Nat.zero_add _) le_rfl

end Catalog

/-- From an RFC 8259 object, whatever blanks stand in it and whatever members it has besides, a
class that binds below is decoded to exactly what the object's tree holds. -/
theorem decode_eq_ok_iff_readRecord {catalog : Catalog} {typeName : String} {options : ReadOptions}
    {document : String} {trees : List (Bytes × Tree)} {before text after : Bytes}
    (hbinds : catalog.BindsBelow typeName)
    (hdocument : Bytes.ofString document = before ++ (text ++ after))
    (hbefore : IsBlankText before) (hafter : IsBlankText after)
    (hspells : Spells rfcLexicon (.object trees) text)
    (hquotes : ¬ catalog.QuotesClass (.record typeName) (.object trees)) (value : Value) :
    catalog.decode typeName (Bytes.ofString document) options = .ok value ↔
      catalog.readRecord (catalog.readTree options.maxDepth) typeName (.object trees)
        = some value := by
  have haligned := Bytes.isAligned_ofString document
  rw [hdocument] at haligned ⊢
  rw [← Catalog.toOption_decode hbinds hspells.loose_of_rfc haligned hbefore hafter hquotes,
    toOption_eq_some_iff]

/-- A tree with one node below its root. -/
theorem node_decode_eq_ok :
    treeCatalog.decode "tree::Node" (Bytes.ofString
      "\x7b\"label\":\"a\", \"children\" :[\x7b\"label\":\"b\"\x7d]\x7d\n") {}
      = .ok (.record "tree::Node" [.scalar (.text (Bytes.ofString "a")),
        .present .option (.list [.record "tree::Node" [.scalar (.text (Bytes.ofString "b")),
          .absent .option]])]) := by
  have hspace : IsBlankText [Ascii.space] := by simp [IsBlankText, isBlank]
  have hname (name : String) (h : (Bytes.ofString name).all isUnescaped = true) :
      rfcLexicon.string (Bytes.ofString name) := .of_unescaped h
  let label (letter : UInt8) : MemberText :=
    ⟨Bytes.ofString "label", [], [], .string [letter], Ascii.quote :: [letter] ++ [Ascii.quote],
      isBlankText_nil, isBlankText_nil⟩
  have hlabel (letter : UInt8) (h : isUnescaped letter = true) :
      rfcLexicon.string (label letter).name ∧
        Spells rfcLexicon (label letter).tree (label letter).body :=
    ⟨hname "label" rfl, .string (.of_unescaped (by simp [h]))⟩
  have hleaf : Spells rfcLexicon (.object [(Bytes.ofString "label", .string [0x62])])
      (Bytes.ofString "\x7b\"label\":\"b\"\x7d") := by
    refine @Spells.object rfcLexicon [label 0x62] _ ?_ ?_ (.last isBlankText_nil isBlankText_nil)
    · exact List.forall_mem_singleton.mpr (hlabel 0x62 rfl).1
    · exact List.forall_mem_singleton.mpr (hlabel 0x62 rfl).2
  have hitems : Spells rfcLexicon (.array [.object [(Bytes.ofString "label", .string [0x62])]])
      (Bytes.ofString "[\x7b\"label\":\"b\"\x7d]") :=
    @Spells.array rfcLexicon [(_, _)] _ (List.forall_mem_singleton.mpr hleaf)
      (.last isBlankText_nil isBlankText_nil)
  let children : MemberText := ⟨Bytes.ofString "children", [Ascii.space], [],
    .array [.object [(Bytes.ofString "label", .string [0x62])]],
    Bytes.ofString "[\x7b\"label\":\"b\"\x7d]", hspace, isBlankText_nil⟩
  have hspells := @Spells.object rfcLexicon [label 0x61, children] _
    (List.forall_mem_cons.mpr ⟨(hlabel 0x61 rfl).1,
      List.forall_mem_singleton.mpr (hname "children" rfl)⟩)
    (List.forall_mem_cons.mpr ⟨(hlabel 0x61 rfl).2, List.forall_mem_singleton.mpr hitems⟩)
    (.cons isBlankText_nil isBlankText_nil (.last hspace isBlankText_nil))
  have hquotes (trees : List (Bytes × Tree))
      (h : treeCatalog.QuotesClass (.record "tree::Node") (.object trees)) :
      ∃ tree, (Bytes.ofString "children", tree) ∈ trees ∧
        treeCatalog.QuotesClass (.array (.record "tree::Node")) tree := by
    cases h with
    | member hschema hmember hfound hquotes =>
      cases hschema
      simp only [nodeClass, List.mem_cons, List.not_mem_nil, or_false] at hmember
      rcases hmember with rfl | rfl
      · cases hquotes
      · exact ⟨_, hfound, hquotes⟩
  refine (decode_eq_ok_iff_readRecord treeCatalog_bindsBelow
    (show _ = [] ++ (_ ++ [Ascii.newline]) from rfl) isBlankText_nil (by simp [IsBlankText, isBlank])
    hspells (fun h => ?_) _).mpr rfl
  have hne : Bytes.ofString "children" ≠ Bytes.ofString "label" := by decide
  obtain ⟨tree, hfound, h⟩ := hquotes _ h
  have htree : tree = children.tree := by
    simpa [label, children, MemberText.entry, hne] using hfound
  subst htree
  cases h with
  | element hitem h =>
    cases List.mem_singleton.mp hitem
    obtain ⟨tree, hfound, -⟩ := hquotes _ h
    simp [hne] at hfound

end SchemaJson
