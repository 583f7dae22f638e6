import SchemaJson.Proofs.DocumentTrees
import SchemaJson.Proofs.TreeRoundTrip
import SchemaJson.Proofs.WrittenTrees

/-! Whole documents written and read again. Every value of a well-declared class comes back with
its texts escaped, unless a number in an array was declared with quotes: elements are written
without them. -/

namespace SchemaJson

namespace Catalog

variable {catalog : Catalog} {options : WriteOptions} {readOptions : ReadOptions} {text : Bytes}

theorem spells_of_encode {type : ArgType} {value : Value} {tag : Tag}
    (htype : value.HasType catalog type) (haccepts : type.accepts tag false = true)
    (hdeclared : catalog.WellDeclaredTag tag) (h : catalog.encode value options = .ok text) :
    Spells writtenLexicon (value.tree catalog false) text ∧ value.Writable (options.maxDepth + 1) := by
  rw [encode, Write.document] at h
  split at h
  next writer hstep =>
    obtain ⟨core, rfl, hspells, hwritable⟩ := htype.isSpelled haccepts hdeclared
      (by simp : false = true → tag.isQuotedNumber = true) (.start options) writer rfl hstep
    obtain rfl : core = text := by simpa [Writer.text, Writer.put, Writer.start, Writer.startValue] using h
    exact ⟨hspells, hwritable⟩
  next => cases h

/-- An encoded object is decoded to its value with the texts escaped where enough levels are left,
or not at all. The limits of writing and of reading need not be the same. -/
theorem decode_encode_iff {typeName : String} {value : Value}
    (hdeclared : catalog.WellDeclaredBelow typeName) (htype : value.HasType catalog (.record typeName))
    (h : catalog.encode value options = .ok text) (result : Value) :
    catalog.decode typeName text readOptions = .ok result ↔ result = value.normalize ∧
      ¬ catalog.LosesQuotes (.record typeName) value ∧ value.Writable (readOptions.maxDepth + 1) := by
  have haccepts := ArgType.accepts_record_self typeName
  have hdeclaredTag : catalog.WellDeclaredTag (.record typeName) := by
    rintro _ ⟨⟩
    exact hdeclared
  obtain ⟨hspells, hwritable⟩ := spells_of_encode htype haccepts hdeclaredTag h
  have hread := @Value.HasType.readArgument_iff catalog _ _ (readOptions.maxDepth + 1) _ _ _ _ htype
    haccepts hdeclaredTag hwritable
    (by simp : false = true ∨ false = true → (Tag.record typeName).isQuotedNumber = false) result
  have hquotes := htype.not_quotesClass haccepts hdeclaredTag false
  rw [htype.readArgument_eq haccepts] at hread
  cases htype with
  | @record decl _ stored hfind =>
    rw [Value.tree_record hfind] at hspells hread hquotes
    have hdecode := @toOption_decode catalog readOptions [] text [] typeName _ hdeclared.bindsBelow
      hspells.loose_of_written (by simpa using hspells.isAligned) isBlankText_nil
      isBlankText_nil hquotes
    rw [List.nil_append, List.append_nil] at hdecode
    rw [← toOption_eq_some_iff, hdecode]
    simp only [Tag.isQuotedNumber, true_and] at hread
    exact hread

/-- An encoded object is decoded to its value with the texts escaped, or not at all. -/
theorem decode_encode {typeName : String} {value : Value} (hdeclared : catalog.WellDeclaredBelow typeName)
    (htype : value.HasType catalog (.record typeName))
    (hdepth : readOptions.maxDepth = options.maxDepth)
    (h : catalog.encode value options = .ok text) (result : Value) :
    catalog.decode typeName text readOptions = .ok result ↔
      result = value.normalize ∧ ¬ catalog.LosesQuotes (.record typeName) value := by
  have haccepts := ArgType.accepts_record_self typeName
  have hdeclaredTag : catalog.WellDeclaredTag (.record typeName) := by
    rintro _ ⟨⟩
    exact hdeclared
  obtain ⟨-, hwritable⟩ := spells_of_encode htype haccepts hdeclaredTag h
  rw [decode_encode_iff hdeclared htype h result, hdepth]
  simp only [hwritable, and_true]

theorem decodeArray_encodeArray_iff {element : ArgType} {tag : Tag} {items : List Value}
    (htag : element.elementTag? = some tag) (hdeclared : catalog.WellDeclaredTag tag)
    (htypes : ∀ item ∈ items, item.HasType catalog element)
    (h : catalog.encodeArray items options = .ok text) (result : Value) :
    catalog.decodeArray element text readOptions = .ok result ↔
      result = (Value.list items).normalize ∧ ¬ catalog.LosesQuotes (.array tag) (.list items) ∧
        (Value.list items).Writable (readOptions.maxDepth + 1) := by
  have htype : Value.HasType catalog (.growable element) (.list items) := .growable htypes
  have haccepts := ArgType.accepts_growable_of_elementTag? htag
  obtain ⟨hspells, hwritable⟩ := spells_of_encode htype haccepts hdeclared h
  have hread := @Value.HasType.readArgument_iff catalog _ _ (readOptions.maxDepth + 1) _ _ _ _ htype
    haccepts hdeclared hwritable
    (by simp : false = true ∨ false = true → (Tag.array tag).isQuotedNumber = false) result
  have hquotes := htype.not_quotesClass haccepts hdeclared false
  rw [htype.readArgument_eq haccepts] at hread
  rw [Value.tree] at hspells hread hquotes
  have hdecode := @toOption_decodeArray catalog readOptions [] text [] element tag _ htag
    hdeclared.bindsTag hspells.loose_of_written (by simpa using hspells.isAligned)
    isBlankText_nil isBlankText_nil hquotes
  rw [List.nil_append, List.append_nil] at hdecode
  rw [← toOption_eq_some_iff, hdecode]
  simpa [Tag.isQuotedNumber] using hread

theorem decodeArray_encodeArray {element : ArgType} {tag : Tag} {items : List Value}
    (htag : element.elementTag? = some tag) (hdeclared : catalog.WellDeclaredTag tag)
    (htypes : ∀ item ∈ items, item.HasType catalog element)
    (hdepth : readOptions.maxDepth = options.maxDepth)
    (h : catalog.encodeArray items options = .ok text) (result : Value) :
    catalog.decodeArray element text readOptions = .ok result ↔
      result = (Value.list items).normalize ∧ ¬ catalog.LosesQuotes (.array tag) (.list items) := by
  have haccepts := ArgType.accepts_growable_of_elementTag? htag
  obtain ⟨-, hwritable⟩ := spells_of_encode (.growable htypes) haccepts hdeclared h
  rw [decodeArray_encodeArray_iff htag hdeclared htypes h result, hdepth]
  simp only [hwritable, and_true]

end Catalog

/-- What was written comes back with its texts escaped exactly when no number in it lost the quotes
it was declared with, and otherwise nothing comes back. A value with nothing to escape comes back
as it was. -/
theorem encoded_comes_back {catalog : Catalog} {options : WriteOptions} {readOptions : ReadOptions}
    (hdepth : readOptions.maxDepth = options.maxDepth) :
    (∀ typeName value text, catalog.WellDeclaredBelow typeName →
      Value.HasType catalog (.record typeName) value → catalog.encode value options = .ok text →
      ∀ result, catalog.decode typeName text readOptions = .ok result ↔
        result = value.normalize ∧ ¬ catalog.LosesQuotes (.record typeName) value) ∧
    (∀ element tag items text, ArgType.elementTag? element = some tag → catalog.WellDeclaredTag tag →
      (∀ item ∈ items, Value.HasType catalog element item) →
      catalog.encodeArray items options = .ok text →
      ∀ result, catalog.decodeArray element text readOptions = .ok result ↔
        result = (Value.list items).normalize ∧ ¬ catalog.LosesQuotes (.array tag) (.list items)) ∧
    ∀ value, (∀ text, Value.HasText text value → Writer.escape text = text) →
      value.normalize = value := by
  refine ⟨?_, ?_, Value.normalize_eq_self⟩
  · intro typeName value text hdeclared htype hencode result
    exact Catalog.decode_encode hdeclared htype hdepth hencode result
  · intro element tag items text htag hdeclared htypes hencode result
    exact Catalog.decodeArray_encodeArray htag hdeclared htypes hdepth hencode result

theorem treeCatalog_wellDeclaredBelow : treeCatalog.WellDeclaredBelow "tree::Node" := by
  intro nested hreaches
  rw [treeCatalog_reaches hreaches]
  refine ⟨nodeClass, _, rfl, ⟨by decide, ?_, ?_, rfl⟩, rfl⟩
  · exact List.forall_mem_cons.mpr ⟨⟨"label", rfl⟩, List.forall_mem_singleton.mpr ⟨"children", rfl⟩⟩
  · exact List.forall_mem_cons.mpr ⟨rfl, List.forall_mem_singleton.mpr rfl⟩

/-- A tree with one node below its root. The quote in the lower label comes back escaped. -/
def quotedNode : Value :=
  .record "tree::Node" [.scalar (.text (Bytes.ofString "a")), .present .option (.list
    [.record "tree::Node" [.scalar (.text (Bytes.ofString "b\"")), .absent .option]])]

theorem node_comes_back :
    treeCatalog.encode quotedNode {} = .ok (Bytes.ofString
      "\x7b\"label\":\"a\",\"children\":[\x7b\"label\":\"b\\\"\"\x7d]\x7d") ∧
    treeCatalog.decode "tree::Node" (Bytes.ofString
      "\x7b\"label\":\"a\",\"children\":[\x7b\"label\":\"b\\\"\"\x7d]\x7d") {}
      = .ok quotedNode.normalize := by
  have hencode : treeCatalog.encode quotedNode {} = .ok (Bytes.ofString
      "\x7b\"label\":\"a\",\"children\":[\x7b\"label\":\"b\\\"\"\x7d]\x7d") := rfl
  have htext (name : String) : Value.HasType treeCatalog (.scalar .text)
      (.scalar (.text (Bytes.ofString name))) :=
    @Value.HasType.scalar treeCatalog (.text (Bytes.ofString name)) ⟨name, rfl⟩
  have hlower : Value.HasType treeCatalog (.record "tree::Node")
      (.record "tree::Node" [.scalar (.text (Bytes.ofString "b\"")), .absent .option]) :=
    .record rfl rfl (List.forall_mem_cons.mpr ⟨htext "b\"", List.forall_mem_singleton.mpr
      (.absent .option _)⟩)
  have htype : Value.HasType treeCatalog (.record "tree::Node") quotedNode :=
    .record rfl rfl (List.forall_mem_cons.mpr ⟨htext "a", List.forall_mem_singleton.mpr
      (.present .option (.growable (List.forall_mem_singleton.mpr hlower)))⟩)
  have hkeeps : ¬ treeCatalog.LosesQuotes (.record "tree::Node") quotedNode := by
    refine Catalog.not_losesQuotes rfl ?_
    rintro _ ⟨⟩ nested hreaches decl hfind
    rw [treeCatalog_reaches hreaches] at hfind
    cases hfind
    decide
  refine ⟨hencode, ?_⟩
  exact ((encoded_comes_back (rfl : ({} : ReadOptions).maxDepth = ({} : WriteOptions).maxDepth)).1
    "tree::Node" quotedNode _ treeCatalog_wellDeclaredBelow htype hencode _).mpr ⟨rfl, hkeeps⟩

/-- A class with an array of numbers that are declared with quotes. -/
def scoresClass : ClassDecl where
  typeName := "game::Scores"
  members := [.ofString "scores" (.array (.number (.integer .i32) .always))]
  signature := ⟨.direct, [.growable (.scalar (.number (.integer .i32)))]⟩
  memberValues := [0]
  blank := [.list []]

def scoresCatalog : Catalog := ⟨[scoresClass]⟩

theorem scoresCatalog_wellDeclaredBelow : scoresCatalog.WellDeclaredBelow "game::Scores" := by
  intro nested hreaches
  obtain rfl := Catalog.eq_of_reaches (rfl : scoresCatalog.find? "game::Scores" = some scoresClass)
    (List.forall_mem_singleton.mpr rfl) hreaches
  refine ⟨scoresClass, _, rfl, ⟨by decide, ?_, ?_, rfl⟩, rfl⟩
  · exact List.forall_mem_singleton.mpr ⟨"scores", rfl⟩
  · exact List.forall_mem_singleton.mpr rfl

def oneScore : Value := .record "game::Scores" [.list [.scalar (.integer .i32 1)]]

/-- One score is written without quotes, and then it is not read back. -/
theorem scores_lose_quotes :
    scoresCatalog.WellDeclaredBelow "game::Scores" ∧
      Value.HasType scoresCatalog (.record "game::Scores") oneScore ∧
      scoresCatalog.encode oneScore {} = .ok (Bytes.ofString "\x7b\"scores\":[1]\x7d") ∧
      ∀ result, scoresCatalog.decode "game::Scores" (Bytes.ofString "\x7b\"scores\":[1]\x7d") {}
        ≠ .ok result := by
  have htype : Value.HasType scoresCatalog (.record "game::Scores") oneScore :=
    .record rfl rfl (List.forall_mem_singleton.mpr (.growable (List.forall_mem_singleton.mpr
      (@Value.HasType.scalar scoresCatalog (.integer .i32 1) rfl))))
  have hencode : scoresCatalog.encode oneScore {}
      = .ok (Bytes.ofString "\x7b\"scores\":[1]\x7d") :=
    toOption_eq_some_iff.mp (by decide +kernel)
  refine ⟨scoresCatalog_wellDeclaredBelow, htype, hencode, fun result hresult => ?_⟩
  obtain ⟨-, hkeeps⟩ := (Catalog.decode_encode scoresCatalog_wellDeclaredBelow htype
    (rfl : ({} : ReadOptions).maxDepth = ({} : WriteOptions).maxDepth) hencode result).mp hresult
  have hloses : scoresCatalog.LosesQuotes (.array (.number (.integer .i32) .always))
      (.list [.scalar (.integer .i32 1)]) := .here rfl (List.mem_singleton.mpr rfl)
  exact hkeeps (.member rfl (List.mem_singleton.mpr rfl) hloses)

end SchemaJson
