import SchemaJson.Proofs.DepthLimit
import SchemaJson.Proofs.ShrinkingSpans

/-! How many classes and arrays can be decoded inside each other. Each lies between two bytes of its
container at least, so there are never more than half as many as the document has bytes. -/

namespace SchemaJson

/-- A class or an array that is decoded, with the cursor in front of its text. -/
structure Level where
  tag : Tag
  start : Cursor

/-- Whether decoding the span as the type goes into its text. For a class it does whatever the shape
of the span is. -/
def Span.isOpenedAs (span : Span) : Tag → Bool
  | .record _ => true
  | .array _ => span.shape == .array
  | _ => false

/-- The second level is decoded for the first one: for a member of the class, or for an element of
the array. -/
inductive Catalog.Opens (catalog : Catalog) : Level → Level → Prop
  | member {typeName : String} {schema : Schema} {start stop : Cursor}
      {given : List (Option Span)} {member : Member} {span : Span} :
      catalog.schema typeName = .ok schema →
      Scan.Gives (Scan.memberTexts schema.table schema.className) start given stop →
      (member, some span) ∈ schema.table.members.zip given →
      (member.nullable && span.isNull) = false → span.isOpenedAs member.tag = true →
      Opens catalog ⟨.record typeName, start⟩ ⟨member.tag, .ofSpan span⟩
  | element {tag : Tag} {array span : Span} :
      span ∈ (Scan.arrayElements.run (.ofSpan array)).1.1 → span.isOpenedAs tag = true →
      Opens catalog ⟨.array tag, .ofSpan array⟩ ⟨tag, .ofSpan span⟩

namespace Scan

variable {start stop : Cursor} {span : Span}

theorem Gives.isText_of_memberTexts {table : MemberTable} {className : String}
    {given : List (Option Span)} (h : Gives (memberTexts table className) start given stop)
    (hend : start.ahead.EndText) : start.ahead.IsText := by
  rw [memberTexts_eq, gives_map] at h
  obtain ⟨met, hmet, -⟩ := h
  exact hend.isText (Cursor.startsChar_of_peek? hmet.objectMembers_cases.1 rfl)

theorem isText_of_mem_arrayElements (h : span ∈ (arrayElements.run start).1.1)
    (hend : start.ahead.EndText) : start.ahead.IsText := by
  rw [run_arrayElements] at h
  rcases houtcome : outcome arrayStart start with ⟨_ | _ | _, middle⟩
  · rw [houtcome] at h
    cases h
  · exact hend.isText (Cursor.startsChar_of_peek? (Gives.opening_of_arrayStart houtcome).1 rfl)
  · rw [houtcome] at h
    cases h

end Scan

namespace Catalog

variable {catalog : Catalog} {document : String}

/-- One level further down the text is two bytes shorter. -/
theorem Opens.shrinks {level inner : Level} (h : catalog.Opens level inner)
    (hend : level.start.ahead.EndText) :
    inner.start.ahead.EndText ∧ inner.start.ahead.length + 2 ≤ level.start.ahead.length := by
  cases h with
  | member _ hgiven hspan _ _ =>
    have hmem := (List.of_mem_zip hspan).2
    have htext := (Scan.StaysInText.memberTexts _ _ _ _ _ hend hgiven).2 _ hmem
    have haligned := (hgiven.isText_of_memberTexts hend).isAligned
    exact ⟨htext.endText, (hgiven.isPartOf_of_memberTexts haligned hmem).length_lt⟩
  | @element tag array span hspan _ =>
    have hwhole : array.text.IsText := Scan.isText_of_mem_arrayElements hspan hend
    have htext := ArrayView.isText_of_spans
      (show (ArrayView.mk array tag [] (.root 0)).span.text.IsText from hwhole) span hspan
    exact ⟨htext.endText, (Scan.isPartOf_of_arrayElements hwhole.isAligned hspan).length_lt⟩

theorem two_mul_length_le_of_isChain {outer : Level} {nested : List Level}
    (h : List.IsChain catalog.Opens (outer :: nested)) (hend : outer.start.ahead.EndText) :
    2 * nested.length ≤ outer.start.ahead.length := by
  induction nested generalizing outer with
  | nil => exact Nat.zero_le _
  | cons inner nested ih =>
    obtain ⟨hopens, hrest⟩ := List.isChain_cons_cons.mp h
    obtain ⟨hinner, hlength⟩ := hopens.shrinks hend
    have hbound := ih hrest hinner
    rw [List.length_cons]
    omega

end Catalog

namespace Cursor.IsOver

variable {document : String} {start : Cursor}

theorem endText (h : start.IsOver document) : start.ahead.EndText := by
  rw [h.ahead_eq, h.text_eq]
  exact Bytes.EndText.drop (Bytes.IsText.endText ⟨document, rfl⟩) start.index

theorem length_ahead_le (h : start.IsOver document) :
    start.ahead.length ≤ (Bytes.ofString document).length := by
  rw [h.ahead_eq, h.text_eq, List.length_drop]
  exact Nat.sub_le _ _

end Cursor.IsOver

/-- A search for a value that succeeds moves on, and its span is empty only for an empty string or
inside a character. What is taken out of the span is shorter by two bytes. Below an object anywhere in
a document, and below an array that was found anywhere in it, no more levels lie than half its bytes,
so no higher limit is ever exceeded. -/
theorem nesting_is_bounded_by_half (catalog : Catalog) (document : String) :
    (∀ start span stop, start.IsOver document → Scan.Gives Scan.value start span stop →
      start.index < stop.index ∧
      (span.text = [] → span.shape = .string ∨
        Bytes.startsChar start.ahead = false ∧ span.shape = .literal) ∧
      span.Shrinks) ∧
    (∀ typeName start nested, start.IsOver document →
      List.IsChain catalog.Opens (⟨.record typeName, start⟩ :: nested) →
      2 * nested.length ≤ (Bytes.ofString document).length) ∧
    (∀ element start array stop nested, start.IsOver document →
      Scan.Gives Scan.value start array stop →
      List.IsChain catalog.Opens (⟨.array element, .ofSpan array⟩ :: nested) →
      2 * nested.length ≤ (Bytes.ofString document).length) ∧
    ∀ options : ReadOptions, (Bytes.ofString document).length / 2 ≤ options.maxDepth →
      ∀ limit offset,
        (∀ typeName, catalog.decode typeName (Bytes.ofString document) options
          ≠ .error (.structural (.depthExceeded limit) offset)) ∧
        ∀ element, catalog.decodeArray element (Bytes.ofString document) options
          ≠ .error (.structural (.depthExceeded limit) offset) := by
  refine ⟨fun start span stop hstart h => ⟨h.index_lt_of_value, fun hempty => ?_,
    h.shrinks hstart⟩, fun typeName start nested hstart h => ?_,
    fun element start array stop nested hstart hvalue h => ?_, fun options hlimit limit offset => ?_⟩
  · cases hstarts : Bytes.startsChar start.ahead with
    | true => exact .inl (h.shape_of_empty hstart hstarts hempty)
    | false => exact .inr ⟨rfl, (h.empty_inside_char hstarts).1⟩
  · exact (Catalog.two_mul_length_le_of_isChain h hstart.endText).trans hstart.length_ahead_le
  · have htext : array.text.IsText := (Scan.StaysInText.value _ _ _ hstart.endText hvalue).2
    calc 2 * nested.length
        ≤ array.text.length := Catalog.two_mul_length_le_of_isChain h htext.endText
      _ ≤ start.ahead.length := hvalue.length_value_le
      _ ≤ (Bytes.ofString document).length := hstart.length_ahead_le
  · have htext : (Bytes.ofString document).IsText := ⟨document, rfl⟩
    exact ⟨fun typeName => decode_ne_depthExceeded_of_half typeName htext (by omega),
      fun element => decodeArray_ne_depthExceeded_of_half element htext (by omega)⟩

/-- A node with one child that is empty. -/
def emptyChildText : String := "\x7b\"label\":\"\",\"children\":[\x7b\x7d]\x7d"

def emptyChildSpan : Span := ⟨Bytes.ofString emptyChildText, 0, .object⟩

def emptyChildArray : Span := ⟨Bytes.ofString "[\x7b\x7d]", 23, .array⟩

theorem emptyChildSpan_opens : treeCatalog.Opens ⟨.record "tree::Node", .ofSpan emptyChildSpan⟩
    ⟨.array (.record "tree::Node"), .ofSpan emptyChildArray⟩ := by
  have hschema : treeCatalog.schema "tree::Node"
      = .ok ⟨"Node", ⟨nodeClass.members⟩, nodeClass.signature⟩ := rfl
  have hgiven : Scan.Gives (Scan.memberTexts ⟨nodeClass.members⟩ "Node") (.ofSpan emptyChildSpan)
      [some ⟨[], 10, .string⟩, some emptyChildArray] _ := rfl
  exact .member hschema hgiven (.tail _ (.head _)) rfl rfl

theorem emptyChildArray_opens :
    treeCatalog.Opens ⟨.array (.record "tree::Node"), .ofSpan emptyChildArray⟩
      ⟨.record "tree::Node", .ofSpan ⟨Bytes.ofString "\x7b\x7d", 24, .object⟩⟩ :=
  .element (.head _) rfl

theorem emptyChildSpan_walks : emptyChildSpan.Walks
    (.value .object ((Cursor.ofSpan emptyChildSpan).advance 9)) := by
  have hname : Scan.Gives Scan.name ((Cursor.ofSpan emptyChildSpan).advance 1)
      ⟨Bytes.ofString "label", 2, .string⟩ ((Cursor.ofSpan emptyChildSpan).advance 9) := rfl
  exact .onward (.onward .start (@Site.Step.enter .object _ rfl) rfl) (.named hname) rfl

/-- The empty label is shorter than the node, and below it the children are decoded and the child for
them: two levels in 28 bytes. -/
theorem empty_child_is_bounded :
    (∃ item stop, Scan.Gives Scan.value ((Cursor.ofSpan emptyChildSpan).advance 9) item stop ∧
      9 < stop.index ∧ item.text.length + 2 ≤ emptyChildSpan.text.length) ∧
    (∃ children child, List.IsChain treeCatalog.Opens
        [⟨.record "tree::Node", .ofSpan emptyChildSpan⟩, children, child] ∧
      2 * [children, child].length ≤ (Bytes.ofString emptyChildText).length) ∧
    (∃ child, List.IsChain treeCatalog.Opens
        [⟨.array (.record "tree::Node"), .ofSpan emptyChildArray⟩, child] ∧
      2 * [child].length ≤ (Bytes.ofString emptyChildText).length) ∧
    ∀ limit offset, treeCatalog.decode "tree::Node" (Bytes.ofString emptyChildText)
        { maxDepth := 14 } ≠ .error (.structural (.depthExceeded limit) offset) := by
  obtain ⟨hvalues, hclasses, harrays, hlimits⟩ :=
    nesting_is_bounded_by_half treeCatalog emptyChildText
  have hroot : (Cursor.ofSpan emptyChildSpan).IsOver emptyChildText := ⟨rfl, rfl⟩
  have hwhole : Scan.Gives Scan.value (.ofSpan emptyChildSpan) emptyChildSpan _ := rfl
  have hlabel : Scan.Gives Scan.value ((Cursor.ofSpan emptyChildSpan).advance 9)
      ⟨[], 10, .string⟩ _ := rfl
  have hinside : Scan.Gives Scan.value ((Cursor.ofSpan emptyChildSpan).advance 23)
      emptyChildArray _ := rfl
  obtain ⟨-, -, hshrinks⟩ := hvalues _ _ _ hroot hwhole
  obtain ⟨hforward, -, -⟩ := hvalues _ _ _ ⟨rfl, rfl⟩ hlabel
  have hchildren := List.IsChain.cons_cons emptyChildArray_opens (.singleton _)
  have hchain := List.IsChain.cons_cons emptyChildSpan_opens hchildren
  exact ⟨⟨_, _, hlabel, hforward,
      hshrinks.captured .object _ _ _ nofun emptyChildSpan_walks hlabel⟩,
    ⟨_, _, hchain, hclasses _ _ _ hroot hchain⟩,
    ⟨_, hchildren, harrays _ _ _ _ _ ⟨rfl, rfl⟩ hinside hchildren⟩,
    fun limit offset => (hlimits { maxDepth := 14 } (by decide) limit offset).1 "tree::Node"⟩

/-- Behind the first byte of a character that takes two, the second one is taken for a literal, and
its text is lost. -/
theorem empty_literal_inside_char :
    ¬ ∀ document start span stop, start.IsOver document →
      Scan.Gives Scan.value start span stop → span.text = [] → span.shape = .string := by
  intro h
  have hgives : Scan.Gives Scan.value ((Cursor.ofText (Bytes.ofString "é,")).advance 1)
      ⟨[], 1, .literal⟩ _ := rfl
  cases h "é," _ _ _ ⟨rfl, rfl⟩ hgives rfl

end SchemaJson
