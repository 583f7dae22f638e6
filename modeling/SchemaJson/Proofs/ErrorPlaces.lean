import SchemaJson.Proofs.BoundClasses
import SchemaJson.Proofs.DecodingInvariants
import SchemaJson.Proofs.ScanFailures

/-! Every error that carries an offset points into the document, however deep the value lies that it
is about, and what it reports stands there. -/

namespace SchemaJson

/-- The span is a text of the document, where its offset says. -/
structure Span.StandsIn (document : Bytes) (span : Span) : Prop where
  isText : span.text.IsText
  place : ∃ before after, document = before ++ (span.text ++ after) ∧ span.offset = before.length
  array : span.shape = .array → span.text.head? = some Ascii.openBracket

/-- If the error carries an offset, it is one of the document, and what is said of it is so. -/
def Error.IsPlacedIn (document : Bytes) (error : Error) : Prop :=
  ∀ offset, error.offset? = some offset →
    offset ≤ document.length ∧ error.Describes (document.drop offset)

namespace Span.StandsIn

variable {document : Bytes} {span container : Span} {error : Error}

/-- What is found in a text of the document stands in the document. -/
theorem of_isFound (hcontainer : container.StandsIn document) (htext : span.text.IsText)
    {before value rest : Bytes} (hsplit : container.text = before ++ (value ++ rest))
    (hfound : IsFound value rest span.shape span.text)
    (hoffset : span.offset = container.offset + before.length + openingLength span.shape) :
    span.StandsIn document := by
  obtain ⟨outer, behind, rfl, hplace⟩ := hcontainer.place
  obtain ⟨front, back, rfl, hfront⟩ := hfound.exists_text
  refine ⟨htext, ⟨outer ++ before ++ front, back ++ rest ++ behind, ?_, ?_⟩, fun harray => ?_⟩
  · simp [hsplit]
  · rw [hoffset, hplace, ← hfront, List.length_append, List.length_append]
  · rw [harray] at hfound
    exact hfound.head?_of_array

theorem of_isPartOf (hcontainer : container.StandsIn document) (htext : span.text.IsText)
    (h : span.IsPartOf container) : span.StandsIn document := by
  obtain ⟨first, tail, hcons, before, value, rest, rfl, -, hfound, hoffset⟩ := h
  refine hcontainer.of_isFound htext (show _ = (first :: before) ++ (value ++ rest) from hcons)
    hfound ?_
  · rw [hoffset, List.length_cons, Nat.add_assoc container.offset, Nat.add_comm 1]

theorem of_arrayElements (hcontainer : container.StandsIn document)
    (h : span ∈ (Scan.arrayElements.run (.ofSpan container)).1.1) : span.StandsIn document := by
  have htext := ArrayView.isText_of_spans
    (show (ArrayView.mk container .bool [] (.root 0)).span.text.IsText from hcontainer.isText) span h
  exact hcontainer.of_isPartOf htext (Scan.isPartOf_of_arrayElements hcontainer.isText.isAligned h)

theorem of_memberTexts {table : MemberTable} {className : String} {given : List (Option Span)}
    (hcontainer : container.StandsIn document)
    (hgiven : (Scan.outcome (Scan.memberTexts table className) (.ofSpan container)).1 = .ok given)
    (hspan : some span ∈ given) : span.StandsIn document := by
  have hstays := Scan.StaysInText.memberTexts table className (.ofSpan container) _ _
    hcontainer.isText.endText (Prod.ext hgiven rfl)
  exact hcontainer.of_isPartOf (hstays.2 span hspan)
    (Scan.isPartOf_of_memberTexts hcontainer.isText.isAligned hgiven hspan)

theorem length_le (h : span.StandsIn document) : span.text.length ≤ document.length := by
  obtain ⟨before, after, rfl, -⟩ := h.place
  simp only [List.length_append]
  omega

theorem drop_offset (h : span.StandsIn document) :
    span.offset ≤ document.length ∧ ∃ after, document.drop span.offset = span.text ++ after := by
  obtain ⟨before, after, rfl, hoffset⟩ := h.place
  rw [hoffset]
  exact ⟨by simp, after, List.drop_left⟩

/-- An error that points at a place in the text points at one in the document. -/
theorem isPlacedIn {cursor : Cursor} (h : span.StandsIn document)
    (hreaches : (Cursor.ofSpan span).Reaches cursor) (hpoints : error.PointsAt cursor) :
    error.IsPlacedIn document := by
  intro offset hoffset
  obtain ⟨raw, hpasses⟩ := hreaches
  obtain ⟨before, after, rfl, hplace⟩ := h.place
  have htext : span.text = raw ++ cursor.ahead := hpasses.ahead
  obtain rfl : cursor.offset = offset := Option.some.inj (hpoints.offset?.symm.trans hoffset)
  have hlength : cursor.offset = (before ++ raw).length := by
    rw [hpasses.offset, List.length_append, ← hplace]
    rfl
  rw [hlength, htext, ← List.append_assoc, ← List.append_assoc, List.append_assoc _ _ after,
    List.drop_left]
  exact ⟨by simp, hpoints.describes.append after⟩

end Span.StandsIn

variable {document : Bytes}

/-- Spans that stand in the document are cut into spans that do. -/
def placement (document : Bytes) : Invariant where
  fine := Error.IsPlacedIn document
  met _ span _ := span.StandsIn document
  opened _ span _ := span.StandsIn document
  plain h := by
    intro offset hoffset
    rw [h] at hoffset
    cases hoffset
  invalid label tag h := by
    rintro offset ⟨⟩
    obtain ⟨hle, after, hdrop⟩ := h.drop_offset
    exact ⟨hle, hdrop ▸ List.prefix_append _ _⟩
  deeper h _ := h
  tooDeep h _ := by
    rintro offset ⟨⟩
    exact ⟨h.drop_offset.1, trivial⟩
  zero h := by
    rintro offset ⟨⟩
    exact ⟨h.drop_offset.1, trivial⟩
  elements h _ hitem := h.of_arrayElements hitem
  fault h harray hfault := by
    obtain ⟨cursor, hreaches, hpoints⟩ :=
      Scan.exists_pointsAt_of_arrayElements (show (Cursor.ofSpan _).ahead.IsText from h.isText)
        (h.array harray) hfault
    exact h.isPlacedIn hreaches hpoints
  members table className h hgiven hvalue := h.of_memberTexts hgiven hvalue
  noMembers table className h herror := by
    obtain ⟨cursor, hreaches, hpoints⟩ :=
      Scan.FailsBehind.memberTexts table className h.isText _ herror
    exact h.isPlacedIn hreaches hpoints

theorem Span.standsIn_document (htext : document.IsText) :
    Span.StandsIn document ⟨document, 0, .object⟩ :=
  ⟨htext, ⟨[], [], by simp, rfl⟩, nofun⟩

theorem Span.standsIn_of_documentArray {allowTrailing : Bool} {span : Span}
    (htext : document.IsText) (h : (Scan.outcome (Scan.documentArray allowTrailing) (.ofText document)).1 = .ok span) :
    span.shape = .array ∧ span.StandsIn document := by
  have hgives : Scan.Gives (Scan.documentArray allowTrailing) (.ofText document) span _ :=
    Prod.ext h rfl
  obtain ⟨harray, before, value, rest, hsplit, hfound, hoffset⟩ :=
    hgives.exists_documentArray htext.isAligned
  have hspan := (Scan.StaysInText.documentArray _ _ _ _ htext.endText hgives).2
  exact ⟨harray, (Span.standsIn_document htext).of_isFound hspan hsplit hfound hoffset⟩

/-- Whatever makes decoding fail is reported where it stands in the document. -/
theorem errors_point_at_what_they_report (catalog : Catalog) (document : String)
    (options : ReadOptions) (error : Error) :
    (∀ typeName, catalog.decode typeName (Bytes.ofString document) options = .error error →
      error.IsPlacedIn (Bytes.ofString document)) ∧
    ∀ element, catalog.decodeArray element (Bytes.ofString document) options = .error error →
      error.IsPlacedIn (Bytes.ofString document) := by
  have htext : (Bytes.ofString document).IsText := ⟨document, rfl⟩
  have hroot := Span.standsIn_document htext
  constructor
  · intro typeName h
    refine (placement (Bytes.ofString document)).fine_of_decode hroot ?_ h
    intro table className given stop error hgiven herror
    have hstop := hgiven.reaches_memberTexts htext.isAligned
    obtain ⟨cursor, hreaches, hpoints⟩ :=
      Scan.FailsBehind.finish options.allowTrailing hstop error herror
    exact hroot.isPlacedIn hreaches hpoints
  · intro element h
    refine (placement (Bytes.ofString document)).fine_of_decodeArray
      (fun span hspan => Span.standsIn_of_documentArray htext hspan) (fun error herror => ?_) h
    obtain ⟨cursor, hreaches, hpoints⟩ :=
      Scan.FailsBehind.documentArray options.allowTrailing htext error herror
    exact hroot.isPlacedIn hreaches hpoints

/-- A character that two bytes encode, behind the label of a child: the offset counts bytes from the
front of the document. -/
theorem unexpected_character_placed :
    treeCatalog.decode "tree::Node" (Bytes.ofString
        "\x7b\"label\":\"ß\",\"children\":[\x7b\"label\":\"a\"é\x7d]\x7d") {}
      = .error (.structural (.unexpectedCharacter 'é') 38) ∧
    38 ≤ (Bytes.ofString
      "\x7b\"label\":\"ß\",\"children\":[\x7b\"label\":\"a\"é\x7d]\x7d").length ∧
    String.utf8EncodeChar 'é' <+: (Bytes.ofString
      "\x7b\"label\":\"ß\",\"children\":[\x7b\"label\":\"a\"é\x7d]\x7d").drop 38 := by
  have herror : treeCatalog.decode "tree::Node" (Bytes.ofString
      "\x7b\"label\":\"ß\",\"children\":[\x7b\"label\":\"a\"é\x7d]\x7d") {}
    = .error (.structural (.unexpectedCharacter 'é') 38) := rfl
  exact ⟨herror, (errors_point_at_what_they_report treeCatalog _ {} _).1 "tree::Node" herror 38 rfl⟩

end SchemaJson
