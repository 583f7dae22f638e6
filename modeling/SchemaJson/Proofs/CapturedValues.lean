import SchemaJson.Proofs.SpelledValues

/-! Every value of RFC 8259 is captured whole, at whatever place of a document it stands: the span is
its text, and the cursor ends directly behind it. -/

namespace SchemaJson

/-- The cursor has passed some bytes of a text and nothing else. -/
structure Cursor.IsOver (cursor : Cursor) (text : String) : Prop where
  text_eq : cursor.text = Bytes.ofString text
  ahead_eq : cursor.ahead = cursor.text.drop cursor.index

/-- Where a character starts, the text ahead is cut into whole characters. -/
theorem Cursor.IsOver.isAligned {cursor : Cursor} {text : String} (h : cursor.IsOver text)
    (hstarts : Bytes.startsChar cursor.ahead = true) : cursor.ahead.IsAligned := by
  have hwhole := Bytes.isAligned_ofString text
  rw [← h.text_eq, ← List.take_append_drop cursor.index cursor.text, ← h.ahead_eq] at hwhole
  exact hwhole.right hstarts

theorem isAscii_of_isDigit {byte : UInt8} (h : isDigit byte = true) : isAscii byte = true := by
  simp only [isDigit, Bool.and_eq_true, decide_eq_true_eq] at h
  rw [isAscii, decide_eq_true_eq]
  exact UInt8.lt_of_le_of_lt h.2 (by decide)

theorem IsRfcNumber.exists_cons {text : Bytes} (h : IsRfcNumber text) :
    ∃ byte tail, text = byte :: tail ∧ isAscii byte = true := by
  obtain ⟨hsign, hwhole, -, -, -⟩ := h
  obtain ⟨digit, digits, rfl, hdigit⟩ := hwhole.exists_cons
  simp only [List.mem_cons, List.not_mem_nil, or_false] at hsign
  rcases hsign with rfl | rfl
  · exact ⟨digit, _, rfl, isAscii_of_isDigit hdigit⟩
  · exact ⟨Ascii.minus, _, rfl, rfl⟩

theorem Spells.exists_cons {tree : Tree} {text : Bytes} (h : Spells rfcLexicon tree text) :
    ∃ byte tail, text = byte :: tail ∧ isAscii byte = true := by
  cases h with
  | string => exact ⟨_, _, rfl, rfl⟩
  | literal hraw =>
    rcases hraw with rfl | rfl | rfl | hnumber
    · exact ⟨_, _, rfl, rfl⟩
    · exact ⟨_, _, rfl, rfl⟩
    · exact ⟨_, _, rfl, rfl⟩
    · exact hnumber.exists_cons
  | array => exact ⟨_, _, rfl, rfl⟩
  | object => exact ⟨_, _, rfl, rfl⟩

theorem Spells.startsChar {tree : Tree} {blanks text : Bytes} (h : Spells rfcLexicon tree text)
    (hblanks : IsBlankText blanks) (rest : Bytes) :
    Bytes.startsChar (blanks ++ (text ++ rest)) = true := by
  cases blanks with
  | nil =>
    obtain ⟨byte, tail, rfl, hbyte⟩ := h.exists_cons
    exact Bytes.startsChar_cons_of_isAscii hbyte (tail ++ rest)
  | cons byte blanks =>
    exact Bytes.startsChar_cons_of_isAscii (isAscii_of_isBlank (hblanks byte (by simp))) _

/-- Behind any blanks, and in front of whatever follows, the search for a value finds exactly the
value that stands there. Only a literal needs a separator behind it, which may stand behind blanks,
and the cursor then ends at that separator. -/
theorem value_captures_rfc_text {document : String} {start : Cursor} {tree : Tree}
    {blanks text after rest : Bytes} (hstart : start.IsOver document)
    (hahead : start.ahead = blanks ++ (text ++ (after ++ rest))) (hblanks : IsBlankText blanks)
    (hspells : Spells rfcLexicon tree text) (hends : tree.shape.EndsBefore after rest) :
    ∃ stop, Scan.Gives Scan.value start
        ⟨tree.shape.content text, start.offset + blanks.length + openingLength tree.shape, tree.shape⟩
        stop ∧
      start.Passes (blanks ++ (text ++ after)) stop ∧ stop.ahead = rest := by
  have haligned : start.ahead.IsAligned := by
    refine hstart.isAligned ?_
    rw [hahead]
    exact hspells.startsChar hblanks (after ++ rest)
  have hsplit : start.ahead = blanks ++ ((text ++ after) ++ rest) := by
    rw [hahead, List.append_assoc text]
  obtain ⟨stop, hgives, hpasses⟩ :=
    Scan.exists_gives_value hsplit haligned hblanks (hspells.loose_of_rfc.isFound hends)
  have hstop : stop.ahead = rest := by
    refine hpasses.ahead_eq ?_
    rw [hahead]
    simp only [List.append_assoc]
  exact ⟨stop, hgives, hpasses, hstop⟩

/-- A bracket and an escaped quote inside a string end neither the string nor the array around it. -/
theorem nested_array_captured : ∃ stop,
    Scan.Gives Scan.value
      ((Cursor.ofText (Bytes.ofString "[ [\"]\\\"\" , \x7b\"a\":[]\x7d]x")).advance 1)
      ⟨Bytes.ofString "[\"]\\\"\" , \x7b\"a\":[]\x7d]", 2, .array⟩ stop ∧
    stop.ahead = Bytes.ofString "x" := by
  have hspace : IsBlankText [Ascii.space] := by simp [IsBlankText, isBlank]
  have hstring : Spells rfcLexicon (.string (Bytes.ofString "]\\\""))
      (Bytes.ofString "\"]\\\"\"") :=
    .string (.unescaped (by decide) (by decide) (by decide) (.escaped (by decide) .nil))
  have hempty : Spells rfcLexicon (.array []) (Bytes.ofString "[]") :=
    @Spells.array rfcLexicon [] [] (by simp) (.none isBlankText_nil)
  let member : MemberText := ⟨Bytes.ofString "a", [], [], .array [], Bytes.ofString "[]",
    isBlankText_nil, isBlankText_nil⟩
  have hname : rfcLexicon.string member.name := IsRfcContent.of_unescaped rfl
  have hobject : Spells rfcLexicon (.object [member.entry]) (Bytes.ofString "\x7b\"a\":[]\x7d") :=
    @Spells.object rfcLexicon [member] _ (List.forall_mem_singleton.mpr hname)
      (List.forall_mem_singleton.mpr hempty) (.last isBlankText_nil isBlankText_nil)
  have harray := @Spells.array rfcLexicon
    [(.string (Bytes.ofString "]\\\""), Bytes.ofString "\"]\\\"\""),
      (.object [member.entry], Bytes.ofString "\x7b\"a\":[]\x7d")] _
    (List.forall_mem_cons.mpr ⟨hstring, List.forall_mem_singleton.mpr hobject⟩)
    (.cons isBlankText_nil hspace (.last hspace isBlankText_nil))
  have hstart : ((Cursor.ofText (Bytes.ofString "[ [\"]\\\"\" , \x7b\"a\":[]\x7d]x")).advance 1).IsOver
      "[ [\"]\\\"\" , \x7b\"a\":[]\x7d]x" := ⟨rfl, rfl⟩
  obtain ⟨stop, hgives, -, hstop⟩ := value_captures_rfc_text hstart
    (show _ = [Ascii.space] ++ (_ ++ ([] ++ Bytes.ofString "x")) from rfl) hspace harray rfl
  exact ⟨stop, hgives, hstop⟩

end SchemaJson
