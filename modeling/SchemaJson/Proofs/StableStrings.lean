import Mathlib.Data.List.Nodup
import SchemaJson.Proofs.StringLiterals
import SchemaJson.Proofs.WrittenValues

/-! What is written between quotes is read back as it was written, and written again it stays the
same. A name is looked up as it was written, so it is found again exactly if writing it changes
nothing. -/

namespace SchemaJson

namespace Writer

variable {byte : UInt8} {text rest : Bytes}

/-- What a byte is to the escapes of a text, which are paired from the left. -/
inductive EscapePart where
  | outside | first | second
  deriving DecidableEq, Repr

def escapePartsFrom : (escaped : Bool) → Bytes → List EscapePart
  | _, [] => []
  | true, _ :: rest => .second :: escapePartsFrom false rest
  | false, byte :: rest =>
    if byte = Ascii.backslash ∧ startsEscape rest = true then .first :: escapePartsFrom true rest
    else .outside :: escapePartsFrom false rest

def escapeParts (text : Bytes) : List EscapePart := escapePartsFrom false text

theorem isEscapedContent_cons (h : isUnescaped byte = true) :
    IsEscapedContent (byte :: rest) ↔ IsEscapedContent rest := by
  have hbackslash : byte ≠ Ascii.backslash := by
    rintro rfl
    cases h
  constructor
  · intro hcontent
    cases hcontent with
    | unescaped _ hrest => exact hrest
    | escaped => exact absurd rfl hbackslash
  · exact .unescaped h

theorem isEscapedContent_escape (h : startsEscape (byte :: rest) = true) :
    IsEscapedContent (Ascii.backslash :: byte :: rest) ↔ IsEscapedContent rest := by
  constructor
  · intro hcontent
    cases hcontent with
    | unescaped hbackslash => cases hbackslash
    | escaped _ hrest => exact hrest
  · exact .escaped (mem_of_startsEscape h)

theorem not_isEscapedContent (hescaped : isUnescaped byte = false)
    (hstray : byte = Ascii.backslash → startsEscape rest = false) :
    ¬ IsEscapedContent (byte :: rest) := by
  intro hcontent
  cases hcontent with
  | unescaped hbyte => simp [hbyte] at hescaped
  | escaped hletter =>
    have hstarts := hstray rfl
    rw [startsEscape, List.contains_iff_mem.mpr hletter] at hstarts
    cases hstarts

/-- The byte is no control byte, and only the escapes that are kept have quotes and backslashes. -/
def IsSettled (entry : UInt8 × EscapePart) : Prop :=
  0x20 ≤ entry.1 ∧ (entry.1 = Ascii.quote → entry.2 = .second) ∧
    (entry.1 = Ascii.backslash → entry.2 ≠ .outside)

theorem isSettled_outside : IsSettled (byte, .outside) ↔ isUnescaped byte = true := by
  simp [IsSettled, isUnescaped, and_assoc]

theorem isSettled_second (h : startsEscape (byte :: rest) = true) : IsSettled (byte, .second) := by
  have hcontrol : 0x20 ≤ byte := by
    have hletter := mem_of_startsEscape h
    simp only [List.mem_cons, List.not_mem_nil, or_false] at hletter
    rcases hletter with rfl | rfl | rfl | rfl | rfl | rfl | rfl | rfl | rfl <;> decide
  exact ⟨hcontrol, fun _ => rfl, fun _ => by simp⟩

theorem isEscapedContent_iff_isSettled (escaped : Bool) (text : Bytes)
    (h : escaped = true → startsEscape text = true) :
    (if escaped then IsEscapedContent (Ascii.backslash :: text) else IsEscapedContent text) ↔
      ∀ entry ∈ text.zip (escapePartsFrom escaped text), IsSettled entry := by
  -- The letter of an escape is met behind its backslash, which is why the flag puts that in front.
  induction text generalizing escaped with
  | nil =>
    cases escaped with
    | true => cases h rfl
    | false => simpa [escapePartsFrom] using IsEscapedContent.nil
  | cons byte rest ih =>
    have hrest := ih false (by simp)
    simp only [Bool.false_eq_true, if_false] at hrest
    cases escaped with
    | true =>
      have hstarts := h rfl
      simp only [if_true, escapePartsFrom, List.zip_cons_cons, List.forall_mem_cons]
      rw [isEscapedContent_escape hstarts, hrest]
      simp [isSettled_second hstarts]
    | false =>
      by_cases hkept : byte = Ascii.backslash ∧ startsEscape rest = true
      · obtain ⟨rfl, hstarts⟩ := hkept
        have hescape := ih true fun _ => hstarts
        have hfirst : IsSettled (Ascii.backslash, .first) := ⟨by decide, by decide, by simp⟩
        rw [if_pos rfl] at hescape
        simp [escapePartsFrom, hstarts, hescape, hfirst]
      · have hparts : escapePartsFrom false (byte :: rest) = .outside :: escapePartsFrom false rest := by
          rw [escapePartsFrom, if_neg hkept]
        simp only [Bool.false_eq_true, if_false, hparts, List.zip_cons_cons, List.forall_mem_cons]
        rw [isSettled_outside, ← hrest]
        by_cases hbyte : isUnescaped byte = true
        · simp [isEscapedContent_cons hbyte, hbyte]
        · have hstray : byte = Ascii.backslash → startsEscape rest = false := by simpa using hkept
          simp [not_isEscapedContent (by simpa using hbyte) hstray, hbyte]

theorem escape_escape (text : Bytes) : escape (escape text) = escape text :=
  escape_eq_self_iff.mpr (escapes_escape text).isEscapedContent

end Writer

namespace Scan

theorem exists_gives_quoted {start : Cursor} {text rest : Bytes} (htext : text.IsAligned)
    (hrest : rest.IsAligned) (hahead : start.ahead = Writer.quoted text ++ rest) :
    ∃ stop, Gives string start ⟨Writer.escape text, start.offset + 1, .string⟩ stop ∧
      start.Passes (Writer.quoted text) stop ∧ stop.ahead = rest := by
  have hpasses := Cursor.passes_advance hahead
  have hquoted : start.ahead = Ascii.quote :: (Writer.escape text ++ Ascii.quote :: rest) := by
    simp [hahead, Writer.quoted]
  have haligned : start.ahead.IsAligned := by
    have hbehind : Bytes.IsAligned (Ascii.quote :: rest) := hrest.cons rfl
    rw [hquoted]
    exact ((Writer.isAligned_escape htext).append hbehind).cons rfl
  have hlength : (Writer.quoted text).length = (Writer.escape text).length + 2 := by
    simp [Writer.quoted]
  rw [hlength] at hpasses
  have hgives := (gives_string hquoted haligned).mpr
    ⟨_, rest, rfl, Writer.isStringContent_escape text, rfl, rfl⟩
  exact ⟨_, hgives, hpasses, hpasses.ahead_eq hahead⟩

/-- The text that comes back after so many rounds of writing it as a string and reading that. -/
def reread : (rounds : Nat) → Bytes → Except Error Bytes
  | 0, text => .ok text
  | rounds + 1, text => do
    let span ← (outcome string (.ofText (Writer.quoted text))).1
    reread rounds span.text

theorem reread_step {text : Bytes} (htext : text.IsAligned) (rounds : Nat) :
    reread (rounds + 1) text = reread rounds (Writer.escape text) := by
  have hahead : (Cursor.ofText (Writer.quoted text)).ahead = Writer.quoted text ++ [] := by simp
  obtain ⟨stop, hgives, -, -⟩ := exists_gives_quoted htext Bytes.isAligned_nil hahead
  rw [Gives] at hgives
  rw [reread, hgives]
  rfl

theorem reread_succ {text : Bytes} (htext : text.IsAligned) (rounds : Nat) :
    reread (rounds + 1) text = .ok (Writer.escape text) := by
  induction rounds generalizing text with
  | zero => exact reread_step htext 0
  | succ rounds ih =>
    have hagain := ih (Writer.isAligned_escape htext)
    rw [Writer.escape_escape] at hagain
    rw [reread_step htext, hagain]

end Scan

/-- A written string is read back up to its own quote, whatever follows it, and what was read stays
the same from then on. A text is written as it is exactly if there are no control bytes in it, and
no quotes and backslashes but those of the escapes that are kept. -/
theorem written_strings_are_stable (text : String) :
    (∀ (rest : String) (start : Cursor),
      start.ahead = Ascii.quote :: Writer.escape (Bytes.ofString text) ++ [Ascii.quote]
        ++ Bytes.ofString rest →
      ∃ span stop, Scan.Gives Scan.string start span stop ∧
        span.text = Writer.escape (Bytes.ofString text) ∧ stop.ahead = Bytes.ofString rest) ∧
    Writer.escape (Writer.escape (Bytes.ofString text)) = Writer.escape (Bytes.ofString text) ∧
    (∀ rounds, Scan.reread (rounds + 1) (Bytes.ofString text)
      = .ok (Writer.escape (Bytes.ofString text))) ∧
    (Writer.escape (Bytes.ofString text) = Bytes.ofString text ↔
      ∀ entry ∈ (Bytes.ofString text).zip (Writer.escapeParts (Bytes.ofString text)),
        0x20 ≤ entry.1 ∧ (entry.1 = Ascii.quote → entry.2 = .second) ∧
          (entry.1 = Ascii.backslash → entry.2 ≠ .outside)) := by
  have htext := Bytes.isAligned_ofString text
  refine ⟨fun rest start hahead => ?_, Writer.escape_escape _, Scan.reread_succ htext, ?_⟩
  · obtain ⟨stop, hgives, -, hstop⟩ :=
      Scan.exists_gives_quoted htext (Bytes.isAligned_ofString rest) hahead
    exact ⟨_, stop, hgives, rfl, hstop⟩
  · have hsettled := Writer.isEscapedContent_iff_isSettled false (Bytes.ofString text) (by simp)
    exact Writer.escape_eq_self_iff.trans hsettled

/-- A quote that is escaped does not end the string, and neither does a backslash at the end of the
text, which is doubled. -/
theorem last_backslash_read_back : ∃ span stop,
    Scan.Gives Scan.string (.ofText (Bytes.ofString "\"C:\\\"\\u0009\\\\\", 1")) span stop ∧
      span.text = Bytes.ofString "C:\\\"\\u0009\\\\" ∧ stop.ahead = Bytes.ofString ", 1" := by
  let start := Cursor.ofText (Bytes.ofString "\"C:\\\"\\u0009\\\\\", 1")
  have hstable := written_strings_are_stable "C:\\\"\t\\"
  obtain ⟨span, stop, hgives, hspan, hstop⟩ := hstable.1 ", 1" start rfl
  exact ⟨span, stop, hgives, hspan.trans rfl, hstop⟩

/-- Where names are distinct, a key is found at the one position that has it. -/
theorem MemberTable.find?_eq_some_iff {table : MemberTable} {key : Bytes} {position : Nat}
    (hdistinct : (table.members.map Member.name).Nodup) :
    table.find? key = some position ↔
      ∃ member, table.get? position = some member ∧ member.name = key := by
  rw [find?, List.findIdx?_eq_some_iff_getElem]
  constructor
  · rintro ⟨hposition, hname, -⟩
    exact ⟨_, List.getElem?_eq_getElem hposition, by simpa using hname⟩
  · rintro ⟨member, hmember, rfl⟩
    obtain ⟨hposition, rfl⟩ := List.getElem?_eq_some_iff.mp hmember
    refine ⟨hposition, by simp, fun earlier hearlier hsame => ?_⟩
    have hlength : position < (table.members.map Member.name).length := by simpa using hposition
    have hnames : (table.members.map Member.name)[earlier]
        = (table.members.map Member.name)[position] := by
      simpa using hsame
    have hequal := hdistinct.getElem_inj_iff.mp hnames
    omega

theorem Scan.exists_gives_written_name {name rest : Bytes} (hname : name.IsAligned)
    (hrest : rest.IsAligned) (writer : Writer) :
    ∃ written, (writer.key name).text
        = writer.text ++ ((if writer.owesComma then [Ascii.comma] else []) ++ written) ∧
      ∃ span stop, Gives Scan.name (.ofText (written ++ rest)) span stop ∧
        span.text = Writer.escape name ∧ stop.ahead = rest.dropWhile isBlank := by
  obtain ⟨before, hbefore, hstart⟩ := writer.exists_blanks_startEntry
  have hafter := Writer.isBlankText_afterColon writer.options
  have hsplit := List.takeWhile_append_dropWhile (p := isBlank) (l := rest)
  have hbehind : IsBlankText (rest.takeWhile isBlank) := fun byte hmem => List.mem_takeWhile_imp hmem
  let written := before ++ (Writer.quoted name ++ Ascii.colon :: Writer.afterColon writer.options)
  have hwhole : ∃ raw, IsNameText (Writer.escape name) raw ∧
      written ++ rest = raw ++ rest.dropWhile isBlank := by
    -- The blanks that follow are read together with the one behind the colon.
    refine ⟨_, .mk (Writer.isStringContent_escape name) hbefore isBlankText_nil
      (hafter.append hbehind), ?_⟩
    conv_lhs => rw [← hsplit]
    simp [written, Writer.quoted]
  obtain ⟨raw, hraw, hahead⟩ := hwhole
  have haligned : (written ++ rest).IsAligned := by
    have hquoted : (Writer.quoted name).IsAligned :=
      (Writer.isAligned_escape hname).enclosed rfl rfl
    exact (hbefore.isAligned.append (hquoted.append (hafter.isAligned.cons rfl))).append hrest
  have hunblank : startsUnblank (rest.dropWhile isBlank) := by
    obtain ⟨-, -, -, hunblank⟩ := (Cursor.ofText rest).exists_passes_skipBlanks
    rwa [Cursor.ahead_skipBlanks] at hunblank
  refine ⟨written, ?_, ?_⟩
  · rw [Writer.key_eq, Writer.text_put, hstart]
    simp only [written, List.append_assoc]
  · let start := Cursor.ofText (written ++ rest)
    obtain ⟨span, stop, hgives, hspan, hpasses⟩ :=
      exists_gives_name hraw (show start.ahead = _ from hahead) haligned hunblank
    exact ⟨span, stop, hgives, hspan, hpasses.ahead_eq hahead⟩

/-- The key that is written for a member, behind the comma that may be owed, is read as a name with
the member's escapes, and that is looked up as it stands. So of distinct names the one that is found
is the one spelled like that, which is the member's own exactly if there was nothing to escape. -/
theorem written_key_found_iff (table : MemberTable)
    (hdistinct : (table.members.map Member.name).Nodup)
    (htexts : ∀ member ∈ table.members, member.name.IsText) {position : Nat} {member : Member}
    (hmember : table.get? position = some member) (writer : Writer) (rest : String) :
    ∃ written, (writer.key member.name).text
        = writer.text ++ ((if writer.owesComma then [Ascii.comma] else []) ++ written) ∧
      ∃ span stop, Scan.Gives Scan.name (.ofText (written ++ Bytes.ofString rest)) span stop ∧
        span.text = Writer.escape member.name ∧
        stop.ahead = (Bytes.ofString rest).dropWhile isBlank ∧
        (∀ found, table.find? span.text = some found ↔
          ∃ other, table.get? found = some other ∧ other.name = Writer.escape member.name) ∧
        (table.find? span.text = some position ↔ IsEscapedContent member.name) := by
  have hname : member.name.IsAligned := by
    obtain ⟨name, hname⟩ := htexts member (List.mem_of_getElem? hmember)
    rw [hname]
    exact Bytes.isAligned_ofString name
  obtain ⟨written, hwritten, span, stop, hgives, hspan, hstop⟩ :=
    Scan.exists_gives_written_name hname (Bytes.isAligned_ofString rest) writer
  have hfind (found : Nat) : table.find? span.text = some found ↔
      ∃ other, table.get? found = some other ∧ other.name = Writer.escape member.name := by
    rw [hspan]
    exact MemberTable.find?_eq_some_iff hdistinct
  refine ⟨written, hwritten, span, stop, hgives, hspan, hstop, hfind, ?_⟩
  rw [hfind, ← Writer.escape_eq_self_iff]
  constructor
  · rintro ⟨other, hother, hsame⟩
    obtain rfl := Option.some.inj (hmember.symm.trans hother)
    exact hsame.symm
  · intro hself
    exact ⟨member, hmember, hself.symm⟩

/-- A quote, the same quote with its escape, and a name with a tab in it. -/
def quoteTable : MemberTable :=
  ⟨[.ofString "\"" .bool, .ofString "\\\"" .bool, .ofString "t\tb" .bool]⟩

theorem escaped_quote_found : ∃ span stop,
    Scan.Gives Scan.name (.ofText (Bytes.ofString "\n  \"\\\"\":  true")) span stop ∧
      quoteTable.find? span.text = some 1 ∧ stop.ahead = Bytes.ofString "true" := by
  let writer := (Writer.start { pretty := true }).begin .object
  have hdistinct : (quoteTable.members.map Member.name).Nodup := by decide
  have htexts : ∀ member ∈ quoteTable.members, member.name.IsText := by
    simp only [quoteTable, List.forall_mem_cons]
    exact ⟨⟨_, rfl⟩, ⟨_, rfl⟩, ⟨_, rfl⟩, by simp⟩
  have hmember : quoteTable.get? 1 = some (.ofString "\\\"" .bool) := rfl
  obtain ⟨written, hwritten, span, stop, hgives, -, hstop, -, hfound⟩ :=
    written_key_found_iff quoteTable hdistinct htexts hmember writer " true"
  have htext : written = Bytes.ofString "\n  \"\\\"\": " :=
    (List.append_cancel_left (hwritten.symm.trans (show _ = writer.text ++ ([] ++ _) from rfl)))
  have hcontent : IsEscapedContent (Bytes.ofString "\\\"") := .escaped (by decide) .nil
  rw [htext] at hgives
  exact ⟨span, stop, hgives, hfound.mpr hcontent, hstop⟩

/-- A bare quote is written like the name that has the escape already, so its key is found there,
and no name is written with a tab. -/
theorem bare_quote_found_elsewhere :
    (quoteTable.members.map Member.name).Nodup ∧
    (∃ span stop, Scan.Gives Scan.name
        (.ofText ((Writer.start {}).key (Bytes.ofString "\"")).text) span stop ∧
      quoteTable.find? span.text = some 1) ∧
    (¬ ∃ span stop, Scan.Gives Scan.name
        (.ofText ((Writer.start {}).key (Bytes.ofString "\"")).text) span stop ∧
      quoteTable.find? span.text = some 0) ∧
    ∃ span stop, Scan.Gives Scan.name
        (.ofText ((Writer.start {}).key (Bytes.ofString "t\tb")).text) span stop ∧
      quoteTable.find? span.text = none := by
  have hquote : Scan.Gives Scan.name
      (.ofText ((Writer.start {}).key (Bytes.ofString "\"")).text)
      ⟨Bytes.ofString "\\\"", 1, .string⟩ _ := rfl
  refine ⟨by decide, ⟨_, _, hquote, rfl⟩, ?_, ⟨_, _, rfl, rfl⟩⟩
  rintro ⟨span, stop, hgives, hfound⟩
  obtain ⟨rfl, -⟩ := hquote.unique hgives
  cases hfound

end SchemaJson
