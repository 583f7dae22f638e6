import SchemaJson.Proofs.CapturedValues
import SchemaJson.Proofs.DecodedShapes
import SchemaJson.Proofs.FoundSpans
import SchemaJson.Proofs.ScanFailures
import SchemaJson.Proofs.SlicedSpans

/-! What is cut out of a container is at least two bytes shorter than it. In an object a brace and a
name stand in front of a value. In an array only the bracket has to, and the value stays in front of
the last byte because it would otherwise have ended the container too early. -/

namespace SchemaJson

namespace Cursor

variable {start : Cursor}

theorem index_lt_advance (h : start.ahead ≠ []) (count : Nat) :
    start.index < (start.advance (count + 1)).index := by
  have hlength := List.length_pos_of_ne_nil h
  rw [advance, List.length_take]
  dsimp only
  omega

theorem ahead_ne_nil_of_peek? {byte : UInt8} (h : start.peek? = some byte) : start.ahead ≠ [] := by
  obtain ⟨tail, htail⟩ := List.head?_eq_some_iff.mp h
  simp [htail]

theorem length_capture_le (cursor : Cursor) (skipped length : Nat) (shape : Shape) :
    (cursor.capture skipped length shape).text.length ≤ cursor.ahead.length := by
  rcases Bytes.cut_eq_take_or_nil (cursor.ahead.drop skipped) length with hcut | hcut
  · rw [capture, hcut, List.length_take, List.length_drop]
    omega
  · rw [capture, hcut]
    exact Nat.zero_le _

end Cursor

namespace Scan

variable {start stop : Cursor} {span : Span}

/-- Every value is captured from the bytes ahead, and at least the first of them is passed. -/
theorem GivesValue.exists_capture (h : GivesValue start span stop) :
    start.ahead ≠ [] ∧ ∃ skipped length shape passed,
      span = start.capture skipped length shape ∧ stop = start.advance (passed + 1) := by
  cases h with
  | string hbyte h =>
    obtain ⟨length, -, hspan, hstop⟩ := h.capture_of_string
    exact ⟨Cursor.ahead_ne_nil_of_peek? hbyte, _, _, _, _, hspan, hstop⟩
  | array hbyte h =>
    obtain ⟨last, -, hspan, hstop⟩ := h.capture_of_bracketed
    exact ⟨Cursor.ahead_ne_nil_of_peek? hbyte, _, _, _, _, hspan, hstop⟩
  | object hbyte h =>
    obtain ⟨last, -, hspan, hstop⟩ := h.capture_of_bracketed
    exact ⟨Cursor.ahead_ne_nil_of_peek? hbyte, _, _, _, _, hspan, hstop⟩
  | @literal byte hbyte _ _ _ hseparator _ h =>
    obtain ⟨-, hspan, hstop⟩ := h.capture_of_literal
    obtain ⟨tail, htail⟩ := List.head?_eq_some_iff.mp hbyte
    have hrun : start.ahead.takeWhile (fun byte => !isSeparator byte)
        = byte :: tail.takeWhile fun byte => !isSeparator byte := by
      rw [htail, List.takeWhile_cons_of_pos (by simp [hseparator])]
    rw [hrun, List.length_cons] at hstop
    exact ⟨Cursor.ahead_ne_nil_of_peek? hbyte, _, _, _, _, hspan, hstop⟩

theorem Gives.index_lt_of_value (h : Gives value start span stop) : start.index < stop.index := by
  obtain ⟨hne, _, _, _, passed, -, rfl⟩ := (gives_value_iff.mp h).exists_capture
  exact start.reaches_skipBlanks.index_le.trans_lt (Cursor.index_lt_advance hne passed)

theorem Gives.length_value_le (h : Gives value start span stop) :
    span.text.length ≤ start.ahead.length := by
  obtain ⟨-, skipped, length, shape, _, rfl, -⟩ := (gives_value_iff.mp h).exists_capture
  exact (Cursor.length_capture_le _ _ _ _).trans start.reaches_skipBlanks.length_ahead_le

end Scan

theorem IsFound.shape_of_empty {raw rest text : Bytes} {shape : Shape}
    (h : IsFound raw rest shape text) (htext : text = []) : shape = .string := by
  cases h with
  | string => rfl
  | bracketed => cases htext
  | literal hliteral =>
    obtain ⟨byte, hbyte, -⟩ := hliteral.head
    rw [htext] at hbyte
    cases hbyte

namespace Scan

variable {document : String} {start stop : Cursor} {span : Span}

theorem Gives.shape_of_empty (h : Gives value start span stop) (hstart : start.IsOver document)
    (hstarts : Bytes.startsChar start.ahead = true) (htext : span.text = []) :
    span.shape = .string := by
  obtain ⟨blanks, raw, -, -, hfound, -⟩ := h.exists_isFound (hstart.isAligned hstarts)
  exact hfound.shape_of_empty htext

/-- Inside a character a literal is found, and its text is lost since it starts there. -/
theorem Gives.empty_inside_char (h : Gives value start span stop)
    (hinside : Bytes.startsChar start.ahead = false) : span.shape = .literal ∧ span.text = [] := by
  have hhead : ∀ byte ∈ start.ahead.head?, isAscii byte = false := by
    intro byte hbyte
    obtain ⟨tail, htail⟩ := List.head?_eq_some_iff.mp hbyte
    by_contra hascii
    rw [htail, Bytes.startsChar_cons_of_isAscii (by simpa using hascii)] at hinside
    cases hinside
  have hskip : start.skipBlanks = start := by
    refine Cursor.skipBlanks_of_startsUnblank fun byte hbyte => ?_
    by_contra hblank
    have hascii := hhead byte hbyte
    rw [isAscii_of_isBlank (by simpa using hblank)] at hascii
    cases hascii
  have hvalue := gives_value_iff.mp h
  rw [hskip] at hvalue
  cases hvalue with
  | string hbyte => cases hhead _ hbyte
  | array hbyte => cases hhead _ hbyte
  | object hbyte => cases hhead _ hbyte
  | literal _ _ _ _ _ _ hliteral =>
    obtain ⟨-, rfl, -⟩ := hliteral.capture_of_literal
    refine ⟨rfl, ?_⟩
    rw [Cursor.capture, List.drop_zero, Bytes.cut, hinside]
    rfl

end Scan

theorem Bytes.EndsPlain.append {front back : Bytes} (hfront : front.EndsPlain)
    (hback : back.EndsPlain) : Bytes.EndsPlain (front ++ back) := by
  intro last hlast
  rw [List.getLast?_append] at hlast
  cases hend : back.getLast? with
  | none =>
    rw [hend] at hlast
    exact hfront last hlast
  | some byte =>
    rw [hend] at hlast
    exact hback last (hend.trans hlast)

theorem IsBlankText.endsPlain {blanks : Bytes} (h : IsBlankText blanks) :
    Bytes.EndsPlain blanks := by
  rintro last hlast rfl
  cases h _ (List.mem_of_getLast? hlast)

theorem IsBlankText.endsPlain_behind {front blanks : Bytes} {byte : UInt8} (h : IsBlankText blanks)
    (hbyte : byte ≠ Ascii.backslash) : Bytes.EndsPlain (front ++ byte :: blanks) := by
  rw [List.append_cons]
  refine Bytes.EndsPlain.append (fun last hlast => ?_) h.endsPlain
  rw [List.getLast?_concat] at hlast
  cases hlast
  exact hbyte

namespace Site

/-- The site lies behind the opening bracket of a container. -/
def isInside : Site → Bool
  | container _ => false
  | _ => true

/-- Bytes of the container that lie behind the site at least: its opening bracket, and of a member the
name. -/
def passed : Site → Nat
  | container _ => 0
  | name _ | value .array _ => 1
  | value .object _ => 2

theorem passed_entrySite (container : Container) (cursor : Cursor) :
    (container.entrySite cursor).passed = 1 := by
  cases container <;> rfl

theorem Step.passes {site site' : Site} (h : site.Step site') (hinside : site'.isInside = true)
    (haligned : site.cursor.ahead.IsAligned) :
    ∃ raw, site.cursor.Passes raw site'.cursor ∧ raw.EndsPlain ∧
      site'.passed ≤ site.passed + raw.length ∧ site'.cursor.ahead.IsAligned := by
  cases h with
  | enter hopen =>
    rename_i container start
    obtain ⟨before, blanks, hpasses, -, hblanks, hstop⟩ :=
      Cursor.exists_passes_opening hopen haligned
    rw [cursor_entrySite, passed_entrySite]
    refine ⟨_, hpasses, hblanks.endsPlain_behind (by cases container <;> decide), ?_, hstop⟩
    simp only [List.length_append, List.length_singleton]
    omega
  | named hname =>
    obtain ⟨raw, hpasses, hraw⟩ := hname.exists_name haligned
    have hstop := hraw.aligned (hpasses.ahead ▸ haligned)
    obtain @⟨before, middle, after, -, -, -, hafter⟩ := hraw
    refine ⟨_, hpasses, hafter.endsPlain_behind (by decide), ?_, hstop⟩
    simp only [passed, List.length_append, List.length_cons]
    omega
  | next hvalue hseparator =>
    obtain ⟨blanks, raw, hpast, -⟩ := hvalue.exists_isFound haligned
    obtain ⟨before, after, hmark, -, hafter, -, -⟩ := hseparator.exists_separator
    have hpasses := hpast.trans hmark
    rw [← List.append_assoc] at hpasses
    rw [cursor_entrySite, passed_entrySite]
    refine ⟨_, hpasses, hafter.endsPlain_behind (by decide), ?_,
      hseparator.aligned_of_separator (hvalue.aligned_around_value haligned).2⟩
    simp only [List.length_append, List.length_cons]
    omega
  | past => cases hinside
  | opened => cases hinside

end Site

/-- The walk over the entries of a span comes to the site, whether or not it gets to the end later. -/
inductive Span.Walks (span : Span) : Site → Prop
  | start : Walks span (.container (.ofSpan span))
  | onward {site site' : Site} : Walks span site → site.Step site' → site'.isInside = true →
      Walks span site'

theorem Span.Walks.passes {span : Span} {site : Site} (h : span.Walks site)
    (haligned : span.text.IsAligned) :
    ∃ front, (Cursor.ofSpan span).Passes front site.cursor ∧ front.EndsPlain ∧
      site.passed ≤ front.length ∧ site.cursor.ahead.IsAligned := by
  induction h with
  | start => exact ⟨[], .refl _, by simp [Bytes.EndsPlain], Nat.le_refl 0, haligned⟩
  | onward _ hstep hinside ih =>
    obtain ⟨front, hfront, hplain, hpassed, hmiddle⟩ := ih
    obtain ⟨raw, hraw, hend, hmore, hstop⟩ := hstep.passes hinside hmiddle
    refine ⟨front ++ raw, hfront.trans hraw, hplain.append hend, ?_, hstop⟩
    rw [List.length_append]
    omega

/-- A value that starts in an array where nothing escapes its first byte ends in front of the last
byte of the array. -/
theorem IsFound.rest_ne_nil {raw rest text front inner : Bytes} {shape : Shape}
    (h : IsFound raw rest shape text) (hinner : IsBalanced .array inner)
    (hsplit : Ascii.openBracket :: inner ++ [Ascii.closeBracket] = front ++ (raw ++ rest))
    (hne : front ≠ []) (hfront : front.EndsPlain) : rest ≠ [] := by
  rintro rfl
  rw [List.append_nil] at hsplit
  cases h with
  | string =>
    rw [← List.append_assoc] at hsplit
    exact absurd (List.append_inj' hsplit rfl).2 (by decide)
  | bracketed container hcontent =>
    cases container with
    | object =>
      rw [← List.append_assoc] at hsplit
      exact absurd (List.append_inj' hsplit rfl).2 (by decide)
    | array =>
      -- What stands in front of the value would already match the first bracket.
      have hwhole : IsBalanced .array (Ascii.openBracket :: inner ++ [Ascii.closeBracket]) :=
        hinner.bracketed
      rw [hsplit] at hwhole
      have hbefore := hwhole.of_append_right hcontent.bracketed hfront
      cases hinner.eq_nil_of_append hbefore hne hsplit
  | literal _ _ hrest =>
    obtain ⟨byte, hbyte, -⟩ := hrest
    cases hbyte

/-- The values that are taken out of a container are two bytes shorter than it. A class is looked for
in a text of any shape, an array only where one was found. -/
structure Span.Shrinks (container : Span) : Prop where
  captured : ∀ kind start item stop, (kind = .array → container.shape = .array) →
    container.Walks (.value kind start) → Scan.Gives Scan.value start item stop →
    item.text.length + 2 ≤ container.text.length
  members : ∀ table className given stop item,
    Scan.Gives (Scan.memberTexts table className) (.ofSpan container) given stop →
    some item ∈ given → item.text.length + 2 ≤ container.text.length
  elements : ∀ item ∈ (Scan.arrayElements.run (.ofSpan container)).1.1,
    item.text.length + 2 ≤ container.text.length

theorem Span.Walks.length_le {container : Container} {span item : Span} {start stop : Cursor}
    (hwalks : span.Walks (.value container start)) (haligned : span.text.IsAligned)
    (harray : container = .array → ∃ raw rest, IsFound raw rest .array span.text)
    (h : Scan.Gives Scan.value start item stop) : item.text.length + 2 ≤ span.text.length := by
  obtain ⟨front, hfront, hplain, hpassed, hahead⟩ := hwalks.passes haligned
  cases container with
  | object =>
    -- The brace and the name are enough, whatever stands behind the value.
    have hlength := congrArg List.length hfront.ahead
    have hitem := h.length_value_le
    rw [Cursor.ahead_ofSpan, List.length_append] at hlength
    simp only [Site.passed, Site.cursor] at hpassed hlength
    omega
  | array =>
    obtain ⟨whole, behind, hwhole⟩ := harray rfl
    obtain ⟨inner, htext, hinner⟩ :=
      IsFound.exists_inner (show IsFound _ _ Container.array.shape _ from hwhole)
    obtain ⟨blanks, raw, hpasses, hblanks, hfound, -⟩ := h.exists_isFound hahead
    have hsplit : span.text = (front ++ blanks) ++ (raw ++ stop.ahead) := by
      simpa only [Cursor.ahead_ofSpan, List.append_assoc] using (hfront.trans hpasses).ahead
    have hne : front ++ blanks ≠ [] := by
      simp [List.ne_nil_of_length_pos hpassed]
    -- Only the bracket is sure to stand in front, so a byte has to be left behind the value.
    have hrest := List.length_pos_of_ne_nil
      (hfound.rest_ne_nil hinner (htext ▸ hsplit) hne (hplain.append hblanks.endsPlain))
    obtain ⟨opening, closing, rfl, -⟩ := hfound.exists_text
    have hfirst : 1 ≤ front.length := hpassed
    simp only [hsplit, List.length_append]
    omega

theorem Scan.Gives.shrinks {document : String} {start stop : Cursor} {span : Span}
    (h : Gives value start span stop) (hstart : start.IsOver document) : span.Shrinks := by
  have hspan : span.text.IsAligned ∧
      (span.shape = .array → ∃ raw rest, IsFound raw rest .array span.text) := by
    cases hstarts : Bytes.startsChar start.ahead with
    | true =>
      have haligned := hstart.isAligned hstarts
      obtain ⟨-, raw, -, -, hfound, -⟩ := h.exists_isFound haligned
      exact ⟨(h.aligned_around_value haligned).1, fun hshape => ⟨raw, _, hshape ▸ hfound⟩⟩
    | false =>
      obtain ⟨hshape, htext⟩ := h.empty_inside_char hstarts
      rw [hshape, htext]
      exact ⟨Bytes.isAligned_nil, nofun⟩
  obtain ⟨haligned, harray⟩ := hspan
  constructor
  · intro kind inside item after hkind hwalks hitem
    exact hwalks.length_le haligned (fun hcontainer => harray (hkind hcontainer)) hitem
  · intro table className given after item hgiven hitem
    exact (hgiven.isPartOf_of_memberTexts haligned hitem).length_lt
  · intro item hitem
    exact (isPartOf_of_arrayElements haligned hitem).length_lt

end SchemaJson
