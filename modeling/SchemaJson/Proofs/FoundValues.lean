import SchemaJson.Proofs.AlignedText
import SchemaJson.Proofs.QuotedText
import SchemaJson.Proofs.ScanSteps

/-! What the search for a value finds in front of a cursor: a quoted content, a balanced text
between brackets, or a run of bytes up to a separator. -/

namespace SchemaJson

def IsBlankText (text : Bytes) : Prop := ∀ byte ∈ text, isBlank byte = true

theorem isBlankText_nil : IsBlankText [] := by simp [IsBlankText]

theorem IsBlankText.append {first second : Bytes} (hfirst : IsBlankText first)
    (hsecond : IsBlankText second) : IsBlankText (first ++ second) := by
  intro byte hmem
  rcases List.mem_append.mp hmem with hmem | hmem
  · exact hfirst byte hmem
  · exact hsecond byte hmem

/-- The text does not start with a blank. -/
def startsUnblank (text : Bytes) : Prop := ∀ byte ∈ text.head?, isBlank byte = false

def Container.shape : Container → Shape
  | .object => .object
  | .array => .array

namespace Cursor

theorem exists_passes_skipBlanks (cursor : Cursor) :
    ∃ blanks, cursor.Passes blanks cursor.skipBlanks ∧ IsBlankText blanks ∧
      startsUnblank cursor.skipBlanks.ahead := by
  refine ⟨_, cursor.passes_skipBlanks, fun byte hmem => List.mem_takeWhile_imp hmem, ?_⟩
  intro byte hmem
  have hhead := List.head?_dropWhile_not isBlank cursor.ahead
  rw [ahead_skipBlanks, Option.mem_def] at hmem
  rw [hmem] at hhead
  exact hhead

theorem passes_skipBlanks_of_eq {cursor : Cursor} {blanks tail : Bytes}
    (h : cursor.ahead = blanks ++ tail) (hblanks : IsBlankText blanks)
    (htail : startsUnblank tail) : cursor.Passes blanks cursor.skipBlanks := by
  have htake : cursor.ahead.takeWhile isBlank = blanks := by
    have hnone : tail.takeWhile isBlank = [] := by
      cases tail with
      | nil => rfl
      | cons byte tail => simp [htail byte (by simp)]
    rw [h, List.takeWhile_append_of_pos hblanks, hnone, List.append_nil]
  exact htake ▸ cursor.passes_skipBlanks

theorem skipBlanks_of_startsUnblank {cursor : Cursor} (h : startsUnblank cursor.ahead) :
    cursor.skipBlanks = cursor := by
  have htake : cursor.ahead.takeWhile isBlank = [] := by
    cases hahead : cursor.ahead with
    | nil => rfl
    | cons byte tail => simp [h byte (by simp [hahead])]
  simp [skipBlanks, htake, advance]

@[simp]
theorem skipBlanks_skipBlanks (cursor : Cursor) : cursor.skipBlanks.skipBlanks = cursor.skipBlanks :=
  have ⟨_, _, _, hunblank⟩ := cursor.exists_passes_skipBlanks
  skipBlanks_of_startsUnblank hunblank

end Cursor

theorem isAscii_of_isBlank {byte : UInt8} (h : isBlank byte = true) : isAscii byte = true := by
  simp only [isBlank, Bool.or_eq_true, beq_iff_eq] at h
  rcases h with ((rfl | rfl) | rfl) | rfl <;> rfl

theorem IsBlankText.isAligned {blanks : Bytes} (h : IsBlankText blanks) : blanks.IsAligned :=
  Bytes.isAligned_of_isAscii fun byte hmem => isAscii_of_isBlank (h byte hmem)

theorem isAscii_of_isSeparator {byte : UInt8} (h : isSeparator byte = true) :
    isAscii byte = true := by
  simp only [isSeparator, Bool.or_eq_true, beq_iff_eq] at h
  rcases h with (rfl | rfl) | rfl <;> rfl

theorem isSeparator_eq_false_of_isBlank {byte : UInt8} (h : isBlank byte = true) :
    isSeparator byte = false := by
  simp only [isBlank, Bool.or_eq_true, beq_iff_eq] at h
  rcases h with ((rfl | rfl) | rfl) | rfl <;> rfl

theorem isBlank_eq_false_of_isSeparator {byte : UInt8} (h : isSeparator byte = true) :
    isBlank byte = false := by
  simp only [isSeparator, Bool.or_eq_true, beq_iff_eq] at h
  rcases h with (rfl | rfl) | rfl <;> rfl

theorem IsBlankText.isBalanced {blanks : Bytes} (h : IsBlankText blanks) (container : Container) :
    IsBalanced container blanks := by
  refine IsBalanced.of_plain fun byte hmem => ?_
  have hblank := h byte hmem
  refine ⟨?_, ?_, ?_, ?_⟩
  · rintro rfl
    cases hblank
  · rintro rfl
    cases hblank
  · rintro rfl
    cases container <;> cases hblank
  · rintro rfl
    cases container <;> cases hblank

theorem Bytes.IsAligned.after_blanks {blanks tail : Bytes} (h : IsAligned (blanks ++ tail))
    (hblanks : IsBlankText blanks) : IsAligned tail := by
  induction blanks with
  | nil => exact h
  | cons byte blanks ih =>
    have hbyte := isAscii_of_isBlank (hblanks byte (by simp))
    exact ih ((isAligned_cons_of_isAscii hbyte).mp h) fun other hmem => hblanks other (by simp [hmem])

theorem Bytes.IsAligned.skipBlanks {cursor : Cursor} (h : cursor.ahead.IsAligned) :
    cursor.skipBlanks.ahead.IsAligned :=
  have ⟨_, hpasses, hblanks, _⟩ := cursor.exists_passes_skipBlanks
  (hpasses.ahead ▸ h).after_blanks hblanks

theorem Cursor.capture_of_ahead {cursor : Cursor} {text rest : Bytes}
    (hahead : cursor.ahead = text ++ rest) (haligned : cursor.ahead.IsAligned)
    (hrest : Bytes.startsChar rest) (shape : Shape) :
    cursor.capture 0 text.length shape = ⟨text, cursor.offset, shape⟩ := by
  have hcut := Bytes.cut_append (hahead ▸ haligned.starts) hrest
  simp only [Cursor.capture, List.drop_zero, Nat.add_zero, hahead, hcut]

/-- A text without separators that neither starts like another kind of value nor starts or ends
with a blank. -/
structure IsLiteralText (text : Bytes) : Prop where
  head : ∃ byte ∈ text.head?, byte ≠ Ascii.quote ∧ byte ≠ Ascii.openBracket ∧
    byte ≠ Ascii.openBrace ∧ byte ≠ Ascii.colon ∧ isBlank byte = false
  whole : ∀ byte ∈ text, isSeparator byte = false
  last : ∀ byte ∈ text.getLast?, isBlank byte = false

def startsSeparator (text : Bytes) : Prop := ∃ byte ∈ text.head?, isSeparator byte = true

theorem exists_cons_of_startsSeparator {text : Bytes} (h : startsSeparator text) :
    ∃ byte tail, text = byte :: tail ∧ isSeparator byte = true := by
  obtain ⟨byte, hbyte, hseparator⟩ := h
  cases text with
  | nil => cases hbyte
  | cons head tail =>
    cases hbyte
    exact ⟨byte, tail, rfl, hseparator⟩

theorem startsChar_of_startsSeparator {blanks rest : Bytes} (hblanks : IsBlankText blanks)
    (hrest : startsSeparator rest) : Bytes.startsChar (blanks ++ rest) = true := by
  cases blanks with
  | nil =>
    obtain ⟨byte, tail, rfl, hseparator⟩ := exists_cons_of_startsSeparator hrest
    exact Bytes.startsChar_cons_of_isAscii (isAscii_of_isSeparator hseparator) tail
  | cons byte blanks =>
    exact Bytes.startsChar_cons_of_isAscii (isAscii_of_isBlank (hblanks byte (by simp))) _

/-- `raw` is taken for a value in front of `rest`, and `text` is kept of it. -/
inductive IsFound : (raw rest : Bytes) → Shape → (text : Bytes) → Prop
  | string {content rest : Bytes} : IsStringContent content →
      IsFound (Ascii.quote :: content ++ [Ascii.quote]) rest .string content
  | bracketed (container : Container) {inner rest : Bytes} : IsBalanced container inner →
      IsFound (container.opening :: inner ++ [container.closing]) rest container.shape
        (container.opening :: inner ++ [container.closing])
  | literal {text blanks rest : Bytes} : IsLiteralText text → IsBlankText blanks →
      startsSeparator rest → IsFound (text ++ blanks) rest .literal text

theorem IsFound.head {raw rest text : Bytes} {shape : Shape} (h : IsFound raw rest shape text) :
    ∃ byte tail, raw = byte :: tail ∧ isBlank byte = false := by
  cases h with
  | string => exact ⟨_, _, rfl, rfl⟩
  | bracketed container => exact ⟨_, _, rfl, by cases container <;> rfl⟩
  | @literal _ blanks _ htext =>
    obtain ⟨byte, hbyte, -, -, -, -, hblank⟩ := htext.head
    cases text with
    | nil => cases hbyte
    | cons head text =>
      cases hbyte
      exact ⟨_, text ++ blanks, rfl, hblank⟩

/-- How far behind its first byte the text of a value starts. -/
def openingLength : Shape → Nat
  | .string => 1
  | _ => 0

namespace Bytes

theorem withoutBlankEnd_append {text blanks : Bytes} (hblanks : IsBlankText blanks)
    (hlast : ∀ byte ∈ text.getLast?, isBlank byte = false) :
    withoutBlankEnd (text ++ blanks) = text := by
  have hdrop : text.reverse.dropWhile isBlank = text.reverse := by
    cases htext : text.reverse with
    | nil => rfl
    | cons byte rest =>
      have hbyte : byte ∈ text.getLast? := by
        rw [List.getLast?_eq_head?_reverse, htext]
        rfl
      simp [hlast byte hbyte]
  rw [withoutBlankEnd, List.reverse_append, List.dropWhile_append_of_pos
    (fun byte hmem => hblanks byte (List.mem_reverse.mp hmem)), hdrop, List.reverse_reverse]

theorem exists_blankEnd (text : Bytes) :
    ∃ blanks, text = withoutBlankEnd text ++ blanks ∧ IsBlankText blanks ∧
      ∀ byte ∈ (withoutBlankEnd text).getLast?, isBlank byte = false := by
  have hsplit := List.takeWhile_append_dropWhile (p := isBlank) (l := text.reverse)
  refine ⟨(text.reverse.takeWhile isBlank).reverse, ?_, ?_, ?_⟩
  · rw [withoutBlankEnd, ← List.reverse_append, hsplit, List.reverse_reverse]
  · intro byte hmem
    exact List.mem_takeWhile_imp (List.mem_reverse.mp hmem)
  · intro byte hmem
    have hhead := List.head?_dropWhile_not isBlank text.reverse
    rw [withoutBlankEnd, List.getLast?_reverse] at hmem
    rw [Option.mem_def.mp hmem] at hhead
    exact hhead

end Bytes

namespace Scan

section Capture

variable {start stop : Cursor} {span : Span}

theorem Gives.capture_of_string (h : Gives string start span stop) :
    ∃ length, unescapedQuote? (start.ahead.drop 1) = some length ∧
      span = start.capture 1 length .string ∧ stop = start.advance (length + 2) := by
  simp only [string, gives_bind, gives_get, gives_move] at h
  obtain ⟨_, _, ⟨rfl, rfl⟩, _, _, rfl, _, _, ⟨rfl, rfl⟩, h⟩ := h
  split at h
  next => exact absurd h not_gives_throw
  next length hquote =>
    simp only [gives_bind, gives_move, gives_pure, Cursor.advance_advance] at h
    obtain ⟨_, _, rfl, rfl, rfl⟩ := h
    exact ⟨length, hquote, rfl, by rw [Nat.add_comm 1]⟩

theorem Gives.capture_of_bracketed {openByte closeByte : UInt8} {shape : Shape}
    {unterminated : StructureFault}
    (h : Gives (bracketed openByte closeByte shape unterminated) start span stop) :
    ∃ last, matchingBracket? openByte closeByte start.ahead = some last ∧
      span = start.capture 0 (last + 1) shape ∧ stop = start.advance (last + 1) := by
  simp only [bracketed, gives_bind, gives_get] at h
  obtain ⟨_, _, ⟨rfl, rfl⟩, h⟩ := h
  split at h
  next => exact absurd h not_gives_fail
  next last hlast =>
    simp only [gives_bind, gives_move, gives_pure] at h
    obtain ⟨_, _, rfl, rfl, rfl⟩ := h
    exact ⟨last, hlast, rfl, rfl⟩

theorem Gives.capture_of_literal (h : Gives literal start span stop) :
    start.ahead.dropWhile (fun byte => !isSeparator byte) ≠ [] ∧
      span = start.capture 0
        (Bytes.withoutBlankEnd (start.ahead.takeWhile fun byte => !isSeparator byte)).length
        .literal ∧
      stop = start.advance (start.ahead.takeWhile fun byte => !isSeparator byte).length := by
  simp only [literal, gives_bind, gives_get, List.span_eq_takeWhile_dropWhile] at h
  obtain ⟨_, _, ⟨rfl, rfl⟩, h⟩ := h
  split at h
  next => exact absurd h not_gives_fail
  next hrest =>
    simp only [gives_bind, gives_move, gives_pure] at h
    obtain ⟨_, _, rfl, rfl, rfl⟩ := h
    exact ⟨by simp [hrest], rfl, rfl⟩

end Capture

theorem gives_string {start stop : Cursor} {span : Span} {tail : Bytes}
    (hahead : start.ahead = Ascii.quote :: tail) (haligned : start.ahead.IsAligned) :
    Gives string start span stop ↔ ∃ content rest, tail = content ++ Ascii.quote :: rest ∧
      IsStringContent content ∧ span = ⟨content, start.offset + 1, .string⟩ ∧
      stop = start.advance (content.length + 2) := by
  have hafter : (start.advance 1).ahead = tail := by simp [hahead]
  have hcapture : ∀ content rest, tail = content ++ Ascii.quote :: rest →
      start.capture 1 content.length .string = ⟨content, start.offset + 1, .string⟩ := by
    intro content rest htail
    rw [hahead] at haligned
    have hcontent := ((Bytes.isAligned_cons_of_isAscii rfl).mp haligned).starts
    rw [htail] at hcontent
    have hcut := Bytes.cut_append hcontent (Bytes.startsChar_cons_of_isAscii rfl rest)
    simp [Cursor.capture, hahead, htail, hcut]
  constructor
  · intro h
    obtain ⟨last, hquote, rfl, rfl⟩ := h.capture_of_string
    rw [hahead, List.drop_one, List.tail_cons] at hquote
    obtain ⟨content, rest, htail, rfl, hcontent⟩ := unescapedQuote?_eq_some_iff.mp hquote
    exact ⟨content, rest, htail, hcontent, hcapture content rest htail, rfl⟩
  · rintro ⟨content, rest, htail, hcontent, rfl, rfl⟩
    simp only [string, gives_bind, gives_get, gives_move]
    refine ⟨_, _, ⟨rfl, rfl⟩, (), _, rfl, _, _, ⟨rfl, rfl⟩, ?_⟩
    have hquote := unescapedQuote?_eq_some_iff.mpr ⟨content, rest, htail, rfl, hcontent⟩
    rw [hafter, hquote]
    simp only [gives_bind, gives_move, gives_pure]
    refine ⟨(), _, rfl, hcapture content rest htail, ?_⟩
    rw [Cursor.advance_advance, Nat.add_comm 1]

theorem gives_bracketed (container : Container) (unterminated : StructureFault)
    {start stop : Cursor} {span : Span} {tail : Bytes}
    (hahead : start.ahead = container.opening :: tail) (haligned : start.ahead.IsAligned) :
    Gives (bracketed container.opening container.closing container.shape unterminated) start span
      stop ↔ ∃ inner rest, tail = inner ++ container.closing :: rest ∧ IsBalanced container inner ∧
        span = ⟨container.opening :: inner ++ [container.closing], start.offset, container.shape⟩ ∧
        stop = start.advance (inner.length + 2) := by
  have hclosing : isAscii container.closing = true := by cases container <;> rfl
  have hcapture : ∀ inner rest, tail = inner ++ container.closing :: rest →
      start.capture 0 (inner.length + 2) container.shape
        = ⟨container.opening :: inner ++ [container.closing], start.offset, container.shape⟩ := by
    intro inner rest htail
    have hwhole : start.ahead = (container.opening :: inner ++ [container.closing]) ++ rest := by
      simp [hahead, htail]
    have hrest : Bytes.IsAligned rest := by
      rw [hahead, htail, ← List.cons_append] at haligned
      exact haligned.after hclosing
    have hcapture := Cursor.capture_of_ahead hwhole haligned hrest.starts container.shape
    simpa only [List.length_append, List.length_cons, List.length_nil] using hcapture
  constructor
  · intro h
    obtain ⟨last, hsearch, rfl, rfl⟩ := h.capture_of_bracketed
    rw [hahead] at hsearch
    obtain ⟨inner, rest, htail, rfl, hinner⟩ := matchingBracket?_eq_some_iff.mp hsearch
    exact ⟨inner, rest, htail, hinner, hcapture inner rest htail, rfl⟩
  · rintro ⟨inner, rest, htail, hinner, rfl, rfl⟩
    simp only [bracketed, gives_bind, gives_get]
    refine ⟨_, _, ⟨rfl, rfl⟩, ?_⟩
    have hsearch := matchingBracket?_eq_some_iff.mpr ⟨inner, rest, htail, rfl, hinner⟩
    rw [hahead, hsearch]
    simp only [gives_bind, gives_move, gives_pure]
    exact ⟨(), _, rfl, hcapture inner rest htail, rfl⟩

theorem gives_literal {start stop : Cursor} {span : Span} (haligned : start.ahead.IsAligned) :
    Gives literal start span stop ↔ ∃ text blanks rest, start.ahead = text ++ blanks ++ rest ∧
      (∀ byte ∈ text ++ blanks, isSeparator byte = false) ∧ IsBlankText blanks ∧
      (∀ byte ∈ text.getLast?, isBlank byte = false) ∧ startsSeparator rest ∧
      span = ⟨text, start.offset, .literal⟩ ∧
      stop = start.advance (text ++ blanks).length := by
  have hcapture : ∀ text blanks rest, start.ahead = text ++ blanks ++ rest →
      IsBlankText blanks → startsSeparator rest →
      start.capture 0 text.length .literal = ⟨text, start.offset, .literal⟩ := by
    intro text blanks rest hahead hblanks hrest
    rw [List.append_assoc] at hahead
    exact Cursor.capture_of_ahead hahead haligned (startsChar_of_startsSeparator hblanks hrest) .literal
  constructor
  · intro h
    obtain ⟨hrest, rfl, rfl⟩ := h.capture_of_literal
    have hsplit := List.takeWhile_append_dropWhile (p := fun byte => !isSeparator byte)
      (l := start.ahead)
    have hrun : ∀ byte ∈ start.ahead.takeWhile fun byte => !isSeparator byte,
        isSeparator byte = false := by
      intro byte hmem
      simpa using List.mem_takeWhile_imp hmem
    obtain ⟨blanks, hblanks, hall, hlast⟩ := Bytes.exists_blankEnd
      (start.ahead.takeWhile fun byte => !isSeparator byte)
    have hhead := List.head?_dropWhile_not (fun byte => !isSeparator byte) start.ahead
    obtain ⟨byte, rest, hbyte⟩ := List.exists_cons_of_ne_nil hrest
    rw [hbyte] at hhead hsplit
    rw [hblanks] at hsplit hrun
    have hseparator : startsSeparator (byte :: rest) := ⟨byte, rfl, by simpa using hhead⟩
    exact ⟨_, blanks, byte :: rest, hsplit.symm, hrun, hall, hlast, hseparator,
      hcapture _ blanks _ hsplit.symm hall hseparator, by rw [← hblanks]⟩
  · rintro ⟨text, blanks, rest, hahead, hrun, hblanks, hlast, hseparator, rfl, rfl⟩
    simp only [literal, gives_bind, gives_get, List.span_eq_takeWhile_dropWhile]
    refine ⟨_, _, ⟨rfl, rfl⟩, ?_⟩
    obtain ⟨byte, tail, rfl, hfound⟩ := exists_cons_of_startsSeparator hseparator
    have hpass : ∀ byte ∈ text ++ blanks, (!isSeparator byte) = true := by
      intro byte hmem
      simp [hrun byte hmem]
    have htake : start.ahead.takeWhile (fun byte => !isSeparator byte) = text ++ blanks := by
      rw [hahead, List.takeWhile_append_of_pos hpass]
      simp [hfound]
    have hdrop : start.ahead.dropWhile (fun byte => !isSeparator byte) = byte :: tail := by
      rw [hahead, List.dropWhile_append_of_pos hpass]
      simp [hfound]
    rw [htake, hdrop, Bytes.withoutBlankEnd_append hblanks hlast]
    simp only [gives_bind, gives_move, gives_pure]
    exact ⟨(), _, rfl, hcapture text blanks _ hahead hblanks hseparator, rfl⟩

/-- What stands in front of a separator is a literal if its first byte starts nothing else. -/
theorem isLiteralText_of_head {byte : UInt8} {tail text blanks rest : Bytes}
    (htext : byte :: tail = text ++ blanks ++ rest) (hblank : isBlank byte = false)
    (hquote : byte ≠ Ascii.quote) (hbracket : byte ≠ Ascii.openBracket)
    (hbrace : byte ≠ Ascii.openBrace) (hcolon : byte ≠ Ascii.colon)
    (hseparator : isSeparator byte = false)
    (hwhole : ∀ other ∈ text ++ blanks, isSeparator other = false) (hblanks : IsBlankText blanks)
    (hlast : ∀ other ∈ text.getLast?, isBlank other = false) (hrest : startsSeparator rest) :
    IsLiteralText text := by
  refine ⟨?_, fun other hmem => hwhole other (by simp [hmem]), hlast⟩
  obtain ⟨found, hfound, hseparates⟩ := hrest
  cases text with
  | cons head text =>
    cases htext
    exact ⟨byte, rfl, hquote, hbracket, hbrace, hcolon, hblank⟩
  | nil =>
    cases blanks with
    | cons head blanks =>
      cases htext
      have hhead := hblanks byte (by simp)
      rw [hblank] at hhead
      cases hhead
    | nil =>
      cases htext
      cases hfound
      simp [hseparates] at hseparator

/-- The byte at the cursor says which kind of value stands there. -/
inductive GivesValue (start : Cursor) (span : Span) (stop : Cursor) : Prop
  | string : start.peek? = some Ascii.quote → Gives string start span stop →
      GivesValue start span stop
  | array : start.peek? = some Ascii.openBracket → Gives array start span stop →
      GivesValue start span stop
  | object : start.peek? = some Ascii.openBrace → Gives object start span stop →
      GivesValue start span stop
  | literal {byte : UInt8} : start.peek? = some byte → byte ≠ Ascii.quote →
      byte ≠ Ascii.openBracket → byte ≠ Ascii.openBrace → isSeparator byte = false →
      byte ≠ Ascii.colon → Gives literal start span stop → GivesValue start span stop

theorem gives_value_iff {start stop : Cursor} {span : Span} :
    Gives value start span stop ↔ GivesValue start.skipBlanks span stop := by
  constructor
  · intro h
    simp only [value, gives_bind, gives_skipBlanks, gives_get] at h
    obtain ⟨_, _, rfl, _, _, ⟨rfl, rfl⟩, h⟩ := h
    split at h
    next => exact absurd h not_gives_fail
    next byte hbyte =>
      split_ifs at h with hquote hbracket hbrace hplain
      · exact .string (hquote ▸ hbyte) h
      · exact .array (hbracket ▸ hbyte) h
      · exact .object (hbrace ▸ hbyte) h
      · exact absurd h not_gives_fail
      · simp only [Bool.or_eq_true, beq_iff_eq, not_or, Bool.not_eq_true] at hplain
        exact .literal hbyte hquote hbracket hbrace hplain.1 hplain.2 h
  · intro h
    simp only [value, gives_bind, gives_skipBlanks, gives_get]
    refine ⟨(), _, rfl, _, _, ⟨rfl, rfl⟩, ?_⟩
    cases h with
    | string hbyte h =>
      rw [hbyte]
      exact h
    | array hbyte h =>
      rw [hbyte]
      exact h
    | object hbyte h =>
      rw [hbyte]
      exact h
    | literal hbyte hquote hbracket hbrace hseparator hcolon h =>
      rw [hbyte]
      simpa [hquote, hbracket, hbrace, hseparator, hcolon] using h

theorem GivesValue.exists_cons {start stop : Cursor} {span : Span} (h : GivesValue start span stop) :
    ∃ byte tail, start.ahead = byte :: tail := by
  cases h with
  | string hbyte => exact ⟨_, List.head?_eq_some_iff.mp hbyte⟩
  | array hbyte => exact ⟨_, List.head?_eq_some_iff.mp hbyte⟩
  | object hbyte => exact ⟨_, List.head?_eq_some_iff.mp hbyte⟩
  | literal hbyte => exact ⟨_, List.head?_eq_some_iff.mp hbyte⟩

/-- A value at the cursor, without blanks in front of it. -/
theorem gives_value_of_peek {start stop : Cursor} {span : Span} {byte : UInt8} {tail : Bytes}
    (hahead : start.ahead = byte :: tail) (hblank : isBlank byte = false)
    (haligned : start.ahead.IsAligned) (h : Gives value start span stop) :
    ∃ raw rest, start.ahead = raw ++ rest ∧ IsFound raw rest span.shape span.text ∧
      span.offset = start.offset + openingLength span.shape ∧ stop = start.advance raw.length := by
  have hskip : start.skipBlanks = start :=
    Cursor.skipBlanks_of_startsUnblank (by simpa [hahead, startsUnblank] using hblank)
  have hpeek : start.peek? = some byte := by simp [Cursor.peek?, hahead]
  rw [gives_value_iff, hskip] at h
  cases h with
  | string hbyte h =>
    obtain rfl := Option.some.inj (hpeek.symm.trans hbyte)
    obtain ⟨content, rest, htail, hcontent, rfl, rfl⟩ := (gives_string hahead haligned).mp h
    refine ⟨Ascii.quote :: content ++ [Ascii.quote], rest, ?_, .string hcontent, rfl, ?_⟩
    · simp [hahead, htail]
    · simp
  | array hbyte h =>
    obtain rfl := Option.some.inj (hpeek.symm.trans hbyte)
    obtain ⟨inner, rest, htail, hinner, rfl, rfl⟩ :=
      (gives_bracketed .array _ hahead haligned).mp h
    exact ⟨_, rest, by simp [hahead, htail, Container.opening], .bracketed .array hinner, rfl,
      by simp⟩
  | object hbyte h =>
    obtain rfl := Option.some.inj (hpeek.symm.trans hbyte)
    obtain ⟨inner, rest, htail, hinner, rfl, rfl⟩ :=
      (gives_bracketed .object _ hahead haligned).mp h
    exact ⟨_, rest, by simp [hahead, htail, Container.opening], .bracketed .object hinner, rfl,
      by simp⟩
  | literal hbyte hquote hbracket hbrace hseparator hcolon h =>
    obtain rfl := Option.some.inj (hpeek.symm.trans hbyte)
    obtain ⟨text, blanks, rest, htext, hwhole, hblanks, hlast, hrest, rfl, rfl⟩ :=
      (gives_literal haligned).mp h
    have hliteral := isLiteralText_of_head (hahead ▸ htext) hblank hquote hbracket hbrace hcolon
      hseparator hwhole hblanks hlast hrest
    exact ⟨_, rest, htext, .literal hliteral hblanks hrest, rfl, rfl⟩

/-- Whatever is found at the cursor is the value there. -/
theorem gives_value_of_isFound {start : Cursor} {shape : Shape} {raw rest text : Bytes}
    (hahead : start.ahead = raw ++ rest) (haligned : start.ahead.IsAligned)
    (hfound : IsFound raw rest shape text) :
    Gives value start ⟨text, start.offset + openingLength shape, shape⟩ (start.advance raw.length) := by
  obtain ⟨byte, tail, hraw, hblank⟩ := hfound.head
  have hcons : start.ahead = byte :: (tail ++ rest) := by rw [hahead, hraw, List.cons_append]
  have hskip : start.skipBlanks = start :=
    Cursor.skipBlanks_of_startsUnblank (by simpa [hcons, startsUnblank] using hblank)
  have hpeek : start.peek? = some byte := by simp [Cursor.peek?, hcons]
  rw [gives_value_iff, hskip]
  cases hfound with
  | string hcontent =>
    obtain ⟨rfl, rfl⟩ := List.cons.inj hraw
    exact .string hpeek ((gives_string hcons haligned).mpr
      ⟨text, rest, by simp, hcontent, rfl, by simp⟩)
  | @bracketed container inner _ hinner =>
    obtain ⟨rfl, rfl⟩ := List.cons.inj hraw
    have hgives (unterminated) := (gives_bracketed container unterminated hcons haligned).mpr
      ⟨inner, rest, by simp, hinner, rfl, rfl⟩
    have hlength : (container.opening :: inner ++ [container.closing]).length
        = inner.length + 2 := by simp
    rw [hlength]
    cases container with
    | object => exact .object hpeek (hgives .unterminatedObject)
    | array => exact .array hpeek (hgives .unterminatedArray)
  | @literal _ blanks _ htext hblanks hrest =>
    obtain ⟨found, hmem, hquote, hbracket, hbrace, hcolon, -⟩ := htext.head
    obtain rfl : byte = found := by
      cases text with
      | nil => cases hmem
      | cons head text =>
        cases hmem
        exact (List.cons.inj hraw).1.symm
    have hseparator : isSeparator byte = false := htext.whole byte (List.mem_of_mem_head? hmem)
    refine .literal hpeek hquote hbracket hbrace hseparator hcolon ((gives_literal haligned).mpr
      ⟨text, blanks, rest, hahead, ?_, hblanks, htext.last, hrest, rfl, rfl⟩)
    intro other hother
    rcases List.mem_append.mp hother with hother | hother
    · exact htext.whole other hother
    · exact isSeparator_eq_false_of_isBlank (hblanks other hother)

theorem gives_value_skipBlanks {start stop : Cursor} {span : Span} :
    Gives value start.skipBlanks span stop ↔ Gives value start span stop := by
  rw [gives_value_iff, gives_value_iff, Cursor.skipBlanks_skipBlanks]

/-- A value that is found stands behind blanks, in one of the three forms. -/
theorem Gives.exists_isFound {start stop : Cursor} {span : Span} (h : Gives value start span stop)
    (haligned : start.ahead.IsAligned) :
    ∃ blanks raw, start.Passes (blanks ++ raw) stop ∧ IsBlankText blanks ∧
      IsFound raw stop.ahead span.shape span.text ∧
      span.offset = start.offset + blanks.length + openingLength span.shape := by
  obtain ⟨blanks, hpasses, hblanks, hunblank⟩ := start.exists_passes_skipBlanks
  have hmiddle := (hpasses.ahead ▸ haligned).after_blanks hblanks
  obtain ⟨byte, tail, hahead⟩ := (gives_value_iff.mp h).exists_cons
  obtain ⟨raw, rest, hraw, hfound, hoffset, rfl⟩ := gives_value_of_peek hahead
    (hunblank byte (hahead ▸ rfl)) hmiddle (gives_value_skipBlanks.mpr h)
  have hpast := Cursor.passes_advance hraw
  refine ⟨blanks, raw, hpasses.trans hpast, hblanks, ?_, ?_⟩
  · rw [hpast.ahead_eq hraw]
    exact hfound
  · rw [hoffset, hpasses.offset]

theorem exists_gives_value {start : Cursor} {blanks raw rest text : Bytes} {shape : Shape}
    (hahead : start.ahead = blanks ++ (raw ++ rest)) (haligned : start.ahead.IsAligned)
    (hblanks : IsBlankText blanks) (hfound : IsFound raw rest shape text) :
    ∃ stop, Gives value start ⟨text, start.offset + blanks.length + openingLength shape, shape⟩ stop
      ∧ start.Passes (blanks ++ raw) stop := by
  obtain ⟨byte, tail, hraw, hblank⟩ := hfound.head
  have hunblank : startsUnblank (raw ++ rest) := by
    rw [hraw]
    intro other hother
    cases hother
    exact hblank
  have hpasses := Cursor.passes_skipBlanks_of_eq hahead hblanks hunblank
  have hmiddle := hpasses.ahead_eq hahead
  refine ⟨start.skipBlanks.advance raw.length, ?_, hpasses.trans (Cursor.passes_advance hmiddle)⟩
  rw [← gives_value_skipBlanks]
  have haligned' : start.skipBlanks.ahead.IsAligned := by
    rw [hmiddle]
    exact (hahead ▸ haligned).after_blanks hblanks
  rw [← hpasses.offset]
  exact gives_value_of_isFound hmiddle haligned' hfound

end Scan

end SchemaJson
