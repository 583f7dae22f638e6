import SchemaJson.Proofs.EscapedText
import SchemaJson.Proofs.WrittenEntries

/-! What the writer puts down for a text or a name is a string of RFC 8259, unless the text has a
`\u` without its four digits: that is taken for an escape and kept. -/

namespace SchemaJson

def isHexDigit (byte : UInt8) : Bool :=
  isDigit byte || (0x41 ≤ byte && byte ≤ 0x46) || (0x61 ≤ byte && byte ≤ 0x66)

def startsHexDigits : Nat → Bytes → Bool
  | 0, _ => true
  | _ + 1, [] => false
  | count + 1, byte :: rest => isHexDigit byte && startsHexDigits count rest

theorem isUnescaped_of_isHexDigit {byte : UInt8} (h : isHexDigit byte = true) :
    isUnescaped byte = true := by
  have hbits : ∀ bits : BitVec 8, isHexDigit ⟨bits⟩ = true → isUnescaped ⟨bits⟩ = true := by
    decide
  exact hbits byte.toBitVec h

theorem startsHexDigits_iff {count : Nat} {text : Bytes} :
    startsHexDigits count text = true ↔ ∃ digits rest, text = digits ++ rest ∧
      digits.length = count ∧ ∀ byte ∈ digits, isHexDigit byte = true := by
  induction count generalizing text with
  | zero => exact ⟨fun _ => ⟨[], text, rfl, rfl, by simp⟩, fun _ => rfl⟩
  | succ count ih =>
    cases text with
    | nil =>
      constructor
      · intro h
        cases h
      · rintro ⟨digits, rest, htext, hlength, -⟩
        obtain ⟨rfl, -⟩ := List.append_eq_nil_iff.mp htext.symm
        cases hlength
    | cons byte text =>
      rw [startsHexDigits, Bool.and_eq_true, ih]
      constructor
      · rintro ⟨hbyte, digits, rest, rfl, rfl, hdigits⟩
        exact ⟨byte :: digits, rest, rfl, rfl, List.forall_mem_cons.mpr ⟨hbyte, hdigits⟩⟩
      · rintro ⟨_ | ⟨digit, digits⟩, rest, htext, hlength, hdigits⟩
        · cases hlength
        · obtain ⟨rfl, rfl⟩ := List.cons.inj htext
          obtain ⟨hbyte, hdigits⟩ := List.forall_mem_cons.mp hdigits
          exact ⟨hbyte, digits, rest, rfl, Nat.succ.inj hlength, hdigits⟩

/-- Strings of RFC 8259, except that nothing is asked of what follows `\u`. -/
inductive IsEscapedContent : Bytes → Prop
  | nil : IsEscapedContent []
  | unescaped {byte : UInt8} {rest : Bytes} : isUnescaped byte = true → IsEscapedContent rest →
      IsEscapedContent (byte :: rest)
  | escaped {byte : UInt8} {rest : Bytes} :
      byte ∈ [Ascii.quote, Ascii.backslash, 0x2f, 0x62, 0x66, 0x6e, 0x72, 0x74, 0x75] →
      IsEscapedContent rest → IsEscapedContent (Ascii.backslash :: byte :: rest)

theorem isRfcContent_cons {byte : UInt8} {rest : Bytes} (h : isUnescaped byte = true) :
    IsRfcContent (byte :: rest) ↔ IsRfcContent rest := by
  simp only [isUnescaped, Bool.and_eq_true, decide_eq_true_eq, bne_iff_ne] at h
  obtain ⟨⟨hcontrol, hquote⟩, hbackslash⟩ := h
  constructor
  · intro hcontent
    generalize hwhole : byte :: rest = whole at hcontent
    cases hcontent with
    | nil => cases hwhole
    | unescaped _ _ _ hrest => exact (List.cons.inj hwhole).2 ▸ hrest
    | escaped => exact absurd (List.cons.inj hwhole).1 hbackslash
    | codeUnit => exact absurd (List.cons.inj hwhole).1 hbackslash
  · exact .unescaped hcontrol hquote hbackslash

theorem isRfcContent_append {digits rest : Bytes} (h : ∀ byte ∈ digits, isHexDigit byte = true) :
    IsRfcContent (digits ++ rest) ↔ IsRfcContent rest := by
  induction digits with
  | nil => rfl
  | cons byte digits ih =>
    obtain ⟨hbyte, hdigits⟩ := List.forall_mem_cons.mp h
    rw [List.cons_append, isRfcContent_cons (isUnescaped_of_isHexDigit hbyte), ih hdigits]

theorem isHexDigit_iff {byte : UInt8} : isHexDigit byte = true ↔ isDigit byte = true ∨
    0x41 ≤ byte ∧ byte ≤ 0x46 ∨ 0x61 ≤ byte ∧ byte ≤ 0x66 := by
  simp [isHexDigit, or_assoc]

theorem isRfcContent_escaped {byte : UInt8} {rest : Bytes}
    (h : byte ∈ [Ascii.quote, Ascii.backslash, 0x2f, 0x62, 0x66, 0x6e, 0x72, 0x74, 0x75]) :
    IsRfcContent (Ascii.backslash :: byte :: rest) ↔
      (byte = 0x75 → startsHexDigits 4 rest = true) ∧ IsRfcContent rest := by
  constructor
  · intro hcontent
    generalize hwhole : Ascii.backslash :: byte :: rest = whole at hcontent
    cases hcontent with
    | nil => cases hwhole
    | unescaped _ _ hbackslash => exact absurd (List.cons.inj hwhole).1.symm hbackslash
    | escaped hbyte hrest =>
      obtain ⟨-, hwhole⟩ := List.cons.inj hwhole
      obtain ⟨rfl, rfl⟩ := List.cons.inj hwhole
      refine ⟨?_, hrest⟩
      rintro rfl
      exact absurd hbyte (by decide)
    | @codeUnit digits tail hlength hdigits htail =>
      obtain ⟨-, hwhole⟩ := List.cons.inj hwhole
      obtain ⟨rfl, rfl⟩ := List.cons.inj hwhole
      have hhex : ∀ byte ∈ digits, isHexDigit byte = true :=
        fun byte hmem => isHexDigit_iff.mpr (hdigits byte hmem)
      exact ⟨fun _ => startsHexDigits_iff.mpr ⟨digits, tail, rfl, hlength, hhex⟩,
        (isRfcContent_append hhex).mpr htail⟩
  · rintro ⟨hdigits, hrest⟩
    by_cases hunit : byte = 0x75
    · obtain ⟨digits, tail, rfl, hlength, hhex⟩ := startsHexDigits_iff.mp (hdigits hunit)
      have htail := (isRfcContent_append hhex).mp hrest
      rw [hunit]
      exact .codeUnit hlength (fun byte hmem => isHexDigit_iff.mp (hhex byte hmem)) htail
    · refine .escaped ?_ hrest
      simp only [List.mem_cons, List.not_mem_nil, or_false] at h ⊢
      tauto

namespace Writer

/-- How a text is written, byte by byte. -/
inductive Escapes : (text written : Bytes) → Prop
  | nil : Escapes [] []
  | kept {byte : UInt8} {rest written : Bytes} : startsEscape (byte :: rest) = true →
      Escapes rest written → Escapes (Ascii.backslash :: byte :: rest) (Ascii.backslash :: byte :: written)
  | stray {rest written : Bytes} : startsEscape rest = false → Escapes rest written →
      Escapes (Ascii.backslash :: rest) (Ascii.backslash :: Ascii.backslash :: written)
  | quote {rest written : Bytes} : Escapes rest written →
      Escapes (Ascii.quote :: rest) (Ascii.backslash :: Ascii.quote :: written)
  | control {byte : UInt8} {rest written : Bytes} : byte < 0x20 → Escapes rest written →
      Escapes (byte :: rest) (Ascii.backslash :: 0x75 :: 0x30 :: 0x30 :: hexDigit (byte.toNat / 16)
        :: hexDigit (byte.toNat % 16) :: written)
  | unescaped {byte : UInt8} {rest written : Bytes} : isUnescaped byte = true →
      Escapes rest written → Escapes (byte :: rest) (byte :: written)

theorem escapes_escapeFrom (kept : Bool) (text : Bytes) (h : kept = true → startsEscape text = true) :
    if kept then Escapes (Ascii.backslash :: text) (Ascii.backslash :: escapeFrom true text)
    else Escapes text (escapeFrom false text) := by
  -- A backslash that is kept takes the next byte with it, so both are one step of the relation.
  induction text generalizing kept with
  | nil =>
    cases kept with
    | true => cases h rfl
    | false => exact .nil
  | cons byte rest ih =>
    have hrest : Escapes rest (escapeFrom false rest) := ih false (by simp)
    cases kept with
    | true => exact .kept (h rfl) hrest
    | false =>
      rw [if_neg Bool.false_ne_true, escapeFrom]
      by_cases hbackslash : byte = Ascii.backslash
      · rw [if_pos hbackslash, hbackslash]
        cases hstarts : startsEscape rest with
        | true => exact ih true fun _ => hstarts
        | false => exact .stray hstarts hrest
      · by_cases hquote : byte = Ascii.quote
        · rw [if_neg hbackslash, if_pos hquote, hquote]
          exact .quote hrest
        · rw [if_neg hbackslash, if_neg hquote]
          by_cases hcontrol : byte < 0x20
          · rw [if_pos hcontrol]
            exact .control hcontrol hrest
          · rw [if_neg hcontrol]
            refine .unescaped ?_ hrest
            simp [isUnescaped, hquote, hbackslash, UInt8.not_lt.mp hcontrol]

theorem escapes_escape (text : Bytes) : Escapes text (escape text) :=
  escapes_escapeFrom false text (by simp)

theorem mem_of_startsEscape {byte : UInt8} {rest : Bytes} (h : startsEscape (byte :: rest) = true) :
    byte ∈ [Ascii.quote, Ascii.backslash, 0x2f, 0x62, 0x66, 0x6e, 0x72, 0x74, 0x75] :=
  List.contains_iff_mem.mp h

theorem isHexDigit_hexDigit {n : Nat} (h : n < 16) : isHexDigit (hexDigit n) = true := by
  revert n
  decide

variable {text written : Bytes}

theorem Escapes.isEscapedContent (h : Escapes text written) : IsEscapedContent written := by
  induction h with
  | nil => exact .nil
  | kept hstarts _ ih => exact .escaped (mem_of_startsEscape hstarts) ih
  | stray _ _ ih => exact .escaped (by decide) ih
  | quote _ ih => exact .escaped (by decide) ih
  | @control byte _ _ _ _ ih =>
    have hhigh := isUnescaped_of_isHexDigit (isHexDigit_hexDigit (div_sixteen_lt byte))
    have hlow := isUnescaped_of_isHexDigit
      (isHexDigit_hexDigit (Nat.mod_lt byte.toNat (by decide : 0 < 16)))
    exact .escaped (by decide) (.unescaped rfl (.unescaped rfl (.unescaped hhigh (.unescaped hlow ih))))
  | unescaped hbyte _ ih => exact .unescaped hbyte ih

/-- A text is left as it is exactly when there are no control bytes and no bare quotes in it, and
no backslashes but in front of the letter of an escape. -/
theorem escape_eq_self_iff : escape text = text ↔ IsEscapedContent text := by
  constructor
  · intro h
    exact h ▸ (escapes_escape text).isEscapedContent
  · intro h
    show escapeFrom false text = text
    induction h with
    | nil => rfl
    | @unescaped byte rest hbyte _ ih =>
      simp only [isUnescaped, Bool.and_eq_true, decide_eq_true_eq, bne_iff_ne] at hbyte
      obtain ⟨⟨hcontrol, hquote⟩, hbackslash⟩ := hbyte
      rw [escapeFrom, if_neg hbackslash, if_neg hquote, if_neg (UInt8.not_lt.mpr hcontrol), ih]
    | @escaped byte rest hbyte _ ih =>
      have hstarts : startsEscape (byte :: rest) = true := List.contains_iff_mem.mpr hbyte
      rw [escapeFrom, if_pos rfl, if_pos hstarts, escapeFrom, ih]

/-- Digits stand for themselves, and nothing else is written as a digit. -/
theorem Escapes.startsHexDigits_eq (h : Escapes text written) (count : Nat) :
    startsHexDigits count written = startsHexDigits count text := by
  induction h generalizing count with
  | nil => rfl
  | kept => cases count <;> rfl
  | stray => cases count <;> rfl
  | quote => cases count <;> rfl
  | @control byte _ _ hcontrol =>
    cases count with
    | zero => rfl
    | succ count =>
      have hbyte : isHexDigit byte = false := by
        rw [Bool.eq_false_iff]
        intro hhex
        have hunescaped := isUnescaped_of_isHexDigit hhex
        simp only [isUnescaped, Bool.and_eq_true, decide_eq_true_eq] at hunescaped
        exact UInt8.not_lt.mpr hunescaped.1.1 hcontrol
      rw [startsHexDigits, startsHexDigits, hbyte]
      rfl
  | @unescaped byte _ _ _ _ ih =>
    cases count with
    | zero => rfl
    | succ count => rw [startsHexDigits, startsHexDigits, ih]

/-- Read from the left, every `\u` that is kept as an escape has its four digits. -/
def finishesUnits : (escaped : Bool) → Bytes → Bool
  | _, [] => true
  | true, byte :: rest => (byte != 0x75 || startsHexDigits 4 rest) && finishesUnits false rest
  | false, byte :: rest => finishesUnits (byte == Ascii.backslash && startsEscape rest) rest

theorem Escapes.isRfcContent_iff (h : Escapes text written) :
    IsRfcContent written ↔ finishesUnits false text = true := by
  induction h with
  | nil => exact ⟨fun _ => rfl, fun _ => .nil⟩
  | @kept byte rest _ hstarts hrest ih =>
    rw [isRfcContent_escaped (mem_of_startsEscape hstarts), hrest.startsHexDigits_eq, ih]
    simp only [finishesUnits, hstarts, beq_self_eq_true, Bool.and_true, Bool.and_eq_true,
      Bool.or_eq_true, bne_iff_ne]
    tauto
  | stray hstarts _ ih =>
    have hne : Ascii.backslash ≠ 0x75 := by decide
    rw [isRfcContent_escaped (by decide), ih]
    simp [finishesUnits, hstarts, hne]
  | quote _ ih =>
    have hne : Ascii.quote ≠ 0x75 := by decide
    have hstep : (Ascii.quote == Ascii.backslash) = false := rfl
    rw [isRfcContent_escaped (by decide), ih, finishesUnits, hstep, Bool.false_and]
    simp [hne]
  | @control byte rest written hcontrol _ ih =>
    have hdigits : ∀ digit ∈ [0x30, 0x30, hexDigit (byte.toNat / 16), hexDigit (byte.toNat % 16)],
        isHexDigit digit = true := by
      have hhigh := isHexDigit_hexDigit (div_sixteen_lt byte)
      have hlow := isHexDigit_hexDigit (Nat.mod_lt byte.toNat (by decide : 0 < 16))
      simp only [List.forall_mem_cons]
      exact ⟨rfl, rfl, hhigh, hlow, by simp⟩
    have hunit := startsHexDigits_iff.mpr ⟨_, written, rfl, rfl, hdigits⟩
    have hcontent := @isRfcContent_append _ written hdigits
    have hne : (byte == Ascii.backslash) = false := by
      rw [beq_eq_false_iff_ne]
      rintro rfl
      exact absurd hcontrol (by decide)
    rw [isRfcContent_escaped (by decide), finishesUnits, hne, Bool.false_and, ← ih]
    exact ⟨fun h => hcontent.mp h.2, fun h => ⟨fun _ => hunit, hcontent.mpr h⟩⟩
  | @unescaped byte rest written hbyte _ ih =>
    have hne : (byte == Ascii.backslash) = false := by
      simp only [isUnescaped, Bool.and_eq_true, bne_iff_ne] at hbyte
      simpa using hbyte.2
    rw [isRfcContent_cons hbyte, ih, finishesUnits, hne, Bool.false_and]

@[simp]
theorem text_put (bytes : Bytes) (writer : Writer) : (writer.put bytes).text = writer.text ++ bytes := by
  simp [text, put]

/-- What may be owed in front of an entry: a comma or none, and the blanks of a line break. -/
def IsOwed (owed : Bytes) : Prop :=
  ∃ comma blanks, comma ∈ [[], [Ascii.comma]] ∧ IsBlankText blanks ∧ owed = comma ++ blanks

/-- Whether the next element or key stands behind a comma. -/
def owesComma (writer : Writer) : Bool := writer.pending.head?.any fun inner => !inner.isEmpty

theorem exists_blanks_startEntry (writer : Writer) :
    ∃ blanks, IsBlankText blanks ∧ writer.startEntry.text
      = writer.text ++ ((if writer.owesComma then [Ascii.comma] else []) ++ blanks) := by
  rcases hpending : writer.pending with _ | ⟨⟨container, _ | _⟩, outer⟩
  · refine ⟨[], isBlankText_nil, ?_⟩
    simp [startEntry, owesComma, hpending]
  · refine ⟨_, isBlankText_lineBreak writer.options (outer.length + 1), ?_⟩
    simp [startEntry_next hpending, owesComma, hpending]
  · refine ⟨_, isBlankText_lineBreak writer.options (outer.length + 1), ?_⟩
    rw [startEntry_first hpending, text_put]
    simp [text, owesComma, hpending]

theorem exists_owed_startEntry (writer : Writer) :
    ∃ owed, IsOwed owed ∧ writer.startEntry.text = writer.text ++ owed := by
  obtain ⟨blanks, hblanks, htext⟩ := writer.exists_blanks_startEntry
  have hcomma : (if writer.owesComma then [Ascii.comma] else []) ∈ [[], [Ascii.comma]] := by
    split <;> simp
  exact ⟨_, ⟨_, blanks, hcomma, hblanks, rfl⟩, htext⟩

theorem exists_owed_startValue (writer : Writer) :
    ∃ owed, IsOwed owed ∧ writer.startValue.text = writer.text ++ owed := by
  rw [startValue]
  split
  · exact writer.exists_owed_startEntry
  · exact ⟨[], ⟨[], [], by simp, isBlankText_nil, rfl⟩, by simp⟩

end Writer

/-- A text and a name are both written as one string: without control bytes, without bare quotes,
and with every backslash in front of a letter of an escape. It is a string of RFC 8259 exactly when
no `\u` in the text lacks its four digits. -/
theorem written_string_is_literal_iff (writer : Writer) (text : Bytes) :
    ∃ content, IsEscapedContent content ∧
      (IsRfcContent content ↔ Writer.finishesUnits false text = true) ∧
      (∃ owed, Writer.IsOwed owed ∧ (writer.string text).text
        = writer.text ++ (owed ++ (Ascii.quote :: content ++ [Ascii.quote]))) ∧
      ∃ owed blanks, Writer.IsOwed owed ∧ IsBlankText blanks ∧ (writer.key text).text
        = writer.text ++ (owed ++ (Ascii.quote :: content ++ [Ascii.quote] ++ Ascii.colon :: blanks)) := by
  have hescapes := Writer.escapes_escape text
  refine ⟨Writer.escape text, hescapes.isEscapedContent, hescapes.isRfcContent_iff, ?_, ?_⟩
  · obtain ⟨owed, howed, hstart⟩ := writer.exists_owed_startValue
    refine ⟨owed, howed, ?_⟩
    rw [Writer.string, Writer.text_put, hstart, Writer.quoted, List.append_assoc]
  · obtain ⟨owed, howed, hstart⟩ := writer.exists_owed_startEntry
    refine ⟨owed, _, howed, Writer.isBlankText_afterColon writer.options, ?_⟩
    rw [Writer.key_eq, Writer.text_put, hstart, Writer.quoted, List.append_assoc]

/-- A backslash and a `u` alone are written as they are, which is no string of RFC 8259. -/
theorem lone_code_unit_is_kept :
    ((Writer.start {}).string (Bytes.ofString "\\u")).text = Bytes.ofString "\"\\u\"" ∧
      ∀ content, Bytes.ofString "\"\\u\"" = Ascii.quote :: content ++ [Ascii.quote] →
        ¬ IsRfcContent content := by
  refine ⟨rfl, fun content htext hcontent => ?_⟩
  have hescape : content = Writer.escape (Bytes.ofString "\\u") :=
    List.append_cancel_right (List.cons.inj htext).2.symm
  rw [hescape, (Writer.escapes_escape _).isRfcContent_iff] at hcontent
  cases hcontent

end SchemaJson
