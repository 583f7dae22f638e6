import SchemaJson.Proofs.CutTexts
import SchemaJson.Proofs.FoundSpans
import SchemaJson.Proofs.PairedDecoding

/-! Where scanning fails. Every step that breaks off in a text reports a place it has come to, or
has come past, and what it says of that place is so. -/

namespace SchemaJson

/-- What the fault says of the place it is reported at. -/
def StructureFault.Describes (ahead : Bytes) : StructureFault → Prop
  | unterminatedString => ahead.head? = some Ascii.quote
  | unexpectedCharacter found | mismatchedClose found => String.utf8EncodeChar found <+: ahead
  | trailingCharacters => ∃ byte ∈ ahead.head?, isBlank byte = false
  | _ => True

/-- Whether the fault says nothing of the place it is reported at. -/
def StructureFault.isSilent : StructureFault → Bool
  | unterminatedArray | unterminatedObject | missingSeparator | unexpectedEnd => true
  | _ => false

/-- What the error says of the text at the offset it carries. -/
def Error.Describes (ahead : Bytes) : Error → Prop
  | name fault _ => fault ≠ .missingColon → ∃ byte ∈ ahead.head?, NameFault.ofByte byte = fault
  | structural fault _ => fault.Describes ahead
  | invalidValue _ _ text _ => text <+: ahead
  | _ => True

def Error.isDepthExceeded : Error → Bool
  | structural (.depthExceeded _) _ => true
  | _ => false

theorem Error.Describes.append {error : Error} {ahead : Bytes} (h : error.Describes ahead)
    (rest : Bytes) : error.Describes (ahead ++ rest) := by
  have hhead {byte : UInt8} (hbyte : byte ∈ ahead.head?) : byte ∈ (ahead ++ rest).head? := by
    rw [List.head?_append, Option.mem_def.mp hbyte]
    rfl
  cases error with
  | name fault offset =>
    intro hfault
    obtain ⟨byte, hbyte, hof⟩ := h hfault
    exact ⟨byte, hhead hbyte, hof⟩
  | structural fault offset =>
    cases fault with
    | unterminatedString => exact hhead h
    | unexpectedCharacter found => exact h.trans (List.prefix_append _ _)
    | mismatchedClose found => exact h.trans (List.prefix_append _ _)
    | trailingCharacters =>
      obtain ⟨byte, hbyte, hblank⟩ := h
      exact ⟨byte, hhead hbyte, hblank⟩
    | _ => trivial
  | invalidValue member expected text offset => exact h.trans (List.prefix_append _ _)
  | _ => trivial

namespace Bytes

/-- A text that is not empty starts with the character that is read there. -/
theorem IsText.exists_firstChar? {text : Bytes} (h : IsText text) (hne : text ≠ []) :
    ∃ found, firstChar? text = some found ∧ String.utf8EncodeChar found <+: text := by
  obtain ⟨chars, rfl⟩ := isText_iff.mp h
  cases chars with
  | nil => exact absurd rfl hne
  | cons found chars =>
    rw [List.flatMap_cons]
    refine ⟨found, ?_, List.prefix_append _ _⟩
    have hlength : (String.utf8EncodeChar found).length ≤ 4 := by
      rw [String.length_utf8EncodeChar]
      exact found.utf8Size_le_four
    rw [firstChar?, List.take_append, List.take_of_length_le hlength, List.toByteArray_append]
    exact ByteArray.utf8DecodeChar?_utf8EncodeChar_append

theorem encode_prefix_of_isAscii {byte : UInt8} {ahead : Bytes} (hascii : isAscii byte = true)
    (hhead : ahead.head? = some byte) :
    String.utf8EncodeChar (Char.ofNat byte.toNat) <+: ahead := by
  have hbits : ∀ bits : BitVec 8, isAscii ⟨bits⟩ = true →
      String.utf8EncodeChar (Char.ofNat (⟨bits⟩ : UInt8).toNat) = [⟨bits⟩] := by
    decide
  obtain ⟨tail, rfl⟩ := List.head?_eq_some_iff.mp hhead
  exact ⟨tail, congrArg (· ++ tail) (hbits byte.toBitVec hascii)⟩

theorem IsText.isAligned {text : Bytes} (h : IsText text) : IsAligned text := by
  obtain ⟨string, rfl⟩ := h
  exact isAligned_ofString string

/-- Behind whole characters whole characters are left, where a character starts. -/
theorem IsText.of_passes {start stop : Cursor} {raw : Bytes} (h : start.ahead.IsText)
    (hpasses : start.Passes raw stop) (haligned : stop.ahead.IsAligned) : stop.ahead.IsText := by
  rw [hpasses.ahead] at h
  exact (h.of_append haligned.starts).2

theorem IsText.skipBlanks {cursor : Cursor} (h : cursor.ahead.IsText) :
    cursor.skipBlanks.ahead.IsText :=
  h.of_passes cursor.passes_skipBlanks h.isAligned.skipBlanks

end Bytes

namespace Cursor

/-- The cursor gets to the other one by going forward. -/
def Reaches (start stop : Cursor) : Prop := ∃ raw, start.Passes raw stop

theorem Passes.reaches {start stop : Cursor} {raw : Bytes} (h : start.Passes raw stop) :
    start.Reaches stop := ⟨raw, h⟩

theorem Reaches.refl (cursor : Cursor) : cursor.Reaches cursor := (Passes.refl cursor).reaches

theorem Reaches.trans {start middle stop : Cursor} (h : start.Reaches middle)
    (h' : middle.Reaches stop) : start.Reaches stop := by
  obtain ⟨raw, hpasses⟩ := h
  obtain ⟨raw', hpasses'⟩ := h'
  exact (hpasses.trans hpasses').reaches

theorem Reaches.index_le {start stop : Cursor} (h : start.Reaches stop) :
    start.index ≤ stop.index := by
  obtain ⟨raw, hpasses⟩ := h
  rw [hpasses.index]
  exact Nat.le_add_right _ _

theorem Reaches.length_ahead_le {start stop : Cursor} (h : start.Reaches stop) :
    stop.ahead.length ≤ start.ahead.length := by
  obtain ⟨raw, hpasses⟩ := h
  rw [hpasses.ahead, List.length_append]
  exact Nat.le_add_left _ _

theorem reaches_advance (cursor : Cursor) (count : Nat) : cursor.Reaches (cursor.advance count) :=
  ⟨cursor.ahead.take count, (List.take_append_drop count cursor.ahead).symm, rfl, rfl, rfl⟩

theorem reaches_skipBlanks (cursor : Cursor) : cursor.Reaches cursor.skipBlanks :=
  cursor.reaches_advance _

end Cursor

/-- The error is reported at the cursor, and what it says is so there. -/
structure Error.PointsAt (error : Error) (cursor : Cursor) : Prop where
  offset? : error.offset? = some cursor.offset
  describes : error.Describes cursor.ahead
  isDepthExceeded : error.isDepthExceeded = false

namespace Scan

variable {α β : Type} {origin start stop : Cursor} {step : Scan α}

/-- Where the step fails, it points at a place behind the origin. -/
def FailsBehind (origin : Cursor) (step : Scan α) (start : Cursor) : Prop :=
  ∀ error, (outcome step start).1 = .error error →
    ∃ cursor, origin.Reaches cursor ∧ error.PointsAt cursor

theorem Gives.reachesText_value {span : Span} (h : Gives value start span stop)
    (htext : start.ahead.IsText) : start.Reaches stop ∧ stop.ahead.IsText := by
  obtain ⟨blanks, raw, hpasses, -⟩ := h.exists_isFound htext.isAligned
  exact ⟨hpasses.reaches, htext.of_passes hpasses (h.aligned_around_value htext.isAligned).2⟩

theorem Gives.reachesText_memberEntry {met : Bytes × Span} (h : Gives memberEntry start met stop)
    (htext : start.ahead.IsText) : start.Reaches stop ∧ stop.ahead.IsText := by
  obtain ⟨raw, hpasses, haligned, -⟩ := h.exists_isMemberText htext.isAligned
  exact ⟨hpasses.reaches, htext.of_passes hpasses haligned⟩

theorem Gives.reachesText_entryEnd {container : Container} {atEnd : StructureFault} {isLast : Bool}
    (h : Gives (entryEnd container atEnd) start isLast stop) (htext : start.ahead.IsText) :
    start.Reaches stop ∧ stop.ahead.IsText := by
  obtain ⟨before, after, hpasses, -⟩ := h.exists_entryEnd
  exact ⟨hpasses.reaches, htext.of_passes hpasses (h.aligned_of_entryEnd htext.isAligned)⟩

theorem Gives.reaches_memberTexts {table : MemberTable} {className : String}
    {given : List (Option Span)} (h : Gives (memberTexts table className) start given stop)
    (haligned : start.ahead.IsAligned) : start.Reaches stop := by
  rw [memberTexts_eq, gives_map] at h
  obtain ⟨met, hmet, -⟩ := h
  obtain ⟨raw, after, hpasses, -⟩ := hmet.exists_isObjectText haligned
  exact hpasses.reaches

namespace FailsBehind

theorem bind {next : α → Scan β} (h : FailsBehind origin step start)
    (hnext : ∀ a middle, Gives step start a middle → FailsBehind origin (next a) middle) :
    FailsBehind origin (step >>= next) start := by
  intro error herror
  rw [outcome_bind] at herror
  rcases houtcome : outcome step start with ⟨_ | a, middle⟩
  · rw [houtcome] at herror
    cases herror
    exact h error (congrArg Prod.fst houtcome)
  · rw [houtcome] at herror
    exact hnext a middle houtcome error herror

theorem of_reaches (h : FailsBehind stop step start) (hreaches : origin.Reaches stop) :
    FailsBehind origin step start := by
  intro error herror
  obtain ⟨cursor, hcursor, hpoints⟩ := h error herror
  exact ⟨cursor, hreaches.trans hcursor, hpoints⟩

theorem pure (a : α) : FailsBehind origin (Pure.pure a) start := by
  intro error herror
  cases herror

theorem get_bind {next : Cursor → Scan β} (h : FailsBehind origin (next start) start) :
    FailsBehind origin (MonadState.get >>= next) start := by
  intro error herror
  exact h error (by rwa [outcome_bind] at herror)

theorem move_bind {f : Cursor → Cursor} {next : Unit → Scan β}
    (h : FailsBehind origin (next ()) (f start)) :
    FailsBehind origin (Scan.move f >>= next) start := by
  intro error herror
  exact h error (by rwa [outcome_bind] at herror)

theorem skipBlanks_bind {next : Unit → Scan β}
    (h : FailsBehind origin (next ()) start.skipBlanks) :
    FailsBehind origin (Scan.skipBlanks >>= next) start :=
  move_bind h

theorem throw {error : Error} {cursor : Cursor} (hreaches : origin.Reaches cursor)
    (h : error.PointsAt cursor) : FailsBehind origin (MonadExcept.throw error : Scan α) start := by
  intro other hother
  cases hother
  exact ⟨cursor, hreaches, h⟩

theorem fail {fault : StructureFault} (hreaches : origin.Reaches start)
    (h : (Error.structural fault start.offset).PointsAt start) :
    FailsBehind origin (Scan.fail fault : Scan α) start :=
  get_bind (throw hreaches h)

theorem silent {fault : StructureFault} (hreaches : origin.Reaches start)
    (h : fault.isSilent = true) : FailsBehind origin (Scan.fail fault : Scan α) start := by
  refine fail hreaches ⟨rfl, ?_, ?_⟩
  · cases fault <;> trivial
  · cases fault <;> first | rfl | cases h

theorem string (hreaches : origin.Reaches start) (h : start.peek? = some Ascii.quote) :
    FailsBehind origin Scan.string start := by
  refine get_bind (move_bind (get_bind ?_))
  split
  · exact throw hreaches ⟨rfl, h, rfl⟩
  · exact move_bind (pure _)

theorem bracketed (openByte closeByte : UInt8) (shape : Shape) {unterminated : StructureFault}
    (hreaches : origin.Reaches start) (h : unterminated.isSilent = true) :
    FailsBehind origin (Scan.bracketed openByte closeByte shape unterminated) start := by
  refine get_bind ?_
  split
  · exact silent hreaches h
  · exact move_bind (pure _)

theorem literal (hreaches : origin.Reaches start) : FailsBehind origin Scan.literal start := by
  refine get_bind ?_
  dsimp only
  split
  · exact silent hreaches rfl
  · exact move_bind (pure _)

theorem value (hreaches : origin.Reaches start) : FailsBehind origin Scan.value start := by
  have hplace := hreaches.trans start.reaches_skipBlanks
  refine skipBlanks_bind (get_bind ?_)
  split
  · exact silent hplace rfl
  next byte hbyte =>
    split_ifs with hquote _ _ hseparator
    · exact string hplace (hquote ▸ hbyte)
    · exact bracketed _ _ _ hplace rfl
    · exact bracketed _ _ _ hplace rfl
    · rw [Bool.or_eq_true, beq_iff_eq] at hseparator
      refine fail hplace ⟨rfl, ?_, rfl⟩
      refine Bytes.encode_prefix_of_isAscii ?_ hbyte
      rcases hseparator with hseparator | rfl
      · exact isAscii_of_isSeparator hseparator
      · rfl
    · exact literal hplace

/-- The character that is reported instead of another one stands there. -/
theorem unexpected {default : Char} (hreaches : origin.Reaches start) (htext : start.ahead.IsText)
    {byte : UInt8} (hbyte : start.peek? = some byte) :
    FailsBehind origin (Scan.fail (.unexpectedCharacter (start.char?.getD default)) : Scan α)
      start := by
  have hne : start.ahead ≠ [] := by
    intro hnil
    rw [Cursor.peek?, hnil] at hbyte
    cases hbyte
  obtain ⟨found, hfound, hprefix⟩ := htext.exists_firstChar? hne
  rw [Cursor.char?, hfound]
  exact fail hreaches ⟨rfl, hprefix, rfl⟩

theorem separator {atEnd : StructureFault} (hreaches : origin.Reaches start)
    (htext : start.ahead.IsText) (h : atEnd.isSilent = true) :
    FailsBehind origin (Scan.separator atEnd) start := by
  have hplace := hreaches.trans start.reaches_skipBlanks
  refine skipBlanks_bind (get_bind ?_)
  split
  · exact silent hplace h
  next byte hbyte =>
    split_ifs
    · exact move_bind (skipBlanks_bind (pure _))
    · exact unexpected hplace htext.skipBlanks hbyte

theorem name (hreaches : origin.Reaches start) (htext : start.ahead.IsText) :
    FailsBehind origin Scan.name start := by
  have hplace := hreaches.trans start.reaches_skipBlanks
  refine skipBlanks_bind (get_bind ?_)
  split
  · exact silent hplace rfl
  next byte hbyte =>
    split_ifs with hquote
    · subst hquote
      refine (string hplace hbyte).bind fun span middle hstring => skipBlanks_bind (get_bind ?_)
      split_ifs
      · exact move_bind (skipBlanks_bind (pure _))
      · have hmiddle : start.skipBlanks.Reaches middle := by
          obtain ⟨tail, htail⟩ := List.head?_eq_some_iff.mp hbyte
          obtain ⟨_, _, -, -, -, rfl⟩ :=
            (gives_string htail htext.skipBlanks.isAligned).mp hstring
          exact Cursor.reaches_advance _ _
        refine throw ((hplace.trans hmiddle).trans middle.reaches_skipBlanks) ⟨rfl, ?_, rfl⟩
        exact fun hfault => absurd rfl hfault
    · exact throw hplace ⟨rfl, fun _ => ⟨byte, hbyte, rfl⟩, rfl⟩

/-- A bracket of the other kind is reported where it stands, and the cursor has passed it then. -/
theorem entryEnd (container : Container) {atEnd : StructureFault} (hreaches : origin.Reaches start)
    (htext : start.ahead.IsText) (h : atEnd.isSilent = true) :
    FailsBehind origin (Scan.entryEnd container atEnd) start := by
  have hplace := hreaches.trans start.reaches_skipBlanks
  refine skipBlanks_bind (get_bind ?_)
  refine (separator hplace htext.skipBlanks h).bind fun byte middle hseparator => ?_
  split_ifs
  · exact pure _
  · exact pure _
  · refine throw hplace ⟨rfl, ?_, rfl⟩
    obtain ⟨before, after, hpasses, hbefore, -, hbyte, -⟩ := hseparator.exists_separator
    -- The blanks were skipped before, so the bracket that was taken is the first byte ahead.
    obtain ⟨_, _, -, hunblank⟩ := start.exists_passes_skipBlanks
    refine Bytes.encode_prefix_of_isAscii (isAscii_of_isSeparator hbyte) ?_
    rw [hpasses.ahead] at hunblank ⊢
    cases before with
    | nil => rfl
    | cons blank before =>
      have hblank := hbefore blank (by simp)
      rw [hunblank blank rfl] at hblank
      cases hblank

theorem entries (container : Container) {atEnd : StructureFault} {entry : Scan α}
    (hgives : ∀ {start stop : Cursor} {a : α}, start.ahead.IsText → Gives entry start a stop →
      start.Reaches stop ∧ stop.ahead.IsText)
    (hfails : ∀ {start : Cursor}, start.ahead.IsText → FailsBehind start entry start)
    (h : atEnd.isSilent = true) (steps : Nat) (hreaches : origin.Reaches start)
    (htext : start.ahead.IsText) :
    FailsBehind origin (Scan.entries container atEnd entry steps) start := by
  induction steps generalizing start with
  | zero => exact silent hreaches rfl
  | succ steps ih =>
    refine ((hfails htext).of_reaches hreaches).bind fun a middle ha => ?_
    obtain ⟨hmiddle, hmiddleText⟩ := hgives htext ha
    refine (entryEnd container (hreaches.trans hmiddle) hmiddleText h).bind
      fun isLast behind hend => ?_
    obtain ⟨hbehind, hbehindText⟩ := hend.reachesText_entryEnd hmiddleText
    split_ifs
    · exact pure _
    · exact (ih ((hreaches.trans hmiddle).trans hbehind) hbehindText).bind fun rest last _ => pure _

theorem memberEntry (htext : start.ahead.IsText) : FailsBehind start Scan.memberEntry start := by
  refine (name (.refl start) htext).bind fun name middle hname => ?_
  obtain ⟨raw, hpasses, -⟩ := hname.exists_name htext.isAligned
  exact (value hpasses.reaches).bind fun span stop _ => pure _

theorem objectMembers (className : String) (htext : start.ahead.IsText) :
    FailsBehind start (Scan.objectMembers className) start := by
  refine skipBlanks_bind (get_bind ?_)
  split_ifs with hopen
  · refine move_bind (skipBlanks_bind (get_bind ?_))
    split_ifs
    · exact move_bind (skipBlanks_bind (pure _))
    · obtain ⟨before, blanks, hpasses, -, -, haligned⟩ := Cursor.exists_passes_opening
        (show _ = some Container.object.opening from hopen) htext.isAligned
      exact entries .object (fun htext hgives => hgives.reachesText_memberEntry htext) memberEntry
        rfl _ hpasses.reaches (htext.of_passes hpasses haligned)
  · exact throw start.reaches_skipBlanks ⟨rfl, trivial, rfl⟩

theorem memberTexts (table : MemberTable) (className : String) (htext : start.ahead.IsText) :
    FailsBehind start (Scan.memberTexts table className) start := by
  rw [memberTexts_eq, ← bind_pure_comp]
  exact (objectMembers className htext).bind fun met stop _ => pure _

theorem element (hreaches : origin.Reaches start) (htext : start.ahead.IsText) :
    FailsBehind origin Scan.element start := by
  rw [element_eq]
  refine (value hreaches).bind fun span middle hvalue => ?_
  obtain ⟨hmiddle, hmiddleText⟩ := hvalue.reachesText_value htext
  exact (entryEnd .array (hreaches.trans hmiddle) hmiddleText rfl).bind fun isLast stop _ => pure _

/-- Only at a bracket is the walk over an array begun. -/
theorem arrayStart (h : start.peek? = some Ascii.openBracket) :
    FailsBehind origin Scan.arrayStart start := by
  have hskip : start.skipBlanks = start := by
    refine Cursor.skipBlanks_of_startsUnblank fun byte hbyte => ?_
    rw [Cursor.peek?, Option.mem_def.mp hbyte] at h
    cases h
    rfl
  refine skipBlanks_bind (get_bind ?_)
  rw [hskip, if_pos h]
  exact move_bind (skipBlanks_bind (get_bind (pure _)))

theorem finish (allowed : Bool) (hreaches : origin.Reaches start) :
    FailsBehind origin (Scan.finish allowed) start := by
  refine skipBlanks_bind (get_bind ?_)
  split_ifs with hdone
  · exact pure _
  · obtain ⟨_, _, -, hunblank⟩ := start.exists_passes_skipBlanks
    have hne : start.skipBlanks.ahead ≠ [] := fun hnil => hdone (by
      rw [Cursor.atEnd, hnil]
      exact Bool.or_true allowed)
    obtain ⟨byte, tail, htail⟩ := List.exists_cons_of_ne_nil hne
    have hbyte : byte ∈ start.skipBlanks.ahead.head? := by
      rw [htail]
      rfl
    exact fail (hreaches.trans start.reaches_skipBlanks)
      ⟨rfl, ⟨byte, hbyte, hunblank byte hbyte⟩, rfl⟩

theorem documentArray (allowTrailing : Bool) (htext : start.ahead.IsText) :
    FailsBehind start (Scan.documentArray allowTrailing) start := by
  have hplace := start.reaches_skipBlanks
  refine skipBlanks_bind (get_bind ?_)
  split
  · exact silent hplace rfl
  next byte hbyte =>
    split_ifs
    · refine (value hplace).bind fun span middle hvalue => ?_
      obtain ⟨hmiddle, -⟩ := hvalue.reachesText_value htext.skipBlanks
      exact (finish allowTrailing (hplace.trans hmiddle)).bind fun _ _ _ => pure _
    · exact unexpected hplace htext.skipBlanks hbyte

end FailsBehind

theorem exists_pointsAt_of_elements {steps : Nat} {error : Error} (hreaches : origin.Reaches start)
    (htext : start.ahead.IsText) (h : ((elements steps).run start).1.2 = some error) :
    ∃ cursor, origin.Reaches cursor ∧ error.PointsAt cursor := by
  induction steps generalizing start with
  | zero =>
    cases h
    exact ⟨start, hreaches, rfl, trivial, rfl⟩
  | succ steps ih =>
    rw [run_elements_succ] at h
    rcases houtcome : outcome element start with ⟨_ | ⟨span, _ | _⟩, middle⟩
    · rw [houtcome] at h
      cases h
      exact FailsBehind.element hreaches htext error (congrArg Prod.fst houtcome)
    · rw [houtcome] at h
      obtain ⟨raw, hpasses, haligned, -⟩ := Gives.exists_element houtcome htext.isAligned
      exact ih (hreaches.trans hpasses.reaches) (htext.of_passes hpasses haligned) h
    · rw [houtcome] at h
      cases h

theorem exists_pointsAt_of_arrayElements {error : Error} (htext : start.ahead.IsText)
    (hstart : start.peek? = some Ascii.openBracket)
    (h : (arrayElements.run start).1.2 = some error) :
    ∃ cursor, start.Reaches cursor ∧ error.PointsAt cursor := by
  rw [run_arrayElements] at h
  rcases houtcome : outcome arrayStart start with ⟨_ | _ | _, middle⟩
  · rw [houtcome] at h
    cases h
    exact FailsBehind.arrayStart hstart error (congrArg Prod.fst houtcome)
  · rw [houtcome] at h
    obtain ⟨before, blanks, hpasses, -, -, haligned, -⟩ :=
      Gives.arrayStart_passes houtcome htext.isAligned
    exact exists_pointsAt_of_elements hpasses.reaches (htext.of_passes hpasses haligned) h
  · rw [houtcome] at h
    cases h

end Scan

end SchemaJson
