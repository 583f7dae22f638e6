import SchemaJson.Proofs.EntryWalk

/-! The texts that the walk over an array goes through, as a grammar. The elements are the spans of
the values, so the grammar also says where each of them stands. -/

namespace SchemaJson

/-- A value from an offset on, in front of `rest`, with blanks around it. -/
inductive IsElementText (offset : Nat) : (raw rest : Bytes) → Span → Prop
  | mk {before value blanks rest text : Bytes} {shape : Shape} : IsBlankText before →
      IsFound value (blanks ++ rest) shape text → IsBlankText blanks →
      IsElementText offset (before ++ (value ++ blanks)) rest
        ⟨text, offset + before.length + openingLength shape, shape⟩

/-- Elements with a comma between any two, and the bracket behind the last one. -/
inductive IsElementsText : (offset : Nat) → (raw rest : Bytes) → List Span → Prop
  | last {offset : Nat} {raw rest : Bytes} {element : Span} :
      IsElementText offset raw (Ascii.closeBracket :: rest) element →
      IsElementsText offset (raw ++ [Ascii.closeBracket]) rest [element]
  | cons {offset : Nat} {raw more rest : Bytes} {element : Span} {elements : List Span} :
      IsElementText offset raw (Ascii.comma :: (more ++ rest)) element →
      IsElementsText (offset + raw.length + 1) more rest elements →
      IsElementsText offset (raw ++ Ascii.comma :: more) rest (element :: elements)

/-- An array from an offset on, with blanks in front of it. -/
inductive IsArrayText (offset : Nat) : (raw rest : Bytes) → List Span → Prop
  | empty {before inside rest : Bytes} : IsBlankText before → IsBlankText inside →
      IsArrayText offset (before ++ Ascii.openBracket :: (inside ++ [Ascii.closeBracket])) rest []
  | full {before body rest : Bytes} {elements : List Span} : IsBlankText before →
      IsElementsText (offset + before.length + 1) body rest elements →
      IsArrayText offset (before ++ Ascii.openBracket :: body) rest elements

theorem IsElementText.blanks_append {offset : Nat} {raw rest blanks : Bytes} {element : Span}
    (hblanks : IsBlankText blanks) (h : IsElementText (offset + blanks.length) raw rest element) :
    IsElementText offset (blanks ++ raw) rest element := by
  obtain @⟨before, value, behind, _, text, shape, hbefore, hfound, hbehind⟩ := h
  have hwhole : IsElementText offset _ rest _ := .mk (hblanks.append hbefore) hfound hbehind
  simpa only [List.length_append, List.append_assoc, Nat.add_assoc] using hwhole

theorem IsElementsText.blanks_append {offset : Nat} {raw rest blanks : Bytes} {elements : List Span}
    (hblanks : IsBlankText blanks)
    (h : IsElementsText (offset + blanks.length) raw rest elements) :
    IsElementsText offset (blanks ++ raw) rest elements := by
  cases h with
  | last helement =>
    rw [← List.append_assoc]
    exact .last (helement.blanks_append hblanks)
  | cons helement hmore =>
    rw [← List.append_assoc]
    refine .cons (helement.blanks_append hblanks) ?_
    rwa [List.length_append, ← Nat.add_assoc offset]

namespace Cursor

variable {container : Container} {start : Cursor}

theorem exists_passes_opening (h : start.skipBlanks.peek? = some container.opening)
    (haligned : start.ahead.IsAligned) :
    ∃ before blanks, start.Passes (before ++ ([container.opening] ++ blanks))
        (start.skipBlanks.advance 1).skipBlanks ∧ IsBlankText before ∧ IsBlankText blanks ∧
      (start.skipBlanks.advance 1).skipBlanks.ahead.IsAligned := by
  obtain ⟨before, hpasses, hbefore, -⟩ := start.exists_passes_skipBlanks
  obtain ⟨tail, htail⟩ := List.head?_eq_some_iff.mp h
  have hpast := passes_advance (show _ = [container.opening] ++ tail from htail)
  obtain ⟨blanks, hblanks, hblank, -⟩ := (start.skipBlanks.advance 1).exists_passes_skipBlanks
  refine ⟨before, blanks, hpasses.trans (hpast.trans hblanks), hbefore, hblank, ?_⟩
  have hmiddle := (hpasses.ahead ▸ haligned).after_blanks hbefore
  rw [hpast.ahead] at hmiddle
  have hascii : isAscii container.opening = true := by cases container <;> rfl
  exact ((Bytes.isAligned_cons_of_isAscii hascii).mp hmiddle).skipBlanks

end Cursor

namespace Scan

variable {start stop : Cursor} {spans : List Span} {steps : Nat}

theorem Gives.exists_isElementsText {atEnd : StructureFault}
    (h : Gives (entries .array atEnd value steps) start spans stop)
    (haligned : start.ahead.IsAligned) :
    spans ≠ [] ∧ ∃ raw after, start.Passes (raw ++ after) stop ∧
      IsElementsText start.offset raw (after ++ stop.ahead) spans ∧ IsBlankText after := by
  induction steps generalizing start spans with
  | zero => exact absurd h not_gives_fail
  | succ steps ih =>
    simp only [entries, gives_bind] at h
    obtain ⟨span, middle, hvalue, isLast, behind, hend, hrest⟩ := h
    obtain ⟨front, value, hraw, hfront, hfound, hplace⟩ := hvalue.exists_isFound haligned
    have hmiddle := (hvalue.aligned_around_value haligned).2
    obtain ⟨before, after, hmark, hbefore, hafter, -⟩ := hend.exists_entryEnd
    have hpasses := hraw.trans hmark
    have helement : IsElementText start.offset (front ++ (value ++ before))
        (Container.array.mark isLast :: (after ++ behind.ahead)) span := by
      have hmarked := hmark.ahead
      rw [List.append_assoc, List.cons_append] at hmarked
      have hwhole : IsElementText start.offset _ _ ⟨span.text, _, span.shape⟩ :=
        .mk hfront (hmarked ▸ hfound) hbefore
      rwa [Nat.add_assoc, ← Nat.add_assoc, ← hplace] at hwhole
    cases isLast with
    | true =>
      obtain ⟨rfl, rfl⟩ := gives_pure.mp hrest
      refine ⟨by simp, front ++ (value ++ before) ++ [Ascii.closeBracket], after, ?_, .last helement,
        hafter⟩
      simpa [Container.mark, Container.closing] using hpasses
    | false =>
      obtain ⟨more, last, hmore, hpure⟩ := gives_bind.mp hrest
      obtain ⟨rfl, rfl⟩ := gives_pure.mp hpure
      obtain ⟨-, text, blanks, hlast, helements, hblanks⟩ :=
        ih hmore (hend.aligned_of_entryEnd hmiddle)
      have hoffset : behind.offset
          = start.offset + (front ++ (value ++ before)).length + 1 + after.length := by
        rw [hpasses.offset]
        simp only [List.length_append, List.length_cons]
        omega
      rw [hoffset] at helements
      refine ⟨by simp, front ++ (value ++ before) ++ Ascii.comma :: (after ++ text), blanks, ?_, ?_,
        hblanks⟩
      · simpa [Container.mark] using hpasses.trans hlast
      · -- The walk skips the blanks behind a comma; in the grammar they belong to the next element.
        refine .cons ?_ (helements.blanks_append hafter)
        rw [hlast.ahead] at helement
        simpa only [Container.mark, Bool.false_eq_true, if_false, List.append_assoc] using helement

/-- The walk over an array goes behind its opening bracket and blanks. -/
theorem Gives.opening_of_arrayStart {isEmpty : Bool} (h : Gives arrayStart start isEmpty stop) :
    start.skipBlanks.peek? = some Container.array.opening ∧
      stop = (start.skipBlanks.advance 1).skipBlanks ∧
      isEmpty = (stop.peek? == some Ascii.closeBracket) := by
  simp only [arrayStart, gives_bind, gives_skipBlanks, gives_get] at h
  obtain ⟨_, _, rfl, _, _, ⟨rfl, rfl⟩, h⟩ := h
  split at h
  next hopen =>
    simp only [gives_bind, gives_move, gives_skipBlanks, gives_get, gives_pure] at h
    obtain ⟨_, _, rfl, _, _, rfl, _, _, ⟨rfl, rfl⟩, rfl, rfl⟩ := h
    exact ⟨hopen, rfl, rfl⟩
  · exact absurd h not_gives_fail

theorem Gives.arrayStart_passes {isEmpty : Bool} (h : Gives arrayStart start isEmpty stop)
    (haligned : start.ahead.IsAligned) :
    ∃ before blanks, start.Passes (before ++ ([Ascii.openBracket] ++ blanks)) stop ∧
      IsBlankText before ∧ IsBlankText blanks ∧ stop.ahead.IsAligned ∧
      isEmpty = (stop.peek? == some Ascii.closeBracket) := by
  obtain ⟨hopen, rfl, hempty⟩ := h.opening_of_arrayStart
  obtain ⟨before, blanks, hpasses, hbefore, hblanks, hinside⟩ :=
    Cursor.exists_passes_opening hopen haligned
  exact ⟨before, blanks, hpasses, hbefore, hblanks, hinside, hempty⟩

/-- The walk goes over the text of one array and the blanks behind it. Without elements it stops in
front of the closing bracket. -/
theorem Gives.exists_isArrayText (h : Gives arrayValues start spans stop)
    (haligned : start.ahead.IsAligned) :
    ∃ raw rest, start.ahead = raw ++ rest ∧ IsArrayText start.offset raw rest spans ∧
      (spans = [] → stop.ahead = Ascii.closeBracket :: rest) ∧
      (spans ≠ [] → ∃ after, start.Passes (raw ++ after) stop ∧ IsBlankText after) := by
  simp only [arrayValues, gives_bind] at h
  obtain ⟨isEmpty, middle, hstart, h⟩ := h
  obtain ⟨before, blanks, hpasses, hbefore, hblanks, hinside, hempty⟩ :=
    hstart.arrayStart_passes haligned
  cases isEmpty with
  | true =>
    obtain ⟨rfl, rfl⟩ := gives_pure.mp h
    obtain ⟨rest, hrest⟩ := List.head?_eq_some_iff.mp (eq_of_beq hempty.symm)
    refine ⟨_, rest, ?_, .empty hbefore hblanks, fun _ => hrest, fun hne => absurd rfl hne⟩
    rw [hpasses.ahead, show middle.ahead = Ascii.closeBracket :: rest from hrest]
    simp
  | false =>
    obtain ⟨_, _, ⟨rfl, rfl⟩, h⟩ := gives_bind.mp h
    obtain ⟨hne, raw, after, hraw, helements, hafter⟩ := h.exists_isElementsText hinside
    have hoffset : middle.offset = start.offset + before.length + 1 + blanks.length := by
      rw [hpasses.offset]
      simp only [List.length_append, List.length_cons, List.length_nil]
      omega
    rw [hoffset] at helements
    have hwhole : start.Passes (before ++ Ascii.openBracket :: (blanks ++ raw) ++ after) stop := by
      simpa using hpasses.trans hraw
    refine ⟨_, after ++ stop.ahead, ?_, .full hbefore (helements.blanks_append hblanks),
      fun hnil => absurd hnil hne, fun _ => ⟨after, hwhole, hafter⟩⟩
    rw [hwhole.ahead, List.append_assoc]

end Scan

end SchemaJson
