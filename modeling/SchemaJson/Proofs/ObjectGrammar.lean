import SchemaJson.Proofs.CapturedValues
import SchemaJson.Proofs.KeptMembers

/-! The texts that the walk over an object accepts, as a grammar. Its members carry the spans of
their values, so the grammar also says what is kept of a text and where that stands. -/

namespace SchemaJson

/-- A member from an offset on, in front of `rest`: a name, a colon and a value, with blanks around
each of them. -/
inductive IsMemberText (offset : Nat) : (raw rest : Bytes) → Bytes × Span → Prop
  | mk {name front value blanks rest text : Bytes} {shape : Shape} : IsNameText name front →
      IsFound value (blanks ++ rest) shape text → IsBlankText blanks →
      IsMemberText offset (front ++ (value ++ blanks)) rest
        (name, ⟨text, offset + front.length + openingLength shape, shape⟩)

/-- Members with a comma between any two, and the brace behind the last one. -/
inductive IsMembersText : (offset : Nat) → (raw rest : Bytes) → List (Bytes × Span) → Prop
  | last {offset : Nat} {raw rest : Bytes} {member : Bytes × Span} :
      IsMemberText offset raw (Ascii.closeBrace :: rest) member →
      IsMembersText offset (raw ++ [Ascii.closeBrace]) rest [member]
  | cons {offset : Nat} {raw more rest : Bytes} {member : Bytes × Span}
      {members : List (Bytes × Span)} :
      IsMemberText offset raw (Ascii.comma :: (more ++ rest)) member →
      IsMembersText (offset + raw.length + 1) more rest members →
      IsMembersText offset (raw ++ Ascii.comma :: more) rest (member :: members)

/-- An object from an offset on, with blanks in front of it. -/
inductive IsObjectText (offset : Nat) : (raw rest : Bytes) → List (Bytes × Span) → Prop
  | empty {before inside rest : Bytes} : IsBlankText before → IsBlankText inside →
      IsObjectText offset (before ++ Ascii.openBrace :: (inside ++ [Ascii.closeBrace])) rest []
  | full {before body rest : Bytes} {members : List (Bytes × Span)} : IsBlankText before →
      IsMembersText (offset + before.length + 1) body rest members →
      IsObjectText offset (before ++ Ascii.openBrace :: body) rest members

namespace IsNameText

variable {content raw blanks : Bytes}

theorem blanks_append (hblanks : IsBlankText blanks) (h : IsNameText content raw) :
    IsNameText content (blanks ++ raw) := by
  obtain ⟨hcontent, hbefore, hmiddle, hafter⟩ := h
  have hwhole := IsNameText.mk hcontent (hblanks.append hbefore) hmiddle hafter
  simpa only [List.append_assoc] using hwhole

theorem append_blanks (h : IsNameText content raw) (hblanks : IsBlankText blanks) :
    IsNameText content (raw ++ blanks) := by
  obtain ⟨hcontent, hbefore, hmiddle, hafter⟩ := h
  have hwhole := IsNameText.mk hcontent hbefore hmiddle (hafter.append hblanks)
  simpa only [List.append_assoc, List.cons_append] using hwhole

theorem exists_quote (h : IsNameText content raw) :
    ∃ before tail, raw = before ++ Ascii.quote :: tail ∧ IsBlankText before := by
  obtain @⟨before, middle, after, -, hbefore, -, -⟩ := h
  exact ⟨before, content ++ [Ascii.quote] ++ middle ++ Ascii.colon :: after, by simp, hbefore⟩

end IsNameText

namespace IsMemberText

variable {offset : Nat} {raw rest blanks : Bytes} {member : Bytes × Span}

theorem blanks_append (hblanks : IsBlankText blanks)
    (h : IsMemberText (offset + blanks.length) raw rest member) :
    IsMemberText offset (blanks ++ raw) rest member := by
  obtain @⟨name, front, value, behind, _, text, shape, hname, hfound, hbehind⟩ := h
  have hwhole : IsMemberText offset _ rest _ := .mk (hname.blanks_append hblanks) hfound hbehind
  simpa only [List.length_append, List.append_assoc, Nat.add_assoc] using hwhole

theorem exists_quote (h : IsMemberText offset raw rest member) :
    ∃ before tail, raw = before ++ Ascii.quote :: tail ∧ IsBlankText before := by
  obtain @⟨name, front, value, behind, _, text, shape, hname, -, -⟩ := h
  obtain ⟨before, tail, rfl, hbefore⟩ := hname.exists_quote
  exact ⟨before, tail ++ (value ++ behind), by simp, hbefore⟩

end IsMemberText

namespace IsMembersText

variable {offset : Nat} {raw rest blanks : Bytes} {members : List (Bytes × Span)}

theorem blanks_append (hblanks : IsBlankText blanks)
    (h : IsMembersText (offset + blanks.length) raw rest members) :
    IsMembersText offset (blanks ++ raw) rest members := by
  cases h with
  | last hmember =>
    rw [← List.append_assoc]
    exact .last (hmember.blanks_append hblanks)
  | cons hmember hmore =>
    rw [← List.append_assoc]
    refine .cons (hmember.blanks_append hblanks) ?_
    rwa [List.length_append, ← Nat.add_assoc offset]

/-- Every member takes a byte behind the blanks in front of the first one. -/
theorem exists_quote (h : IsMembersText offset raw rest members) :
    ∃ before tail, raw = before ++ Ascii.quote :: tail ∧ IsBlankText before ∧
      members.length ≤ tail.length + 1 := by
  induction h with
  | last hmember =>
    obtain ⟨before, tail, rfl, hbefore⟩ := hmember.exists_quote
    exact ⟨before, tail ++ [Ascii.closeBrace], by simp, hbefore, by simp⟩
  | @cons _ _ more _ _ _ hmember _ ih =>
    obtain ⟨before, tail, rfl, hbefore⟩ := hmember.exists_quote
    obtain ⟨behind, rest, rfl, -, hlength⟩ := ih
    refine ⟨before, tail ++ Ascii.comma :: (behind ++ Ascii.quote :: rest), by simp, hbefore, ?_⟩
    simp only [List.length_append, List.length_cons]
    omega

end IsMembersText

namespace Scan

variable {start stop : Cursor} {member : Bytes × Span} {met : List (Bytes × Span)}
  {atEnd : StructureFault} {steps : Nat}

/-- A member that was read stands at the cursor, whatever blanks behind it are counted to it. -/
theorem Gives.exists_isMemberText (h : Gives memberEntry start member stop)
    (haligned : start.ahead.IsAligned) :
    ∃ raw, start.Passes raw stop ∧ stop.ahead.IsAligned ∧ ∀ blanks rest, IsBlankText blanks →
      stop.ahead = blanks ++ rest → IsMemberText start.offset (raw ++ blanks) rest member := by
  simp only [memberEntry, gives_bind, gives_pure] at h
  obtain ⟨name, middle, hname, span, last, hvalue, rfl, rfl⟩ := h
  obtain ⟨front, hfront, hnameText⟩ := hname.exists_name haligned
  have hmiddle := hnameText.aligned (hfront.ahead ▸ haligned)
  obtain ⟨between, value, hpasses, hbetween, hfound, hoffset⟩ := hvalue.exists_isFound hmiddle
  have hlast : last.ahead.IsAligned := by
    rw [hpasses.ahead, List.append_assoc] at hmiddle
    exact hfound.aligned (hmiddle.after_blanks hbetween)
  refine ⟨front ++ (between ++ value), hfront.trans hpasses, hlast,
    fun blanks rest hblanks hrest => ?_⟩
  have hspan : span = ⟨span.text, start.offset + (front ++ between).length
      + openingLength span.shape, span.shape⟩ := by
    have hplace : span.offset = start.offset + (front ++ between).length
        + openingLength span.shape := by
      rw [hoffset, hfront.offset, List.length_append, Nat.add_assoc start.offset]
    rw [← hplace]
  have hwhole : IsMemberText start.offset _ rest _ :=
    .mk (hnameText.append_blanks hbetween) (hrest ▸ hfound) hblanks
  rw [← hspan] at hwhole
  simpa only [List.append_assoc] using hwhole

theorem Gives.exists_isMembersText
    (h : Gives (entries .object atEnd memberEntry steps) start met stop) (haligned : start.ahead.IsAligned) :
    ∃ raw after, start.Passes (raw ++ after) stop ∧
      IsMembersText start.offset raw (after ++ stop.ahead) met ∧ IsBlankText after ∧
      startsUnblank stop.ahead := by
  induction steps generalizing start met with
  | zero => exact absurd h not_gives_fail
  | succ steps ih =>
    simp only [entries, gives_bind] at h
    obtain ⟨member, middle, hmember, isLast, behind, hend, hrest⟩ := h
    obtain ⟨raw, hraw, hmiddle, htext⟩ := hmember.exists_isMemberText haligned
    obtain ⟨before, after, hmark, hbefore, hafter, hunblank⟩ := hend.exists_entryEnd
    have hmemberText := htext before (Container.object.mark isLast :: (after ++ behind.ahead))
      hbefore (by rw [hmark.ahead]; simp)
    have hpasses := hraw.trans hmark
    cases isLast with
    | true =>
      obtain ⟨rfl, rfl⟩ := gives_pure.mp hrest
      refine ⟨raw ++ before ++ [Ascii.closeBrace], after, ?_, .last hmemberText, hafter, hunblank⟩
      simpa [Container.mark, Container.closing] using hpasses
    | false =>
      obtain ⟨more, last, hmore, hpure⟩ := gives_bind.mp hrest
      obtain ⟨rfl, rfl⟩ := gives_pure.mp hpure
      obtain ⟨text, blanks, hlast, hmembers, hblanks, hstop⟩ :=
        ih hmore (hend.aligned_of_entryEnd hmiddle)
      have hoffset : behind.offset = start.offset + (raw ++ before).length + 1 + after.length := by
        rw [hpasses.offset]
        simp only [List.length_append, List.length_cons]
        omega
      rw [hoffset] at hmembers
      refine ⟨(raw ++ before) ++ Ascii.comma :: (after ++ text), blanks, ?_, ?_, hblanks, hstop⟩
      · simpa [Container.mark] using hpasses.trans hlast
      · -- The walk skips the blanks behind a comma; in the grammar they belong to the next member.
        refine .cons ?_ (hmembers.blanks_append hafter)
        rw [hlast.ahead] at hmemberText
        simpa only [Container.mark, Bool.false_eq_true, if_false, List.append_assoc]
          using hmemberText

/-- The walk goes over exactly the text of one object and the blanks behind it. -/
theorem Gives.exists_isObjectText {className : String}
    (h : Gives (objectMembers className) start met stop) (haligned : start.ahead.IsAligned) :
    ∃ raw after, start.Passes (raw ++ after) stop ∧
      IsObjectText start.offset raw (after ++ stop.ahead) met ∧ IsBlankText after ∧
      startsUnblank stop.ahead := by
  obtain ⟨hopen, hcases⟩ := h.objectMembers_cases
  obtain ⟨before, hpasses, hbefore, -⟩ := start.exists_passes_skipBlanks
  obtain ⟨tail, htail⟩ := List.head?_eq_some_iff.mp hopen
  have hpast := Cursor.passes_advance (show _ = [Ascii.openBrace] ++ tail from htail)
  obtain ⟨inside, hinside, hinsideBlank, -⟩ :=
    (start.skipBlanks.advance 1).exists_passes_skipBlanks
  have hfront := hpasses.trans (hpast.trans hinside)
  rcases hcases with ⟨hclose, rfl, rfl⟩ | hentries
  · obtain ⟨rest, hrest⟩ := List.head?_eq_some_iff.mp hclose
    have hend := Cursor.passes_advance (show _ = [Ascii.closeBrace] ++ rest from hrest)
    obtain ⟨after, hafter, hafterBlank, hunblank⟩ := Cursor.exists_passes_skipBlanks
      ((start.skipBlanks.advance 1).skipBlanks.advance 1)
    refine ⟨_, after, ?_, .empty hbefore hinsideBlank, hafterBlank, hunblank⟩
    simpa using hfront.trans (hend.trans hafter)
  · have haligned' : (start.skipBlanks.advance 1).skipBlanks.ahead.IsAligned := by
      have hmiddle := (hpasses.ahead ▸ haligned).after_blanks hbefore
      rw [hpast.ahead] at hmiddle
      exact ((Bytes.isAligned_cons_of_isAscii rfl).mp hmiddle).skipBlanks
    obtain ⟨raw, after, hraw, hmembers, hafter, hunblank⟩ :=
      hentries.exists_isMembersText haligned'
    have hoffset : (start.skipBlanks.advance 1).skipBlanks.offset
        = start.offset + before.length + 1 + inside.length := by
      rw [hfront.offset]
      simp only [List.length_append, List.length_cons, List.length_nil]
      omega
    rw [hoffset] at hmembers
    refine ⟨before ++ Ascii.openBrace :: (inside ++ raw), after, ?_,
      .full hbefore (hmembers.blanks_append hinsideBlank), hafter, hunblank⟩
    simpa using hfront.trans hraw

theorem gives_memberEntry_skipBlanks :
    Gives memberEntry start.skipBlanks member stop ↔ Gives memberEntry start member stop := by
  simp only [memberEntry, name, gives_bind, gives_skipBlanks, Cursor.skipBlanks_skipBlanks]

theorem gives_entries_skipBlanks :
    Gives (entries .object atEnd memberEntry steps) start.skipBlanks met stop ↔
      Gives (entries .object atEnd memberEntry steps) start met stop := by
  cases steps with
  | zero => exact iff_of_false not_gives_fail not_gives_fail
  | succ steps => rw [entries, gives_bind, gives_bind]; simp only [gives_memberEntry_skipBlanks]

theorem exists_gives_memberEntry {raw rest : Bytes} (h : IsMemberText start.offset raw rest member)
    (hahead : start.ahead = raw ++ rest) (haligned : start.ahead.IsAligned) :
    ∃ stop taken blanks, Gives memberEntry start member stop ∧ start.Passes taken stop ∧
      raw = taken ++ blanks ∧ IsBlankText blanks := by
  obtain @⟨name, front, value, blanks, _, text, shape, hname, hfound, hblanks⟩ := h
  have hsplit : start.ahead = front ++ (value ++ (blanks ++ rest)) := by
    simpa only [List.append_assoc] using hahead
  have hunblank : startsUnblank (value ++ (blanks ++ rest)) := by
    obtain ⟨byte, tail, rfl, hbyte⟩ := hfound.head
    exact startsUnblank_cons hbyte _
  obtain ⟨span, middle, hgives, hspan, hpasses⟩ := exists_gives_name hname hsplit haligned hunblank
  have hmiddle : middle.ahead = [] ++ (value ++ (blanks ++ rest)) := hpasses.ahead_eq hsplit
  have hmiddleAligned := hname.aligned (hpasses.ahead ▸ haligned)
  obtain ⟨stop, hvalue, hpast⟩ := exists_gives_value hmiddle hmiddleAligned isBlankText_nil hfound
  refine ⟨stop, front ++ value, blanks, ?_, hpasses.trans hpast, (List.append_assoc _ _ _).symm,
    hblanks⟩
  simp only [memberEntry, gives_bind, gives_pure]
  refine ⟨span, middle, hgives, _, stop, hvalue, ?_, rfl⟩
  rw [hspan, hpasses.offset, List.length_nil, Nat.add_zero]

/-- The step over a member and the separator behind it stops at the blanks that follow. -/
theorem exists_gives_entryEnd_of_isMemberText (isLast : Bool) {raw tail : Bytes}
    (atEnd : StructureFault)
    (h : IsMemberText start.offset raw (Container.object.mark isLast :: tail) member)
    (hahead : start.ahead = raw ++ Container.object.mark isLast :: tail)
    (haligned : start.ahead.IsAligned) :
    ∃ middle behind : Cursor, Gives memberEntry start member middle ∧
      Gives (entryEnd .object atEnd) middle isLast behind.skipBlanks ∧
      start.Passes (raw ++ [Container.object.mark isLast]) behind ∧ behind.ahead = tail ∧
      tail.IsAligned := by
  obtain ⟨middle, taken, blanks, hgives, hpasses, rfl, hblanks⟩ :=
    exists_gives_memberEntry h hahead haligned
  have hmiddle : middle.ahead = blanks ++ Container.object.mark isLast :: tail := by
    refine hpasses.ahead_eq ?_
    rw [hahead, List.append_assoc]
  obtain ⟨behind, hend, hmark⟩ := exists_gives_entryEnd_skipBlanks .object atEnd hmiddle hblanks
  have hwhole := hpasses.trans hmark
  rw [← List.append_assoc] at hwhole
  refine ⟨middle, behind, hgives, hend, hwhole, hwhole.ahead_eq ?_, ?_⟩
  · rw [hahead, List.append_assoc, List.append_assoc, List.singleton_append, List.append_assoc]
  · rw [hahead] at haligned
    exact haligned.after (isAscii_of_isSeparator (Container.object.isSeparator_mark isLast))

theorem exists_gives_entries_of_isMembersText {offset : Nat} {raw rest : Bytes}
    (atEnd : StructureFault) (h : IsMembersText offset raw rest met)
    (hoffset : start.offset = offset) (hahead : start.ahead = raw ++ rest) (haligned : start.ahead.IsAligned)
    (hsteps : met.length ≤ steps) :
    ∃ stop, Gives (entries .object atEnd memberEntry steps) start met stop ∧
      start.Passes (raw ++ rest.takeWhile isBlank) stop := by
  induction h generalizing start steps with
  | @last offset raw rest member hmember =>
    cases steps with
    | zero => cases hsteps
    | succ steps =>
      rw [List.append_assoc, List.singleton_append] at hahead
      subst hoffset
      obtain ⟨middle, behind, hgives, hend, hpasses, rfl, -⟩ :=
        exists_gives_entryEnd_of_isMemberText true atEnd hmember hahead haligned
      refine ⟨behind.skipBlanks, ?_, hpasses.trans behind.passes_skipBlanks⟩
      simp only [entries, gives_bind]
      exact ⟨member, middle, hgives, true, _, hend, gives_pure.mpr ⟨rfl, rfl⟩⟩
  | @cons offset raw more rest member members hmember _ ih =>
    cases steps with
    | zero => cases hsteps
    | succ steps =>
      rw [List.append_assoc, List.cons_append] at hahead
      subst hoffset
      obtain ⟨middle, behind, hgives, hend, hpasses, hbehind, hrest⟩ :=
        exists_gives_entryEnd_of_isMemberText false atEnd hmember hahead haligned
      have hoffset : behind.offset = start.offset + raw.length + 1 := by
        rw [hpasses.offset, List.length_append, List.length_singleton, Nat.add_assoc]
      obtain ⟨stop, hmore, hpast⟩ :=
        ih hoffset hbehind (hbehind ▸ hrest) (Nat.le_of_succ_le_succ hsteps)
      refine ⟨stop, ?_, ?_⟩
      · simp only [entries, gives_bind]
        refine ⟨member, middle, hgives, false, _, hend, gives_bind.mpr ?_⟩
        exact ⟨members, stop, gives_entries_skipBlanks.mpr hmore, gives_pure.mpr ⟨rfl, rfl⟩⟩
      · simpa [Container.mark] using hpasses.trans hpast

theorem passes_openBrace {before inside : Bytes}
    (hahead : start.ahead = before ++ Ascii.openBrace :: inside) (hbefore : IsBlankText before) :
    start.skipBlanks.peek? = some Ascii.openBrace ∧
      start.Passes (before ++ [Ascii.openBrace]) (start.skipBlanks.advance 1) ∧
      (start.skipBlanks.advance 1).ahead = inside := by
  have hpasses := Cursor.passes_skipBlanks_of_eq hahead hbefore (startsUnblank_cons rfl _)
  have hopen := hpasses.ahead_eq hahead
  have hpast : start.skipBlanks.Passes [Ascii.openBrace] (start.skipBlanks.advance 1) :=
    Cursor.passes_advance (show _ = [Ascii.openBrace] ++ inside from hopen)
  exact ⟨by rw [Cursor.peek?, hopen, List.head?_cons], hpasses.trans hpast, hpast.ahead_eq hopen⟩

theorem exists_gives_objectMembers_of_isBlankText {before inside rest : Bytes} (className : String)
    (hahead : start.ahead = before ++ Ascii.openBrace :: (inside ++ Ascii.closeBrace :: rest))
    (hbefore : IsBlankText before) (hinside : IsBlankText inside) :
    ∃ stop, Gives (objectMembers className) start [] stop ∧
      start.Passes (before ++ Ascii.openBrace ::
        (inside ++ Ascii.closeBrace :: rest.takeWhile isBlank)) stop := by
  obtain ⟨hopen, hpasses, htail⟩ := passes_openBrace hahead hbefore
  have hclose := Cursor.passes_skipBlanks_of_eq htail hinside (startsUnblank_cons rfl _)
  have hbrace := hclose.ahead_eq htail
  have hlast : (start.skipBlanks.advance 1).skipBlanks.Passes [Ascii.closeBrace]
      ((start.skipBlanks.advance 1).skipBlanks.advance 1) :=
    Cursor.passes_advance (show _ = [Ascii.closeBrace] ++ rest from hbrace)
  have hbehind := Cursor.passes_skipBlanks ((start.skipBlanks.advance 1).skipBlanks.advance 1)
  rw [hlast.ahead_eq hbrace] at hbehind
  refine ⟨_, gives_objectMembers_empty hopen ?_, ?_⟩
  · rw [Cursor.peek?, hbrace, List.head?_cons]
  · simpa using hpasses.trans (hclose.trans (hlast.trans hbehind))

theorem exists_gives_objectMembers_of_isMembersText {before body rest : Bytes} (className : String)
    (hahead : start.ahead = before ++ Ascii.openBrace :: (body ++ rest))
    (hbefore : IsBlankText before)
    (h : IsMembersText (start.offset + before.length + 1) body rest met)
    (haligned : start.ahead.IsAligned) :
    ∃ stop, Gives (objectMembers className) start met stop ∧
      start.Passes (before ++ Ascii.openBrace :: (body ++ rest.takeWhile isBlank)) stop := by
  obtain ⟨hopen, hpasses, hinside⟩ := passes_openBrace hahead hbefore
  have hoffset : (start.skipBlanks.advance 1).offset = start.offset + before.length + 1 := by
    rw [hpasses.offset, List.length_append, List.length_singleton, Nat.add_assoc]
  have hinsideAligned : (start.skipBlanks.advance 1).ahead.IsAligned := by
    rw [hahead] at haligned
    rw [hinside]
    exact haligned.after rfl
  obtain ⟨blanks, tail, hbody, hblanks, hlength⟩ := h.exists_quote
  have hfirst : (start.skipBlanks.advance 1).ahead
      = blanks ++ Ascii.quote :: (tail ++ rest) := by
    rw [hinside, hbody, List.append_assoc, List.cons_append]
  have hquote := (Cursor.passes_skipBlanks_of_eq hfirst hblanks
    (startsUnblank_cons rfl _)).ahead_eq hfirst
  -- Every member has a quote, so one step for each byte ahead is enough.
  have hsteps : met.length ≤ (start.skipBlanks.advance 1).skipBlanks.ahead.length := by
    simp only [hquote, List.length_cons, List.length_append]
    omega
  obtain ⟨stop, hgives, hstop⟩ := exists_gives_entries_of_isMembersText .unterminatedObject
    h hoffset hinside hinsideAligned hsteps
  refine ⟨stop, gives_objectMembers_full hopen ?_ (gives_entries_skipBlanks.mpr hgives), ?_⟩
  · rw [Cursor.peek?, hquote, List.head?_cons]
    decide
  · simpa using hpasses.trans hstop

/-- The walk over an object goes through wherever a text of the grammar stands. -/
theorem exists_gives_objectMembers_of_isObjectText {raw rest : Bytes} (className : String)
    (h : IsObjectText start.offset raw rest met) (hahead : start.ahead = raw ++ rest)
    (haligned : start.ahead.IsAligned) :
    ∃ stop, Gives (objectMembers className) start met stop ∧
      start.Passes (raw ++ rest.takeWhile isBlank) stop := by
  cases h with
  | empty hbefore hinside =>
    obtain ⟨stop, hgives, hpasses⟩ := exists_gives_objectMembers_of_isBlankText className
      (by simpa using hahead) hbefore hinside
    exact ⟨stop, hgives, by simpa using hpasses⟩
  | full hbefore hmembers =>
    obtain ⟨stop, hgives, hpasses⟩ := exists_gives_objectMembers_of_isMembersText className
      (by simpa using hahead) hbefore hmembers haligned
    exact ⟨stop, hgives, by simpa using hpasses⟩

end Scan

theorem IsObjectText.exists_brace {offset : Nat} {raw rest : Bytes} {met : List (Bytes × Span)}
    (h : IsObjectText offset raw rest met) :
    ∃ before tail, raw = before ++ Ascii.openBrace :: tail ∧ IsBlankText before := by
  cases h with
  | empty hbefore => exact ⟨_, _, rfl, hbefore⟩
  | full hbefore => exact ⟨_, _, rfl, hbefore⟩

/-- Only a text that starts with a character has an ASCII byte behind its blanks. -/
theorem Cursor.startsChar_of_peek? {cursor : Cursor} {byte : UInt8}
    (h : cursor.skipBlanks.peek? = some byte) (hbyte : isAscii byte = true) :
    Bytes.startsChar cursor.ahead = true := by
  obtain ⟨blanks, hpasses, hblanks, -⟩ := cursor.exists_passes_skipBlanks
  obtain ⟨tail, htail⟩ := List.head?_eq_some_iff.mp h
  rw [hpasses.ahead, htail]
  cases blanks with
  | nil => exact Bytes.startsChar_cons_of_isAscii hbyte tail
  | cons blank blanks =>
    exact Bytes.startsChar_cons_of_isAscii (isAscii_of_isBlank (hblanks blank (by simp))) _

section Exact

variable {document : String} {start : Cursor} {raw rest : Bytes} {met : List (Bytes × Span)}

theorem Cursor.IsOver.isAligned_of_isObjectText (hstart : start.IsOver document)
    (hahead : start.ahead = raw ++ rest) (h : IsObjectText start.offset raw rest met) :
    start.ahead.IsAligned := by
  obtain ⟨before, tail, rfl, hbefore⟩ := h.exists_brace
  rw [List.append_assoc, List.cons_append] at hahead
  exact hstart.isAligned (Cursor.startsChar_of_peek? (Scan.passes_openBrace hahead hbefore).1 rfl)

/-- Where the walk over an object goes through, a text of the grammar stands, and of it every
declared member is given the last value of its name, unless an earlier declaration has the name. -/
theorem memberTexts_exact (table : MemberTable) (className : String)
    (hstart : start.IsOver document) :
    ((∃ given stop, Scan.Gives (Scan.memberTexts table className) start given stop) ↔
      ∃ raw rest met, start.ahead = raw ++ rest ∧ IsObjectText start.offset raw rest met) ∧
    ∀ given stop raw rest met, Scan.Gives (Scan.memberTexts table className) start given stop →
      start.ahead = raw ++ rest → IsObjectText start.offset raw rest met →
      given.length = table.size ∧
      (∀ position member, table.get? position = some member → given[position]? =
        some (keptSpan met ((table.members.take position).map Member.name) member.name)) ∧
      start.Passes (raw ++ rest.takeWhile isBlank) stop := by
  constructor
  · constructor
    · rintro ⟨given, stop, hgives⟩
      rw [Scan.memberTexts_eq, Scan.gives_map] at hgives
      obtain ⟨met, hmet, -⟩ := hgives
      have haligned := hstart.isAligned (Cursor.startsChar_of_peek? hmet.objectMembers_cases.1 rfl)
      obtain ⟨raw, after, hpasses, htext, -, -⟩ := hmet.exists_isObjectText haligned
      exact ⟨raw, after ++ stop.ahead, met, by rw [hpasses.ahead, List.append_assoc], htext⟩
    · rintro ⟨raw, rest, met, hahead, htext⟩
      obtain ⟨stop, hmet, -⟩ := Scan.exists_gives_objectMembers_of_isObjectText className htext
        hahead (hstart.isAligned_of_isObjectText hahead htext)
      rw [Scan.memberTexts_eq]
      exact ⟨_, stop, Scan.gives_map.mpr ⟨met, hmet, rfl⟩⟩
  · intro given stop raw rest met hgives hahead htext
    rw [Scan.memberTexts_eq, Scan.gives_map] at hgives
    obtain ⟨found, hfound, hgiven⟩ := hgives
    obtain ⟨last, hmet, hpasses⟩ := Scan.exists_gives_objectMembers_of_isObjectText className htext
      hahead (hstart.isAligned_of_isObjectText hahead htext)
    -- The walk is a function of the cursor, so it met what the grammar says.
    obtain ⟨rfl, rfl⟩ := hfound.unique hmet
    rw [foldl_keep_eq] at hgiven
    subst hgiven
    refine ⟨length_keptSpans _ _ _, fun position member hmember => ?_, hpasses⟩
    rw [getElem?_keptSpans [] hmember, List.append_nil]

/-- Of a name that is declared and met twice, the first declaration has the second value. -/
theorem repeated_name_kept : ∃ given stop,
    Scan.Gives (Scan.memberTexts ⟨[.ofString "v" .string, .ofString "v" .bool]⟩ "T")
      (.ofText (Bytes.ofString "\x7b\"v\":1 , \"v\":[]\x7d !")) given stop ∧
    given[0]? = some (some ⟨Bytes.ofString "[]", 13, .array⟩) ∧ given[1]? = some none ∧
    stop.ahead = Bytes.ofString "!" := by
  have hnil := isBlankText_nil
  have hspace : IsBlankText [Ascii.space] := by simp [IsBlankText, isBlank]
  have hname : IsNameText (Bytes.ofString "v") (Bytes.ofString "\"v\":") :=
    @IsNameText.mk _ [] [] [] (by decide) hnil hnil hnil
  have hone : IsLiteralText (Bytes.ofString "1") := by
    refine ⟨⟨_, rfl, by decide⟩, List.forall_mem_singleton.mpr rfl, ?_⟩
    rintro _ ⟨⟩
    rfl
  have hfirst : IsMemberText 1 (Bytes.ofString "\"v\":1 ") (Bytes.ofString ", \"v\":[]\x7d !")
      (Bytes.ofString "v", ⟨Bytes.ofString "1", 5, .literal⟩) :=
    .mk hname (.literal hone hspace ⟨_, rfl, rfl⟩) hnil
  have hsecond : IsMemberText 8 (Bytes.ofString " \"v\":[]") (Bytes.ofString "\x7d !")
      (Bytes.ofString "v", ⟨Bytes.ofString "[]", 13, .array⟩) :=
    .mk (hname.blanks_append hspace) (.bracketed .array (show IsBalanced .array [] from rfl)) hnil
  have hmembers : IsMembersText 1 (Bytes.ofString "\"v\":1 " ++ Ascii.comma ::
      (Bytes.ofString " \"v\":[]" ++ [Ascii.closeBrace])) (Bytes.ofString " !") _ :=
    .cons hfirst (.last hsecond)
  have htext : IsObjectText 0 _ _ _ := .full hnil hmembers
  have hstart : (Cursor.ofText (Bytes.ofString "\x7b\"v\":1 , \"v\":[]\x7d !")).IsOver
      "\x7b\"v\":1 , \"v\":[]\x7d !" := ⟨rfl, rfl⟩
  obtain ⟨hiff, hkept⟩ :=
    memberTexts_exact ⟨[.ofString "v" .string, .ofString "v" .bool]⟩ "T" hstart
  obtain ⟨given, stop, hgives⟩ := hiff.mpr ⟨_, _, _, rfl, htext⟩
  obtain ⟨-, hslots, hpasses⟩ := hkept given stop _ _ _ hgives rfl htext
  exact ⟨given, stop, hgives, hslots 0 _ rfl, hslots 1 _ rfl, hpasses.ahead_eq rfl⟩

end Exact

end SchemaJson
