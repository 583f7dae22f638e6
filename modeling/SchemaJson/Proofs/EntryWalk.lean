import SchemaJson.Proofs.FoundValues

/-! The walk over the entries of a container, as one loop for the members of an object and the
elements of an array. What it passes over is the entries, a separator behind each of them, and
blanks. -/

namespace SchemaJson

/-- A quoted name and the colon behind it, with blanks around both. -/
inductive IsNameText (content : Bytes) : Bytes → Prop
  | mk {before middle after : Bytes} : IsStringContent content → IsBlankText before →
      IsBlankText middle → IsBlankText after → IsNameText content
        (before ++ (Ascii.quote :: content ++ [Ascii.quote]) ++ middle ++ Ascii.colon :: after)

/-- The separator behind an entry: the closing bracket behind the last one, or a comma. -/
def Container.mark (container : Container) (isLast : Bool) : UInt8 :=
  if isLast then container.closing else Ascii.comma

theorem Container.isSeparator_mark (container : Container) (isLast : Bool) :
    isSeparator (container.mark isLast) = true := by
  cases container <;> cases isLast <;> rfl

theorem startsUnblank_cons {byte : UInt8} (h : isBlank byte = false) (tail : Bytes) :
    startsUnblank (byte :: tail) := by
  intro other hother
  cases hother
  exact h

theorem startsUnblank_of_isSeparator {byte : UInt8} (h : isSeparator byte = true) (tail : Bytes) :
    startsUnblank (byte :: tail) :=
  startsUnblank_cons (isBlank_eq_false_of_isSeparator h) tail

theorem IsFound.aligned {raw rest text : Bytes} {shape : Shape} (h : IsFound raw rest shape text)
    (haligned : (raw ++ rest).IsAligned) : rest.IsAligned := by
  cases h with
  | string =>
    rw [List.append_assoc] at haligned
    exact haligned.after rfl
  | bracketed container =>
    rw [List.append_assoc] at haligned
    exact haligned.after (by cases container <;> rfl)
  | literal _ _ hrest =>
    obtain ⟨byte, hbyte, hseparator⟩ := hrest
    cases rest with
    | nil => exact Bytes.isAligned_nil
    | cons head rest =>
      cases hbyte
      exact haligned.right
        (Bytes.startsChar_cons_of_isAscii (isAscii_of_isSeparator hseparator) rest)

theorem IsFound.aligned_text {raw rest text : Bytes} {shape : Shape}
    (h : IsFound raw rest shape text) (haligned : (raw ++ rest).IsAligned) : text.IsAligned := by
  have hraw := haligned.left
  cases h with
  | string =>
    rw [List.cons_append] at hraw
    exact ((Bytes.isAligned_cons_of_isAscii rfl).mp hraw).left
  | bracketed => exact hraw
  | literal => exact hraw.left

theorem IsNameText.aligned {content raw rest : Bytes} (h : IsNameText content raw)
    (haligned : (raw ++ rest).IsAligned) : rest.IsAligned := by
  obtain ⟨-, -, -, hafter⟩ := h
  rw [List.append_assoc] at haligned
  exact (haligned.after rfl).after_blanks hafter

theorem IsNameText.isBalanced {content raw : Bytes} (h : IsNameText content raw)
    (container : Container) : IsBalanced container raw := by
  obtain ⟨hcontent, hbefore, hmiddle, hafter⟩ := h
  have hcolon : IsBalanced container [Ascii.colon] := by
    cases container <;> decide
  exact (((hbefore.isBalanced container).append (.quoted hcontent)).append
    (hmiddle.isBalanced container)).append (hcolon.append (hafter.isBalanced container))

namespace Scan

variable {α β : Type}

theorem Gives.exists_separator {start stop : Cursor} {byte : UInt8} {atEnd : StructureFault}
    (h : Gives (separator atEnd) start byte stop) : ∃ before after,
      start.Passes (before ++ byte :: after) stop ∧ IsBlankText before ∧ IsBlankText after ∧
      isSeparator byte = true ∧ startsUnblank stop.ahead := by
  simp only [separator, gives_bind, gives_skipBlanks, gives_get] at h
  obtain ⟨_, _, rfl, _, _, ⟨rfl, rfl⟩, h⟩ := h
  obtain ⟨before, hpasses, hbefore, -⟩ := start.exists_passes_skipBlanks
  cases htail : start.skipBlanks.ahead with
  | nil =>
    rw [Cursor.peek?, htail] at h
    exact absurd h not_gives_fail
  | cons found tail =>
    rw [Cursor.peek?, htail] at h
    dsimp only [List.head?_cons] at h
    split at h
    next hseparator =>
      simp only [gives_bind, gives_move, gives_skipBlanks, gives_pure] at h
      obtain ⟨_, _, rfl, _, _, rfl, rfl, rfl⟩ := h
      have hmark := Cursor.passes_advance (show start.skipBlanks.ahead = [found] ++ tail from htail)
      obtain ⟨after, hafter, hblanks, hunblank⟩ := Cursor.exists_passes_skipBlanks
        { start.skipBlanks.advance 1 with latestSeparator := some found }
      refine ⟨before, after, ?_, hbefore, hblanks, hseparator, hunblank⟩
      have hmarked : start.skipBlanks.Passes [found]
          { start.skipBlanks.advance 1 with latestSeparator := some found } :=
        ⟨hmark.ahead, hmark.index, hmark.text, hmark.base⟩
      exact hpasses.trans (hmarked.trans hafter)
    · exact absurd h not_gives_fail

theorem Gives.aligned_of_separator {start stop : Cursor} {byte : UInt8} {atEnd : StructureFault}
    (h : Gives (separator atEnd) start byte stop) (haligned : start.ahead.IsAligned) :
    stop.ahead.IsAligned := by
  obtain ⟨before, after, hpasses, -, hafter, hseparator, -⟩ := h.exists_separator
  rw [hpasses.ahead, List.append_assoc] at haligned
  exact (haligned.after (isAscii_of_isSeparator hseparator)).after_blanks hafter

/-- Both what is kept of a value and what stands behind it start with a character. -/
theorem Gives.aligned_around_value {start stop : Cursor} {span : Span}
    (h : Gives value start span stop) (haligned : start.ahead.IsAligned) :
    span.text.IsAligned ∧ stop.ahead.IsAligned := by
  obtain ⟨blanks, raw, hpasses, hblanks, hfound, -⟩ := h.exists_isFound haligned
  rw [hpasses.ahead, List.append_assoc] at haligned
  have hmiddle := haligned.after_blanks hblanks
  exact ⟨hfound.aligned_text hmiddle, hfound.aligned hmiddle⟩

theorem exists_gives_separator_skipBlanks {start : Cursor} {before tail : Bytes} {byte : UInt8}
    (atEnd : StructureFault) (hahead : start.ahead = before ++ byte :: tail)
    (hbefore : IsBlankText before) (hseparator : isSeparator byte = true) :
    ∃ behind : Cursor, Gives (separator atEnd) start byte behind.skipBlanks ∧
      start.Passes (before ++ [byte]) behind := by
  have hpasses := Cursor.passes_skipBlanks_of_eq hahead hbefore
    (startsUnblank_of_isSeparator hseparator _)
  have htail := hpasses.ahead_eq hahead
  have hmark := Cursor.passes_advance (show start.skipBlanks.ahead = [byte] ++ tail from htail)
  refine ⟨{ start.skipBlanks.advance 1 with latestSeparator := some byte }, ?_,
    hpasses.trans ⟨hmark.ahead, hmark.index, hmark.text, hmark.base⟩⟩
  simp only [separator, gives_bind, gives_skipBlanks, gives_get]
  refine ⟨(), _, rfl, _, _, ⟨rfl, rfl⟩, ?_⟩
  rw [Cursor.peek?, htail]
  dsimp only [List.head?_cons]
  rw [if_pos hseparator]
  simp only [gives_bind, gives_move, gives_skipBlanks, gives_pure]
  exact ⟨(), _, rfl, (), _, rfl, trivial, rfl⟩

/-- A name is a string behind blanks, with a colon between more of them behind it. -/
theorem Gives.exists_quoted {start stop : Cursor} {span : Span} (h : Gives name start span stop) :
    start.skipBlanks.peek? = some Ascii.quote ∧
      ∃ quoted, Gives string start.skipBlanks span quoted ∧
        quoted.skipBlanks.peek? = some Ascii.colon ∧
        stop = (quoted.skipBlanks.advance 1).skipBlanks := by
  simp only [name, gives_bind, gives_skipBlanks, gives_get] at h
  obtain ⟨_, _, rfl, _, _, ⟨rfl, rfl⟩, h⟩ := h
  split at h
  next => exact absurd h not_gives_fail
  next byte hbyte =>
    split at h
    next hquote =>
      subst hquote
      simp only [gives_bind, gives_skipBlanks, gives_get] at h
      obtain ⟨_, quoted, hstring, _, _, rfl, _, _, ⟨rfl, rfl⟩, h⟩ := h
      split at h
      next hcolon =>
        simp only [gives_bind, gives_move, gives_skipBlanks, gives_pure] at h
        obtain ⟨_, _, rfl, _, _, rfl, rfl, rfl⟩ := h
        exact ⟨hbyte, quoted, hstring, hcolon, rfl⟩
      next => exact absurd h not_gives_throw
    next => exact absurd h not_gives_throw

theorem Gives.exists_name {start stop : Cursor} {span : Span} (h : Gives name start span stop)
    (haligned : start.ahead.IsAligned) :
    ∃ raw, start.Passes raw stop ∧ IsNameText span.text raw := by
  obtain ⟨hquote, quoted, hstring, hcolon, rfl⟩ := h.exists_quoted
  obtain ⟨before, hpasses, hbefore, -⟩ := start.exists_passes_skipBlanks
  have htailAligned := (hpasses.ahead ▸ haligned).after_blanks hbefore
  obtain ⟨tail, htail⟩ := List.head?_eq_some_iff.mp hquote
  obtain ⟨content, rest, rfl, hcontent, rfl, rfl⟩ := (gives_string htail htailAligned).mp hstring
  have hquoted : start.skipBlanks.Passes (Ascii.quote :: content ++ [Ascii.quote])
      (start.skipBlanks.advance (content.length + 2)) := by
    simpa using Cursor.passes_advance
      (show start.skipBlanks.ahead = (Ascii.quote :: content ++ [Ascii.quote]) ++ rest by
        rw [htail]
        simp)
  obtain ⟨middle, hmiddle, hblanks, -⟩ :=
    (start.skipBlanks.advance (content.length + 2)).exists_passes_skipBlanks
  obtain ⟨behind, hbehind⟩ := List.head?_eq_some_iff.mp hcolon
  have hpast := Cursor.passes_advance (show _ = [Ascii.colon] ++ behind from hbehind)
  obtain ⟨after, hafter, hafterBlank, -⟩ := Cursor.exists_passes_skipBlanks
    ((start.skipBlanks.advance (content.length + 2)).skipBlanks.advance 1)
  refine ⟨_, ?_, .mk hcontent hbefore hblanks hafterBlank⟩
  exact ((hpasses.trans hquoted).trans hmiddle).trans (hpast.trans hafter)

theorem exists_gives_name {start : Cursor} {content raw rest : Bytes}
    (hname : IsNameText content raw) (hahead : start.ahead = raw ++ rest)
    (haligned : start.ahead.IsAligned) (hrest : startsUnblank rest) :
    ∃ span stop, Gives name start span stop ∧ span.text = content ∧ start.Passes raw stop := by
  obtain @⟨before, middle, after, hcontent, hbefore, hmiddle, hafter⟩ := hname
  have hsplit : start.ahead = before ++ (Ascii.quote :: (content ++ Ascii.quote ::
      (middle ++ Ascii.colon :: (after ++ rest)))) := by
    rw [hahead]
    simp
  have hpasses := Cursor.passes_skipBlanks_of_eq hsplit hbefore (startsUnblank_cons rfl _)
  have htail := hpasses.ahead_eq hsplit
  have htailAligned := (hsplit ▸ haligned).after_blanks hbefore
  have hstring := (gives_string htail (htail.symm ▸ htailAligned)).mpr
    ⟨content, _, rfl, hcontent, rfl, rfl⟩
  have hquoted : start.skipBlanks.Passes (Ascii.quote :: content ++ [Ascii.quote])
      (start.skipBlanks.advance (content.length + 2)) := by
    simpa using Cursor.passes_advance
      (show start.skipBlanks.ahead = (Ascii.quote :: content ++ [Ascii.quote]) ++
          (middle ++ Ascii.colon :: (after ++ rest)) by
        rw [htail]
        simp)
  have hbehind : _ = middle ++ Ascii.colon :: (after ++ rest) := hquoted.ahead_eq (by
    rw [htail]
    simp)
  have hblanks := Cursor.passes_skipBlanks_of_eq hbehind hmiddle (startsUnblank_cons rfl _)
  have hcolon := hblanks.ahead_eq hbehind
  have hpast := Cursor.passes_advance (show _ = [Ascii.colon] ++ (after ++ rest) from hcolon)
  have hlast := Cursor.passes_skipBlanks_of_eq (hpast.ahead_eq hcolon) hafter hrest
  refine ⟨⟨content, start.skipBlanks.offset + 1, .string⟩, _, ?_, rfl,
    ((hpasses.trans hquoted).trans hblanks).trans (hpast.trans hlast)⟩
  simp only [name, gives_bind, gives_skipBlanks, gives_get]
  refine ⟨(), _, rfl, _, _, ⟨rfl, rfl⟩, ?_⟩
  rw [Cursor.peek?, htail]
  dsimp only [List.head?_cons]
  rw [if_pos rfl]
  simp only [gives_bind, gives_skipBlanks, gives_get]
  refine ⟨_, _, hstring, (), _, rfl, _, _, ⟨rfl, rfl⟩, ?_⟩
  rw [Cursor.peek?, hcolon, List.head?_cons, if_pos rfl]
  simp only [gives_bind, gives_move, gives_skipBlanks, gives_pure]
  exact ⟨(), _, rfl, (), _, rfl, trivial, rfl⟩

/-- What follows an entry of a container, with the blanks around it: whether the closing bracket
does. -/
def entryEnd (container : Container) (atEnd : StructureFault) : Scan Bool := do
  skipBlanks
  let cursor ← get
  let byte ← separator atEnd
  if byte = Ascii.comma then return false
  else if byte = container.closing then return true
  else throw (.structural (.mismatchedClose (Char.ofNat byte.toNat)) cursor.offset)

theorem gives_separator_skipBlanks {start stop : Cursor} {atEnd : StructureFault} {byte : UInt8} :
    Gives (separator atEnd) start.skipBlanks byte stop ↔
      Gives (separator atEnd) start byte stop := by
  simp only [separator, gives_bind, gives_skipBlanks, Cursor.skipBlanks_skipBlanks]

/-- An entry ends with the comma or the closing bracket that the walk says it does. -/
theorem Gives.separator_of_entryEnd {container : Container} {atEnd : StructureFault}
    {start stop : Cursor} {isLast : Bool} (h : Gives (entryEnd container atEnd) start isLast stop) :
    Gives (separator atEnd) start (container.mark isLast) stop := by
  simp only [entryEnd, gives_bind, gives_skipBlanks, gives_get] at h
  obtain ⟨_, _, rfl, _, _, ⟨rfl, rfl⟩, byte, middle, hseparator, h⟩ := h
  rw [gives_separator_skipBlanks] at hseparator
  split at h
  next hcomma =>
    obtain ⟨rfl, rfl⟩ := gives_pure.mp h
    rwa [hcomma] at hseparator
  next =>
    split at h
    next hclosing =>
      obtain ⟨rfl, rfl⟩ := gives_pure.mp h
      rwa [hclosing] at hseparator
    · exact absurd h not_gives_throw

theorem Gives.exists_entryEnd {container : Container} {atEnd : StructureFault}
    {start stop : Cursor} {isLast : Bool} (h : Gives (entryEnd container atEnd) start isLast stop) :
    ∃ before after, start.Passes (before ++ container.mark isLast :: after) stop ∧
      IsBlankText before ∧ IsBlankText after ∧ startsUnblank stop.ahead := by
  obtain ⟨before, after, hpasses, hbefore, hafter, -, hstop⟩ :=
    h.separator_of_entryEnd.exists_separator
  exact ⟨before, after, hpasses, hbefore, hafter, hstop⟩

theorem Gives.aligned_of_entryEnd {container : Container} {atEnd : StructureFault}
    {start stop : Cursor} {isLast : Bool} (h : Gives (entryEnd container atEnd) start isLast stop)
    (haligned : start.ahead.IsAligned) : stop.ahead.IsAligned :=
  h.separator_of_entryEnd.aligned_of_separator haligned

theorem exists_gives_entryEnd_skipBlanks (container : Container) (atEnd : StructureFault)
    {start : Cursor} {before tail : Bytes} {isLast : Bool}
    (hahead : start.ahead = before ++ container.mark isLast :: tail) (hbefore : IsBlankText before) :
    ∃ behind : Cursor, Gives (entryEnd container atEnd) start isLast behind.skipBlanks ∧
      start.Passes (before ++ [container.mark isLast]) behind := by
  have hseparates := container.isSeparator_mark isLast
  have hpasses := Cursor.passes_skipBlanks_of_eq hahead hbefore
    (startsUnblank_of_isSeparator hseparates _)
  obtain ⟨behind, hseparator, hpast⟩ := exists_gives_separator_skipBlanks atEnd
    (show _ = [] ++ container.mark isLast :: tail from hpasses.ahead_eq hahead)
    isBlankText_nil hseparates
  refine ⟨behind, ?_, hpasses.trans hpast⟩
  simp only [entryEnd, gives_bind, gives_skipBlanks, gives_get]
  refine ⟨(), _, rfl, _, _, ⟨rfl, rfl⟩, _, _, hseparator, ?_⟩
  cases isLast with
  | false => exact gives_pure.mpr ⟨rfl, rfl⟩
  | true => cases container <;> exact gives_pure.mpr ⟨rfl, rfl⟩

theorem exists_gives_entryEnd (container : Container) (atEnd : StructureFault) {start : Cursor}
    {before after rest : Bytes} {isLast : Bool}
    (hahead : start.ahead = before ++ container.mark isLast :: (after ++ rest))
    (hbefore : IsBlankText before) (hafter : IsBlankText after) (hrest : startsUnblank rest) :
    ∃ stop, Gives (entryEnd container atEnd) start isLast stop ∧
      start.Passes (before ++ container.mark isLast :: after) stop := by
  obtain ⟨behind, hgives, hpasses⟩ :=
    exists_gives_entryEnd_skipBlanks container atEnd hahead hbefore
  have hbehind : behind.ahead = after ++ rest := by
    refine hpasses.ahead_eq ?_
    rw [hahead, List.append_assoc, List.singleton_append]
  refine ⟨_, hgives, ?_⟩
  have hpast := hpasses.trans (Cursor.passes_skipBlanks_of_eq hbehind hafter hrest)
  rwa [List.append_assoc, List.singleton_append] at hpast

/-- The entries from the cursor to the closing bracket. -/
def entries (container : Container) (atEnd : StructureFault) (entry : Scan α) :
    (steps : Nat) → Scan (List α)
  | 0 => fail .unexpectedEnd
  | steps + 1 => do
    let found ← entry
    if ← entryEnd container atEnd then return [found]
    else return found :: (← entries container atEnd entry steps)

/-- One member of an object: its name and its value. -/
def memberEntry : Scan (Bytes × Span) := do
  let name ← name
  let span ← value
  return (name.text, span)

end Scan

/-- Keeps the text of a declared member in the place of an earlier one. -/
def MemberTable.keep (table : MemberTable) (given : List (Option Span)) (met : Bytes × Span) :
    List (Option Span) :=
  match table.find? met.1 with
  | some position => given.set position (some met.2)
  | none => given

namespace Scan

theorem members_eq (table : MemberTable) (steps : Nat) (given : List (Option Span)) :
    members table steps given = (fun met => met.foldl table.keep given) <$>
      entries .object .unterminatedObject memberEntry steps := by
  induction steps generalizing given with
  | zero => rfl
  | succ steps ih =>
    simp only [members, entries, memberEntry, entryEnd, map_bind, bind_assoc, pure_bind, ih]
    congr 1
    funext name
    congr 1
    funext span
    congr 1
    funext _
    congr 1
    funext cursor
    congr 1
    funext byte
    by_cases hcomma : byte = Ascii.comma
    · simp only [hcomma, if_true, pure_bind, Bool.false_eq_true, if_false, bind_pure_comp,
        Functor.map_map, List.foldl_cons]
      rfl
    · rw [if_neg hcomma, if_neg hcomma]
      by_cases hclosing : byte = Ascii.closeBrace
      · rw [if_pos hclosing, if_pos (show byte = Container.object.closing from hclosing)]
        simp only [pure_bind, if_true, map_pure, List.foldl_cons, List.foldl_nil]
        rfl
      · rw [if_neg hclosing, if_neg (show ¬ byte = Container.object.closing from hclosing)]
        rfl

theorem element_eq : element = (do
    let span ← value
    let isLast ← entryEnd .array .unterminatedArray
    return (span, isLast)) := by
  simp only [element, entryEnd, bind_assoc]
  congr 1
  funext span
  congr 1
  funext _
  congr 1
  funext cursor
  congr 1
  funext byte
  by_cases hcomma : byte = Ascii.comma
  · simp [hcomma]
  · rw [if_neg hcomma, if_neg hcomma]
    by_cases hclosing : byte = Ascii.closeBracket
    · rw [if_pos hclosing, if_pos (show byte = Container.array.closing from hclosing), pure_bind]
    · rw [if_neg hclosing, if_neg (show ¬ byte = Container.array.closing from hclosing)]
      rfl

theorem run_elements_succ (steps : Nat) (start : Cursor) :
    (elements (steps + 1)).run start = match outcome element start with
      | (.error error, middle) => (([], some error), middle)
      | (.ok (span, true), middle) => (([span], none), middle)
      | (.ok (span, false), middle) =>
        ((span :: ((elements steps).run middle).1.1, ((elements steps).run middle).1.2),
          ((elements steps).run middle).2) := by
  simp only [elements, outcome, StateT.run_bind]
  rcases element.run.run start with ⟨_ | ⟨span, _ | _⟩, middle⟩ <;> rfl

/-- The elements are all there exactly when the walk over the entries goes through. -/
theorem run_elements_iff {steps : Nat} {start stop : Cursor} {spans : List Span} :
    (elements steps).run start = ((spans, none), stop) ↔
      Gives (entries .array .unterminatedArray value steps) start spans stop := by
  have hentries (steps : Nat) : entries .array .unterminatedArray value (steps + 1) = (do
      let entry ← element
      if entry.2 then return [entry.1]
      else return entry.1 :: (← entries .array .unterminatedArray value steps)) := by
    simp only [entries, element_eq, bind_assoc, pure_bind]
  induction steps generalizing start spans with
  | zero =>
    constructor
    · intro h
      cases h
    · intro h
      exact absurd h not_gives_fail
  | succ steps ih =>
    rw [run_elements_succ, hentries, gives_bind]
    constructor
    · intro h
      split at h
      next => cases h
      next span middle helement =>
        cases h
        exact ⟨_, _, helement, gives_pure.mpr ⟨rfl, rfl⟩⟩
      next span middle helement =>
        rcases hrest : (elements steps).run middle with ⟨⟨found, fault⟩, last⟩
        rw [hrest] at h
        cases h
        refine ⟨_, _, helement, gives_bind.mpr ⟨_, _, ih.mp hrest, gives_pure.mpr ⟨rfl, rfl⟩⟩⟩
    · rintro ⟨⟨span, isLast⟩, middle, helement, hrest⟩
      rw [helement]
      cases isLast with
      | true =>
        obtain ⟨rfl, rfl⟩ := gives_pure.mp hrest
        rfl
      | false =>
        obtain ⟨found, last, hfound, hpure⟩ := gives_bind.mp hrest
        obtain ⟨rfl, rfl⟩ := gives_pure.mp hpure
        simp only [ih.mpr hfound]

/-- The members of a whole object in the order of the text. -/
def objectMembers (className : String) : Scan (List (Bytes × Span)) := do
  skipBlanks
  let start ← get
  if start.peek? = some Ascii.openBrace then
    move (.advance 1)
    skipBlanks
    let cursor ← get
    if cursor.peek? = some Ascii.closeBrace then
      move (.advance 1)
      skipBlanks
      return []
    else entries .object .unterminatedObject memberEntry cursor.ahead.length
  else throw (.classStart className start.offset)

section ObjectMembers

variable {className : String} {start : Cursor}

/-- An object is closed behind its opening brace and blanks, or has its members there. -/
theorem Gives.objectMembers_cases {met : List (Bytes × Span)} {stop : Cursor}
    (h : Gives (objectMembers className) start met stop) :
    start.skipBlanks.peek? = some Ascii.openBrace ∧
      (((start.skipBlanks.advance 1).skipBlanks.peek? = some Ascii.closeBrace ∧ met = [] ∧
          stop = ((start.skipBlanks.advance 1).skipBlanks.advance 1).skipBlanks) ∨
        Gives (entries .object .unterminatedObject memberEntry
          (start.skipBlanks.advance 1).skipBlanks.ahead.length)
            (start.skipBlanks.advance 1).skipBlanks met stop) := by
  simp only [objectMembers, gives_bind, gives_skipBlanks, gives_get] at h
  obtain ⟨_, _, rfl, _, _, ⟨rfl, rfl⟩, h⟩ := h
  split at h
  next hopen =>
    simp only [gives_bind, gives_move, gives_skipBlanks, gives_get] at h
    obtain ⟨_, _, rfl, _, _, rfl, _, _, ⟨rfl, rfl⟩, h⟩ := h
    split at h
    next hclose =>
      simp only [gives_bind, gives_move, gives_skipBlanks, gives_pure] at h
      obtain ⟨_, _, rfl, _, _, rfl, rfl, rfl⟩ := h
      exact ⟨hopen, .inl ⟨hclose, rfl, rfl⟩⟩
    next => exact ⟨hopen, .inr h⟩
  · exact absurd h not_gives_throw

theorem gives_objectMembers_empty (hopen : start.skipBlanks.peek? = some Ascii.openBrace)
    (hclose : (start.skipBlanks.advance 1).skipBlanks.peek? = some Ascii.closeBrace) :
    Gives (objectMembers className) start []
      ((start.skipBlanks.advance 1).skipBlanks.advance 1).skipBlanks := by
  simp only [objectMembers, gives_bind, gives_skipBlanks, gives_get]
  refine ⟨(), _, rfl, _, _, ⟨rfl, rfl⟩, ?_⟩
  rw [if_pos hopen]
  simp only [gives_bind, gives_move, gives_skipBlanks, gives_get]
  refine ⟨(), _, rfl, (), _, rfl, _, _, ⟨rfl, rfl⟩, ?_⟩
  rw [if_pos hclose]
  simp only [gives_bind, gives_move, gives_skipBlanks, gives_pure]
  exact ⟨(), _, rfl, (), _, rfl, trivial, rfl⟩

theorem gives_objectMembers_full {met : List (Bytes × Span)} {stop : Cursor}
    (hopen : start.skipBlanks.peek? = some Ascii.openBrace)
    (hclose : (start.skipBlanks.advance 1).skipBlanks.peek? ≠ some Ascii.closeBrace)
    (h : Gives (entries .object .unterminatedObject memberEntry
      (start.skipBlanks.advance 1).skipBlanks.ahead.length)
        (start.skipBlanks.advance 1).skipBlanks met stop) :
    Gives (objectMembers className) start met stop := by
  simp only [objectMembers, gives_bind, gives_skipBlanks, gives_get]
  refine ⟨(), _, rfl, _, _, ⟨rfl, rfl⟩, ?_⟩
  rw [if_pos hopen]
  simp only [gives_bind, gives_move, gives_skipBlanks, gives_get]
  refine ⟨(), _, rfl, (), _, rfl, _, _, ⟨rfl, rfl⟩, ?_⟩
  rwa [if_neg hclose]

end ObjectMembers

theorem memberTexts_eq (table : MemberTable) (className : String) :
    memberTexts table className =
      (fun met => met.foldl table.keep (List.replicate table.size none)) <$>
        objectMembers className := by
  simp only [memberTexts, objectMembers, map_bind, members_eq]
  congr 1
  funext _
  congr 1
  funext start
  by_cases hopen : start.peek? = some Ascii.openBrace
  · rw [if_pos hopen, if_pos hopen]
    simp only [map_bind]
    congr 1
    funext _
    congr 1
    funext _
    congr 1
    funext cursor
    by_cases hclose : cursor.peek? = some Ascii.closeBrace
    · rw [if_pos hclose, if_pos hclose]
      simp only [map_bind, map_pure, List.foldl_nil]
    · rw [if_neg hclose, if_neg hclose]
  · rw [if_neg hopen, if_neg hopen]
    rfl

/-- The values of a whole array in the order of the text. -/
def arrayValues : Scan (List Span) := do
  if ← arrayStart then return []
  else entries .array .unterminatedArray value (← get).ahead.length

theorem run_arrayElements (start : Cursor) :
    arrayElements.run start = match outcome arrayStart start with
      | (.error error, middle) => (([], some error), middle)
      | (.ok true, middle) => (([], none), middle)
      | (.ok false, middle) => (elements middle.ahead.length).run middle := by
  simp only [arrayElements, outcome, StateT.run_bind]
  rcases arrayStart.run.run start with ⟨_ | _ | _, middle⟩ <;> rfl

theorem run_arrayElements_iff {start stop : Cursor} {spans : List Span} :
    arrayElements.run start = ((spans, none), stop) ↔ Gives arrayValues start spans stop := by
  rw [run_arrayElements, arrayValues, gives_bind]
  constructor
  · intro h
    split at h
    next => cases h
    next middle hstart =>
      cases h
      exact ⟨true, _, hstart, gives_pure.mpr ⟨rfl, rfl⟩⟩
    next middle hstart =>
      exact ⟨false, middle, hstart, gives_bind.mpr
        ⟨middle, middle, gives_get.mpr ⟨rfl, rfl⟩, run_elements_iff.mp h⟩⟩
  · rintro ⟨isEmpty, middle, hstart, h⟩
    rw [hstart]
    cases isEmpty with
    | true =>
      obtain ⟨rfl, rfl⟩ := gives_pure.mp h
      rfl
    | false =>
      obtain ⟨cursor, _, hget, hentries⟩ := gives_bind.mp h
      obtain ⟨rfl, rfl⟩ := gives_get.mp hget
      exact run_elements_iff.mpr hentries

end Scan

end SchemaJson
