import Mathlib.Logic.Relation
import SchemaJson.Proofs.DecodingInvariants
import SchemaJson.Proofs.ScanFailures

/-! Every span that a decoding cuts is a slice of the document. What lies ahead of a cursor is one
wherever the decoding comes to, for whether it goes on in a container or opens a span it only moves
on to a slice of a slice. -/

namespace SchemaJson

/-- The text stands in the document from the offset on, between two other texts. -/
def Bytes.IsSlice (document text : Bytes) (offset : Nat) : Prop :=
  ∃ before after, document = before ++ (text ++ after) ∧ before.length = offset ∧
    before.IsText ∧ text.IsText ∧ after.IsText

/-- A place that a decoding comes to: in front of a container, or in front of a name or a value that
stands in one. -/
inductive Site where
  | container (cursor : Cursor)
  | name (cursor : Cursor)
  | value (container : Container) (cursor : Cursor)

def Container.entrySite : Container → Cursor → Site
  | .object => .name
  | .array => .value .array

namespace Site

def cursor : Site → Cursor
  | container cursor => cursor
  | name cursor => cursor
  | value _ cursor => cursor

/-- The span is cut at the site: the name or the value that is found there. The cursor stops
behind it. -/
inductive Cuts : Site → Span → Cursor → Prop
  | name {start stop : Cursor} {span : Span} : start.skipBlanks.peek? = some Ascii.quote →
      Scan.Gives Scan.string start.skipBlanks span stop → Cuts (.name start) span stop
  | value {container : Container} {start stop : Cursor} {span : Span} :
      Scan.Gives Scan.value start span stop → Cuts (.value container start) span stop

/-- One move of a decoding: into a container, on to the next entry, past a whole object, or into a
span that was cut. -/
inductive Step : Site → Site → Prop
  | enter {container : Container} {start : Cursor} :
      start.skipBlanks.peek? = some container.opening →
      Step (.container start) (container.entrySite (start.skipBlanks.advance 1).skipBlanks)
  | named {start stop : Cursor} {span : Span} : Scan.Gives Scan.name start span stop →
      Step (.name start) (.value .object stop)
  | next {container : Container} {start middle stop : Cursor} {span : Span}
      {atEnd : StructureFault} : Scan.Gives Scan.value start span middle →
      Scan.Gives (Scan.separator atEnd) middle Ascii.comma stop →
      Step (.value container start) (container.entrySite stop)
  | past {start stop : Cursor} {className : String} {met : List (Bytes × Span)} :
      Scan.Gives (Scan.objectMembers className) start met stop →
      Step (.container start) (.container stop)
  | opened {container : Container} {start stop : Cursor} {span : Span} :
      Scan.Gives Scan.value start span stop →
      Step (.value container start) (.container (.ofSpan span))

end Site

/-- A decoding of the document can come to the site. It starts in front of an object, or in front of
the value that an array is. -/
def Bytes.Visits (document : Bytes) (site : Site) : Prop :=
  Relation.ReflTransGen Site.Step (.container (.ofText document)) site ∨
    Relation.ReflTransGen Site.Step (.value .array (.ofText document)) site

/-- The bytes that are written for a value of that shape and text. -/
def Shape.enclose : Shape → Bytes → Bytes
  | string, text => Ascii.quote :: text ++ [Ascii.quote]
  | _, text => text

namespace Bytes

variable {document text part before after : Bytes} {offset place : Nat}

theorem IsText.append (hbefore : IsText before) (hafter : IsText after) :
    IsText (before ++ after) := by
  obtain ⟨chars, rfl⟩ := isText_iff.mp hbefore
  obtain ⟨others, rfl⟩ := isText_iff.mp hafter
  exact isText_iff.mpr ⟨chars ++ others, List.flatMap_append.symm⟩

namespace IsSlice

theorem refl (h : document.IsText) : document.IsSlice document 0 :=
  ⟨[], [], by simp, rfl, isText_nil, h, isText_nil⟩

theorem trans (h : document.IsSlice text offset) (hpart : text.IsSlice part place) :
    document.IsSlice part (offset + place) := by
  obtain ⟨outer, behind, rfl, rfl, houter, -, hbehind⟩ := h
  obtain ⟨before, after, rfl, rfl, hbefore, htext, hafter⟩ := hpart
  refine ⟨outer ++ before, after ++ behind, ?_, List.length_append, houter.append hbefore, htext,
    hafter.append hbehind⟩
  simp only [List.append_assoc]

theorem drop_front (h : document.IsSlice (before ++ after) offset)
    (hstarts : startsChar after = true) : document.IsSlice after (offset + before.length) := by
  have htext := h
  obtain ⟨-, -, -, -, -, htext, -⟩ := htext
  obtain ⟨hfront, hback⟩ := htext.of_append hstarts
  exact h.trans ⟨before, [], by rw [List.append_nil], rfl, hfront, hback, isText_nil⟩

theorem of_startsChar (h : IsText (before ++ (part ++ after)))
    (hpart : startsChar (part ++ after) = true) (hafter : startsChar after = true) :
    IsSlice (before ++ (part ++ after)) part before.length := by
  obtain ⟨hfront, hback⟩ := h.of_append hpart
  obtain ⟨htext, hrest⟩ := hback.of_append hafter
  exact ⟨before, after, rfl, rfl, hfront, htext, hrest⟩

theorem of_append (h : IsText (part ++ after)) (hafter : startsChar after = true) :
    IsSlice (part ++ after) part 0 := by
  obtain ⟨htext, hrest⟩ := h.of_append hafter
  exact ⟨[], after, rfl, rfl, isText_nil, htext, hrest⟩

theorem take_drop (h : document.IsSlice text offset) :
    (document.drop offset).take text.length = text := by
  obtain ⟨before, after, rfl, rfl, -, -, -⟩ := h
  rw [List.drop_left, List.take_left]

theorem add_length_le (h : document.IsSlice text offset) :
    offset + text.length ≤ document.length := by
  obtain ⟨before, after, rfl, rfl, -, -, -⟩ := h
  simp only [List.length_append]
  omega

theorem isText (h : document.IsSlice text offset) : text.IsText := by
  obtain ⟨before, after, -, -, -, htext, -⟩ := h
  exact htext

/-- Both ends of a slice fall between two characters. -/
theorem isText_around (h : document.IsSlice text offset) :
    IsText (document.take offset) ∧ IsText (document.drop (offset + text.length)) := by
  obtain ⟨before, after, rfl, rfl, hbefore, -, hafter⟩ := h
  constructor
  · rw [List.take_left]
    exact hbefore
  · rw [← List.drop_drop, List.drop_left, List.drop_left]
    exact hafter

end IsSlice

end Bytes

theorem IsFound.isSlice {raw rest text : Bytes} {shape : Shape} (h : IsFound raw rest shape text)
    (htext : (raw ++ rest).IsText) : (raw ++ rest).IsSlice text (openingLength shape) := by
  have haligned := htext.isAligned
  have hrest := (h.aligned haligned).starts
  cases h with
  | string =>
    rw [List.cons_append, List.cons_append, List.append_assoc, ← List.singleton_append] at htext ⊢
    have hcontent := haligned
    rw [List.cons_append, List.cons_append, List.append_assoc] at hcontent
    exact .of_startsChar htext ((Bytes.isAligned_cons_of_isAscii rfl).mp hcontent).starts rfl
  | bracketed container =>
    have hslice := Bytes.IsSlice.of_append htext hrest
    cases container with
    | object => exact hslice
    | array => exact hslice
  | literal _ hblanks hseparator =>
    rw [List.append_assoc] at htext ⊢
    exact .of_append htext (startsChar_of_startsSeparator hblanks hseparator)

/-- What is passed for a value is its text as it is written, and blanks behind a literal. -/
theorem IsFound.exists_enclose {raw rest text : Bytes} {shape : Shape}
    (h : IsFound raw rest shape text) : ∃ after, raw = shape.enclose text ++ after ∧
      IsBlankText after ∧ (shape ≠ .literal → after = []) := by
  cases h with
  | string => exact ⟨[], by simp [Shape.enclose], isBlankText_nil, fun _ => rfl⟩
  | bracketed container =>
    refine ⟨[], ?_, isBlankText_nil, fun _ => rfl⟩
    cases container <;> simp [Shape.enclose, Container.shape]
  | literal _ hblanks => exact ⟨_, rfl, hblanks, fun hne => absurd rfl hne⟩

namespace Scan

variable {document : Bytes} {start stop : Cursor} {span : Span}

theorem Gives.value_of_string (h : Gives string start.skipBlanks span stop)
    (hquote : start.skipBlanks.peek? = some Ascii.quote) : Gives value start span stop :=
  gives_value_iff.mpr (.string hquote h)

theorem isSlice_of_passes {raw : Bytes} (h : document.IsSlice start.ahead start.offset)
    (hpasses : start.Passes raw stop) (haligned : stop.ahead.IsAligned) :
    document.IsSlice stop.ahead stop.offset := by
  rw [hpasses.ahead] at h
  rw [hpasses.offset]
  exact h.drop_front haligned.starts

theorem Gives.isSlice_value (h : Gives value start span stop)
    (hstart : document.IsSlice start.ahead start.offset) :
    document.IsSlice span.text span.offset ∧ document.IsSlice stop.ahead stop.offset := by
  have haligned := hstart.isText.isAligned
  obtain ⟨blanks, raw, hpasses, hblanks, hfound, hoffset⟩ := h.exists_isFound haligned
  rw [hpasses.ahead, List.append_assoc] at haligned
  have hmiddle := haligned.after_blanks hblanks
  constructor
  · rw [hoffset]
    have hvalue := hstart
    rw [hpasses.ahead, List.append_assoc] at hvalue
    have hslice := hvalue.drop_front hmiddle.starts
    exact hslice.trans (hfound.isSlice hslice.isText)
  · exact isSlice_of_passes hstart hpasses (hfound.aligned hmiddle)

theorem Gives.isSlice_name (h : Gives name start span stop)
    (hstart : document.IsSlice start.ahead start.offset) :
    document.IsSlice stop.ahead stop.offset := by
  obtain ⟨raw, hpasses, hname⟩ := h.exists_name hstart.isText.isAligned
  refine isSlice_of_passes hstart hpasses (hname.aligned ?_)
  rw [← hpasses.ahead]
  exact hstart.isText.isAligned

theorem Gives.isSlice_separator {atEnd : StructureFault} {byte : UInt8}
    (h : Gives (separator atEnd) start byte stop)
    (hstart : document.IsSlice start.ahead start.offset) :
    document.IsSlice stop.ahead stop.offset := by
  obtain ⟨before, after, hpasses, -⟩ := h.exists_separator
  exact isSlice_of_passes hstart hpasses (h.aligned_of_separator hstart.isText.isAligned)

end Scan

theorem IsMembersText.exists_front {offset : Nat} {raw rest : Bytes} {met : List (Bytes × Span)}
    (h : IsMembersText offset raw rest met) : ∃ front, raw = front ++ [Ascii.closeBrace] := by
  induction h with
  | last => exact ⟨_, rfl⟩
  | @cons _ raw _ _ _ _ _ _ ih =>
    obtain ⟨front, rfl⟩ := ih
    exact ⟨raw ++ Ascii.comma :: front, by simp⟩

theorem IsObjectText.exists_front {offset : Nat} {raw rest : Bytes} {met : List (Bytes × Span)}
    (h : IsObjectText offset raw rest met) : ∃ front, raw = front ++ [Ascii.closeBrace] := by
  cases h with
  | @empty before inside => exact ⟨before ++ Ascii.openBrace :: inside, by simp⟩
  | @full before _ _ _ _ hmembers =>
    obtain ⟨front, rfl⟩ := hmembers.exists_front
    exact ⟨before ++ Ascii.openBrace :: front, by simp⟩

theorem Scan.Gives.isSlice_objectMembers {document : Bytes} {start stop : Cursor}
    {className : String} {met : List (Bytes × Span)}
    (h : Gives (objectMembers className) start met stop)
    (hstart : document.IsSlice start.ahead start.offset) :
    document.IsSlice stop.ahead stop.offset := by
  have haligned := hstart.isText.isAligned
  obtain ⟨raw, after, hpasses, hobject, hafter, -⟩ := h.exists_isObjectText haligned
  obtain ⟨front, rfl⟩ := hobject.exists_front
  rw [hpasses.ahead, List.append_assoc, List.append_assoc, List.singleton_append] at haligned
  exact isSlice_of_passes hstart hpasses ((haligned.after rfl).after_blanks hafter)

namespace Site

variable {document : Bytes} {site site' : Site}

@[simp]
theorem cursor_entrySite (container : Container) (cursor : Cursor) :
    (container.entrySite cursor).cursor = cursor := by
  cases container <;> rfl

theorem Step.isSlice (h : site.Step site')
    (hsite : document.IsSlice site.cursor.ahead site.cursor.offset) :
    document.IsSlice site'.cursor.ahead site'.cursor.offset := by
  cases h with
  | enter hopen =>
    obtain ⟨before, blanks, hpasses, -, -, haligned⟩ :=
      Cursor.exists_passes_opening hopen hsite.isText.isAligned
    rw [cursor_entrySite]
    exact Scan.isSlice_of_passes hsite hpasses haligned
  | named hname => exact hname.isSlice_name hsite
  | next hvalue hseparator =>
    rw [cursor_entrySite]
    exact hseparator.isSlice_separator (hvalue.isSlice_value hsite).2
  | past hmet => exact hmet.isSlice_objectMembers hsite
  | opened hvalue => exact (hvalue.isSlice_value hsite).1

theorem isSlice_of_steps (h : Relation.ReflTransGen Step site site')
    (hsite : document.IsSlice site.cursor.ahead site.cursor.offset) :
    document.IsSlice site'.cursor.ahead site'.cursor.offset := by
  induction h with
  | refl => exact hsite
  | tail _ hstep ih => exact hstep.isSlice ih

theorem Cuts.gives_value {span : Span} {stop : Cursor} (h : site.Cuts span stop) :
    Scan.Gives Scan.value site.cursor span stop := by
  cases h with
  | name hquote hstring => exact hstring.value_of_string hquote
  | value hvalue => exact hvalue

end Site

namespace Bytes.Visits

variable {document : Bytes} {site site' : Site}

theorem step (h : document.Visits site) (hstep : site.Step site') : document.Visits site' :=
  h.imp (·.tail hstep) (·.tail hstep)

theorem isSlice (h : document.Visits site) (htext : document.IsText) :
    document.IsSlice site.cursor.ahead site.cursor.offset := by
  have hroot : document.IsSlice (Cursor.ofText document).ahead (Cursor.ofText document).offset :=
    .refl htext
  rcases h with hsteps | hsteps
  · exact Site.isSlice_of_steps hsteps hroot
  · exact Site.isSlice_of_steps hsteps hroot

end Bytes.Visits

/-- The text is the name at a site that a decoding can come to. -/
def Bytes.CutsName (document text : Bytes) : Prop :=
  ∃ start span stop, document.Visits (.name start) ∧ (Site.name start).Cuts span stop ∧
    span.text = text

/-- The span is the value at a site that a decoding can come to. -/
def Bytes.CutsValue (document : Bytes) (span : Span) : Prop :=
  ∃ container start stop, document.Visits (.value container start) ∧
    (Site.value container start).Cuts span stop

theorem Bytes.CutsValue.visits {document : Bytes} {span : Span} (h : document.CutsValue span) :
    document.Visits (.container (.ofSpan span)) := by
  obtain ⟨container, start, stop, hvisits, hcuts⟩ := h
  exact hvisits.step (.opened hcuts.gives_value)

namespace Scan

variable {document : Bytes} {start stop : Cursor} {span : Span}

theorem cuts_of_entries {atEnd : StructureFault} {steps : Nat} {met : List (Bytes × Span)}
    {entry : Bytes × Span} (hvisits : document.Visits (.name start))
    (h : Gives (entries .object atEnd memberEntry steps) start met stop) (hentry : entry ∈ met) :
    document.CutsName entry.1 ∧ document.CutsValue entry.2 := by
  induction steps generalizing start met with
  | zero => exact absurd h not_gives_fail
  | succ steps ih =>
    simp only [entries, memberEntry, gives_bind, gives_pure] at h
    obtain ⟨_, _, ⟨found, _, hname, span, _, hvalue, rfl, rfl⟩, isLast, _, hend, hrest⟩ := h
    -- Behind the name stands the site of its value, behind a comma that of the next name.
    have hsite := hvisits.step (.named hname)
    obtain ⟨hquote, quoted, hstring, -, -⟩ := hname.exists_quoted
    have hcuts : document.CutsName found.text ∧ document.CutsValue span :=
      ⟨⟨start, found, quoted, hvisits, .name hquote hstring, rfl⟩,
        .object, _, _, hsite, .value hvalue⟩
    cases isLast with
    | true =>
      obtain ⟨rfl, -⟩ := gives_pure.mp hrest
      rw [List.mem_singleton.mp hentry]
      exact hcuts
    | false =>
      obtain ⟨more, last, hmore, hpure⟩ := gives_bind.mp hrest
      obtain ⟨rfl, rfl⟩ := gives_pure.mp hpure
      rcases List.mem_cons.mp hentry with rfl | hentry
      · exact hcuts
      · exact ih (hsite.step (.next hvalue hend.separator_of_entryEnd)) hmore hentry

theorem cuts_of_objectMembers {className : String} {met : List (Bytes × Span)}
    {entry : Bytes × Span} (hvisits : document.Visits (.container start))
    (h : Gives (objectMembers className) start met stop) (hentry : entry ∈ met) :
    document.CutsName entry.1 ∧ document.CutsValue entry.2 := by
  obtain ⟨hopen, ⟨-, rfl, -⟩ | hentries⟩ := h.objectMembers_cases
  · cases hentry
  · have hinside := hvisits.step (.enter (show _ = some Container.object.opening from hopen))
    exact cuts_of_entries hinside hentries hentry

theorem cutsValue_of_memberTexts {table : MemberTable} {className : String}
    {given : List (Option Span)} (hvisits : document.Visits (.container start))
    (h : Gives (memberTexts table className) start given stop) (hspan : some span ∈ given) :
    document.CutsValue span := by
  rw [memberTexts_eq, gives_map] at h
  obtain ⟨met, hmet, rfl⟩ := h
  rw [foldl_keep_eq] at hspan
  obtain ⟨entry, hentry, rfl⟩ := exists_mem_of_mem_keptSpans hspan
  exact (cuts_of_objectMembers hvisits hmet hentry).2

theorem cutsValue_of_elements {steps : Nat} (hvisits : document.Visits (.value .array start))
    (h : span ∈ ((elements steps).run start).1.1) : document.CutsValue span := by
  induction steps generalizing start with
  | zero => cases h
  | succ steps ih =>
    have hcut {found : Span} {isLast : Bool} {middle : Cursor}
        (helement : Gives element start (found, isLast) middle) : document.CutsValue found ∧
          (isLast = false → document.Visits (.value .array middle)) := by
      simp only [element_eq, gives_bind, gives_pure] at helement
      obtain ⟨_, _, hvalue, _, _, hend, heq, rfl⟩ := helement
      obtain ⟨rfl, rfl⟩ := Prod.mk.inj heq
      refine ⟨⟨.array, _, _, hvisits, .value hvalue⟩, ?_⟩
      rintro rfl
      exact hvisits.step (.next hvalue hend.separator_of_entryEnd)
    rw [run_elements_succ] at h
    rcases houtcome : outcome element start with ⟨_ | ⟨found, _ | _⟩, middle⟩
    · rw [houtcome] at h
      cases h
    · rw [houtcome] at h
      obtain ⟨hfound, hmiddle⟩ := hcut houtcome
      rcases List.mem_cons.mp h with rfl | h
      · exact hfound
      · exact ih (hmiddle rfl) h
    · rw [houtcome] at h
      rw [List.mem_singleton.mp h]
      exact (hcut houtcome).1

/-- The elements of a visited array are cut there, also when the walk over it breaks off. -/
theorem cutsValue_of_arrayElements (hvisits : document.Visits (.container start))
    (h : span ∈ (arrayElements.run start).1.1) : document.CutsValue span := by
  rw [run_arrayElements] at h
  rcases houtcome : outcome arrayStart start with ⟨_ | _ | _, middle⟩
  · rw [houtcome] at h
    cases h
  · rw [houtcome] at h
    have hstart : Gives arrayStart start false middle := houtcome
    obtain ⟨hopen, rfl, -⟩ := hstart.opening_of_arrayStart
    exact cutsValue_of_elements (hvisits.step (.enter hopen)) h
  · rw [houtcome] at h
    cases h

theorem cutsValue_of_documentArray {allowTrailing : Bool}
    (h : Gives (documentArray allowTrailing) (.ofText document) span stop) :
    document.CutsValue span := by
  obtain ⟨-, middle, hvalue, -⟩ := h.value_of_documentArray
  exact ⟨.array, _, middle, .inr .refl, .value (gives_value_skipBlanks.mp hvalue)⟩

end Scan

/-- The values that are cut, as what a decoding keeps. -/
def cutting (document : Bytes) : Invariant where
  fine _ := True
  met _ span _ := document.CutsValue span
  opened _ span _ := document.CutsValue span
  plain _ := trivial
  invalid _ _ _ := trivial
  deeper h _ := h
  tooDeep _ _ := trivial
  zero _ := trivial
  elements h _ hitem := Scan.cutsValue_of_arrayElements h.visits hitem
  fault _ _ _ := trivial
  members _ _ h hgiven hvalue := Scan.cutsValue_of_memberTexts h.visits (Prod.ext hgiven rfl) hvalue
  noMembers _ _ _ _ := trivial

/-- Reading an object depends on what classes are read from at the values that are cut, and on
nothing else: no other span is asked for at any depth. -/
theorem readObject_congr {document : Bytes} {classes classes' : ClassReader} {start : Cursor}
    (hvisits : document.Visits (.container start)) (hblank : classes'.blank = classes.blank)
    (hread : ∀ typeName span context, document.CutsValue span →
      classes'.read typeName span context = classes.read typeName span context)
    (schema : Schema) (context : Context) :
    (Scan.outcome (schema.readObject classes' context) start).1
      = (Scan.outcome (schema.readObject classes context) start).1 := by
  -- One reading is compared with the other, which asks the classes only at what `cutting` keeps.
  have hclasses : (cutting document).comparison.Reads 0 classes classes' := by
    refine ⟨fun typeName {_ _ _ _} hopened => ?_, hblank⟩
    obtain ⟨rfl, rfl, hcut⟩ := hopened
    rw [hread typeName _ _ hcut]
    exact .self (fun _ _ => rfl) fun _ _ => ⟨rfl, trivial⟩
  have hwalk : InStep (cutting document).comparison.stops (cutting document).comparison.alike
      ((cutting document).comparison.Given 0 context context)
      (Scan.outcome (Scan.memberTexts schema.table schema.className) start).1
      (Scan.outcome (Scan.memberTexts schema.table schema.className) start).1 := by
    refine .self (fun given hgiven => List.forall₂_same.mpr fun value hvalue => ?_)
      fun _ _ => ⟨rfl, trivial⟩
    cases value with
    | none => exact .none
    | some span =>
      have hcut := Scan.cutsValue_of_memberTexts hvisits (Prod.ext hgiven rfl) hvalue
      exact .some ⟨rfl, rfl, hcut⟩
  have hobject := Comparison.readObject_in_step hclasses schema hwalk
  generalize (Scan.outcome (schema.readObject classes context) start).1 = first,
    (Scan.outcome (schema.readObject classes' context) start).1 = second at hobject ⊢
  cases hobject with
  | ok hvalue => rw [hvalue]
  | error halike => rw [halike.1]
  | stopped hstops => exact hstops.elim

/-- At every site a decoding can come to, the name or value that is cut stands in the document from
its offset on, both ends of it between two characters, and the cursor passes blanks, the text as it
is written and, behind a literal, blanks. The names that are met, the values given for members, the
elements of arrays, the values that classes are read from, and the array that a document is, are all
cut at such sites. -/
theorem cut_spans_are_slices (document : String) :
    (∀ site span stop, (Bytes.ofString document).Visits site → site.Cuts span stop →
      (((Bytes.ofString document).drop span.offset).take span.text.length = span.text ∧
        span.offset + span.text.length ≤ (Bytes.ofString document).length ∧
        span.text.IsText ∧ Bytes.IsText ((Bytes.ofString document).take span.offset) ∧
        Bytes.IsText ((Bytes.ofString document).drop (span.offset + span.text.length))) ∧
      ∃ before after,
        site.cursor.Passes (before ++ (span.shape.enclose span.text ++ after)) stop ∧
        IsBlankText before ∧ IsBlankText after ∧ (span.shape ≠ .literal → after = [])) ∧
    (∀ start, (Bytes.ofString document).Visits (.container start) →
      (∀ className met stop, Scan.Gives (Scan.objectMembers className) start met stop →
        ∀ entry ∈ met, (Bytes.ofString document).CutsName entry.1 ∧
          (Bytes.ofString document).CutsValue entry.2) ∧
      (∀ table className given stop span,
        Scan.Gives (Scan.memberTexts table className) start given stop → some span ∈ given →
        (Bytes.ofString document).CutsValue span) ∧
      (∀ span ∈ (Scan.arrayElements.run start).1.1, (Bytes.ofString document).CutsValue span) ∧
      ∀ (schema : Schema) context classes classes', classes'.blank = classes.blank →
        (∀ typeName span inner, (Bytes.ofString document).CutsValue span →
          classes'.read typeName span inner = classes.read typeName span inner) →
        (Scan.outcome (schema.readObject classes' context) start).1
          = (Scan.outcome (schema.readObject classes context) start).1) ∧
    ∀ allowTrailing span stop, Scan.Gives (Scan.documentArray allowTrailing)
      (.ofText (Bytes.ofString document)) span stop →
      (Bytes.ofString document).CutsValue span := by
  have htext : (Bytes.ofString document).IsText := ⟨document, rfl⟩
  refine ⟨fun site span stop hvisits hcuts => ?_, fun start hvisits => ⟨?_, ?_, ?_, ?_⟩,
    fun _ _ _ => Scan.cutsValue_of_documentArray⟩
  · have hahead := hvisits.isSlice htext
    have hvalue := hcuts.gives_value
    obtain ⟨hslice, -⟩ := hvalue.isSlice_value hahead
    obtain ⟨before, raw, hpasses, hbefore, hfound, -⟩ :=
      hvalue.exists_isFound hahead.isText.isAligned
    obtain ⟨after, rfl, hafter, hnone⟩ := hfound.exists_enclose
    exact ⟨⟨hslice.take_drop, hslice.add_length_le, hslice.isText, hslice.isText_around⟩,
      before, after, hpasses, hbefore, hafter, hnone⟩
  · exact fun _ _ _ hmet _ hentry => Scan.cuts_of_objectMembers hvisits hmet hentry
  · exact fun _ _ _ _ _ hgiven hspan => Scan.cutsValue_of_memberTexts hvisits hgiven hspan
  · exact fun _ hspan => Scan.cutsValue_of_arrayElements hvisits hspan
  · exact fun schema context _ _ hblank hread =>
      readObject_congr hvisits hblank hread schema context

/-- A name two containers down, behind characters of two bytes and an escaped one. -/
theorem nested_name_is_slice : ∃ site stop,
    (Bytes.ofString "\x7b\"é\":[ \x7b\"a\\é\" : 1 \x7d]\x7d").Visits site ∧
    site.Cuts ⟨Bytes.ofString "a\\é", 10, .string⟩ stop ∧
    ((Bytes.ofString "\x7b\"é\":[ \x7b\"a\\é\" : 1 \x7d]\x7d").drop 10).take 4
      = Bytes.ofString "a\\é" := by
  have hroot : (Bytes.ofString "\x7b\"é\":[ \x7b\"a\\é\" : 1 \x7d]\x7d").Visits (.container (.ofText
      (Bytes.ofString "\x7b\"é\":[ \x7b\"a\\é\" : 1 \x7d]\x7d"))) := .inl .refl
  have hname := hroot.step (@Site.Step.enter .object _ rfl)
  have hvalue := hname.step (.named (show Scan.Gives Scan.name _
    ⟨Bytes.ofString "é", 2, .string⟩ _ from rfl))
  have harray := hvalue.step (.opened (show Scan.Gives Scan.value _
    ⟨Bytes.ofString "[ \x7b\"a\\é\" : 1 \x7d]", 6, .array⟩ _ from rfl))
  have helement := harray.step (@Site.Step.enter .array _ rfl)
  have hobject := helement.step (.opened (show Scan.Gives Scan.value _
    ⟨Bytes.ofString "\x7b\"a\\é\" : 1 \x7d", 8, .object⟩ _ from rfl))
  have hinner := hobject.step (@Site.Step.enter .object _ rfl)
  refine ⟨_, _, hinner, .name rfl rfl, ?_⟩
  obtain ⟨⟨hslice, -⟩, -⟩ := (cut_spans_are_slices _).1 _ ⟨Bytes.ofString "a\\é", 10, .string⟩ _
    hinner (.name rfl rfl)
  exact hslice

end SchemaJson
