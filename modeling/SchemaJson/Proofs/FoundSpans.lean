import SchemaJson.Proofs.NestedSpans
import SchemaJson.Proofs.ObjectGrammar
import SchemaJson.Proofs.PairedDecoding

/-! Where the spans stand that a container is cut into. Each is a value of the container, behind its
first byte and in front of its last one, and its offset says where. -/

namespace SchemaJson

/-- The span is a value that is found in a text which starts at the offset. -/
def Span.FoundIn (span : Span) (text : Bytes) (offset : Nat) : Prop :=
  ∃ before value rest, text = before ++ (value ++ rest) ∧ rest ≠ [] ∧
    IsFound value rest span.shape span.text ∧
    span.offset = offset + before.length + openingLength span.shape

/-- The span is a value inside a container. -/
def Span.IsPartOf (span container : Span) : Prop :=
  ∃ first tail, container.text = first :: tail ∧ span.FoundIn tail (container.offset + 1)

/-- What is kept of a value stands in it where the opening quote ends. -/
theorem IsFound.exists_text {raw rest text : Bytes} {shape : Shape}
    (h : IsFound raw rest shape text) :
    ∃ front back, raw = front ++ (text ++ back) ∧ front.length = openingLength shape := by
  cases h with
  | string => exact ⟨[Ascii.quote], [Ascii.quote], rfl, rfl⟩
  | bracketed container => exact ⟨[], [], by simp, by cases container <;> rfl⟩
  | literal => exact ⟨[], _, rfl, rfl⟩

theorem IsFound.head?_of_array {raw rest text : Bytes} (h : IsFound raw rest .array text) :
    text.head? = some Ascii.openBracket := by
  generalize hshape : Shape.array = shape at h
  cases h with
  | bracketed container =>
    cases container with
    | array => rfl
    | object => cases hshape
  | _ => cases hshape

theorem IsFound.shape_eq_array {raw rest text : Bytes} {shape : Shape}
    (h : IsFound raw rest shape text) (hhead : raw.head? = some Ascii.openBracket) :
    shape = .array := by
  cases h with
  | string => cases hhead
  | bracketed container =>
    cases container with
    | array => rfl
    | object => cases hhead
  | literal htext =>
    obtain ⟨byte, hbyte, -, hbracket, -⟩ := htext.head
    rw [List.head?_append, Option.mem_def.mp hbyte] at hhead
    exact absurd (Option.some.inj hhead) hbracket

namespace Span

variable {span container : Span} {text : Bytes} {offset : Nat}

theorem FoundIn.append_left (front : Bytes) (h : span.FoundIn text (offset + front.length)) :
    span.FoundIn (front ++ text) offset := by
  obtain ⟨before, value, rest, rfl, hrest, hfound, hoffset⟩ := h
  refine ⟨front ++ before, value, rest, (List.append_assoc _ _ _).symm, hrest, hfound, ?_⟩
  rw [hoffset, List.length_append, Nat.add_assoc offset]

theorem FoundIn.isPartOf {front : Bytes} (h : span.FoundIn text (container.offset + front.length))
    (hfront : front ≠ []) (htext : container.text = front ++ text) : span.IsPartOf container := by
  obtain ⟨first, front, rfl⟩ := List.exists_cons_of_ne_nil hfront
  refine ⟨first, front ++ text, htext, FoundIn.append_left front ?_⟩
  rwa [Nat.add_assoc, Nat.add_comm 1]

/-- The text of a part, with what stands around it. -/
theorem IsPartOf.exists_text (h : span.IsPartOf container) :
    ∃ before after, container.text = before ++ (span.text ++ after) ∧ before ≠ [] ∧ after ≠ [] ∧
      span.offset = container.offset + before.length := by
  obtain ⟨first, _, htext, before, value, rest, rfl, hrest, hfound, hoffset⟩ := h
  obtain ⟨front, back, rfl, hfront⟩ := hfound.exists_text
  refine ⟨first :: (before ++ front), back ++ rest, ?_, by simp, by simp [hrest], ?_⟩
  · simp [htext]
  · rw [hoffset, ← hfront, List.length_cons, List.length_append]
    omega

theorem IsPartOf.length_lt (h : span.IsPartOf container) :
    span.text.length + 2 ≤ container.text.length := by
  obtain ⟨before, after, htext, hbefore, hafter, -⟩ := h.exists_text
  have hfirst := List.length_pos_of_ne_nil hbefore
  have hlast := List.length_pos_of_ne_nil hafter
  rw [htext, List.length_append, List.length_append]
  omega

end Span

section Members

variable {offset : Nat} {raw rest : Bytes} {met : List (Bytes × Span)} {entry : Bytes × Span}

theorem IsMemberText.foundIn (h : IsMemberText offset raw rest entry) (hrest : rest ≠ []) :
    entry.2.FoundIn (raw ++ rest) offset := by
  obtain @⟨name, front, value, blanks, _, text, shape, -, hfound, -⟩ := h
  exact ⟨front, value, blanks ++ rest, by simp, by simp [hrest], hfound, rfl⟩

theorem IsMembersText.foundIn (h : IsMembersText offset raw rest met) (hentry : entry ∈ met) :
    entry.2.FoundIn (raw ++ rest) offset := by
  induction h with
  | last hmember =>
    rw [List.mem_singleton.mp hentry, List.append_assoc]
    exact hmember.foundIn (List.cons_ne_nil _ _)
  | @cons offset front more _ member _ hmember _ ih =>
    rw [List.append_assoc, List.cons_append]
    rcases List.mem_cons.mp hentry with rfl | hentry
    · exact hmember.foundIn (List.cons_ne_nil _ _)
    · -- Further members are found behind the comma, from the offset they have there.
      rw [List.append_cons]
      refine Span.FoundIn.append_left (front ++ [Ascii.comma]) ?_
      rw [List.length_append, List.length_singleton, ← Nat.add_assoc]
      exact ih hentry

theorem IsObjectText.isPartOf {container : Span} (h : IsObjectText container.offset raw rest met)
    (htext : container.text = raw ++ rest) (hentry : entry ∈ met) : entry.2.IsPartOf container := by
  cases h with
  | empty => cases hentry
  | @full before body _ _ _ hmembers =>
    have hfound := hmembers.foundIn hentry
    refine Span.FoundIn.isPartOf (show entry.2.FoundIn (body ++ rest)
      (container.offset + (before ++ [Ascii.openBrace]).length) from ?_) (by simp) (by simp [htext])
    rwa [List.length_append, List.length_singleton, ← Nat.add_assoc]

end Members

theorem exists_mem_of_mem_keptSpans {met : List (Bytes × Span)} {used : List Bytes}
    {members : List Member} {span : Span} (h : some span ∈ keptSpans met used members) :
    ∃ entry ∈ met, entry.2 = span := by
  induction members generalizing used with
  | nil => cases h
  | cons member members ih =>
    rcases List.mem_cons.mp h with hhead | htail
    · rw [keptSpan] at hhead
      split at hhead
      · cases hhead
      · obtain ⟨front, back, hmet, -⟩ := List.lookup_eq_some_iff.mp hhead.symm
        refine ⟨(member.name, span), List.mem_reverse.mp ?_, rfl⟩
        simp [hmet]
    · exact ih htail

/-- The values that are given for members are parts of the object. -/
theorem Scan.Gives.isPartOf_of_memberTexts {table : MemberTable} {className : String}
    {start stop : Cursor} {given : List (Option Span)} {span : Span}
    (h : Gives (memberTexts table className) start given stop) (haligned : start.ahead.IsAligned)
    (hspan : some span ∈ given) : span.IsPartOf ⟨start.ahead, start.offset, .object⟩ := by
  rw [memberTexts_eq, gives_map] at h
  obtain ⟨met, hmet, rfl⟩ := h
  obtain ⟨raw, after, hpasses, htext, -, -⟩ := hmet.exists_isObjectText haligned
  rw [foldl_keep_eq] at hspan
  obtain ⟨entry, hentry, rfl⟩ := exists_mem_of_mem_keptSpans hspan
  have hobject : IsObjectText (Span.mk start.ahead start.offset .object).offset raw _ met := htext
  refine hobject.isPartOf ?_ hentry
  rw [← List.append_assoc]
  exact hpasses.ahead

theorem Scan.isPartOf_of_memberTexts {table : MemberTable} {className : String} {container : Span}
    {given : List (Option Span)} {span : Span} (haligned : container.text.IsAligned)
    (h : (outcome (memberTexts table className) (.ofSpan container)).1 = .ok given)
    (hspan : some span ∈ given) : span.IsPartOf container := by
  have hgives : Gives (memberTexts table className) (.ofSpan container) given _ := Prod.ext h rfl
  exact hgives.isPartOf_of_memberTexts haligned hspan

namespace Scan

variable {start stop : Cursor} {span : Span} {isLast : Bool}

/-- An element is passed with the blanks around it and the separator behind it. -/
theorem Gives.exists_entry (h : Gives element start (span, isLast) stop)
    (haligned : start.ahead.IsAligned) :
    ∃ lead raw blanks more, IsBlankText lead ∧ IsBlankText blanks ∧ IsBlankText more ∧
      start.Passes (lead ++ (raw ++ (blanks ++ Container.array.mark isLast :: more))) stop ∧
      IsFound raw (blanks ++ Container.array.mark isLast :: (more ++ stop.ahead)) span.shape
        span.text ∧
      span.offset = start.offset + lead.length + openingLength span.shape ∧
      stop.ahead.IsAligned := by
  simp only [element_eq, gives_bind, gives_pure] at h
  obtain ⟨_, middle, hvalue, _, _, hend, heq, rfl⟩ := h
  obtain ⟨rfl, rfl⟩ := Prod.mk.inj heq
  obtain ⟨lead, raw, hpasses, hlead, hfound, hoffset⟩ := hvalue.exists_isFound haligned
  obtain ⟨blanks, more, hmark, hblanks, hmore, -⟩ := hend.exists_entryEnd
  have hmiddle := (hvalue.aligned_around_value haligned).2
  refine ⟨lead, raw, blanks, more, hlead, hblanks, hmore, ?_, ?_, hoffset, ?_⟩
  · simpa only [List.append_assoc] using hpasses.trans hmark
  · simpa only [hmark.ahead, List.append_assoc, List.cons_append] using hfound
  · exact hend.aligned_of_entryEnd hmiddle

theorem Gives.exists_element (h : Gives element start (span, isLast) stop)
    (haligned : start.ahead.IsAligned) :
    ∃ raw, start.Passes raw stop ∧ stop.ahead.IsAligned ∧
      span.FoundIn start.ahead start.offset := by
  obtain ⟨lead, raw, blanks, more, -, -, -, hpasses, hfound, hoffset, hstop⟩ :=
    h.exists_entry haligned
  refine ⟨_, hpasses, hstop, lead, raw, _, ?_, by simp, hfound, hoffset⟩
  simp [hpasses.ahead]

theorem Gives.aligned_of_element (h : Gives element start (span, isLast) stop)
    (haligned : start.ahead.IsAligned) : stop.ahead.IsAligned := by
  obtain ⟨_, _, hstop, _⟩ := h.exists_element haligned
  exact hstop

theorem foundIn_of_elements {steps : Nat} (haligned : start.ahead.IsAligned)
    (h : span ∈ ((elements steps).run start).1.1) : span.FoundIn start.ahead start.offset := by
  induction steps generalizing start with
  | zero => cases h
  | succ steps ih =>
    rw [run_elements_succ] at h
    rcases houtcome : outcome element start with ⟨_ | ⟨found, _ | _⟩, middle⟩
    · rw [houtcome] at h
      cases h
    · rw [houtcome] at h
      obtain ⟨raw, hpasses, hmiddle, hfound⟩ := Gives.exists_element houtcome haligned
      rcases List.mem_cons.mp h with rfl | h
      · exact hfound
      · rw [hpasses.ahead]
        refine Span.FoundIn.append_left raw ?_
        rw [← hpasses.offset]
        exact ih hmiddle h
    · rw [houtcome] at h
      rw [List.mem_singleton.mp h]
      obtain ⟨_, _, _, hfound⟩ := Gives.exists_element houtcome haligned
      exact hfound

/-- The elements of an array are parts of it, also when the walk over it breaks off. -/
theorem isPartOf_of_arrayElements {container : Span} (haligned : container.text.IsAligned)
    (h : span ∈ (arrayElements.run (.ofSpan container)).1.1) : span.IsPartOf container := by
  rw [run_arrayElements] at h
  rcases houtcome : outcome arrayStart (.ofSpan container) with ⟨_ | _ | _, middle⟩
  · rw [houtcome] at h
    cases h
  · rw [houtcome] at h
    obtain ⟨before, blanks, hpasses, -, -, hmiddle, -⟩ := Gives.arrayStart_passes houtcome haligned
    have hfound := foundIn_of_elements hmiddle h
    rw [hpasses.offset] at hfound
    exact hfound.isPartOf (by simp) hpasses.ahead
  · rw [houtcome] at h
    cases h

/-- The array that a document is, is the value behind its blanks. -/
theorem Gives.value_of_documentArray {allowTrailing : Bool}
    (h : Gives (documentArray allowTrailing) start span stop) :
    start.skipBlanks.peek? = some Ascii.openBracket ∧
      ∃ middle, Gives value start.skipBlanks span middle ∧
        Gives (finish allowTrailing) middle () stop := by
  simp only [documentArray, gives_bind, gives_skipBlanks, gives_get] at h
  obtain ⟨_, _, rfl, _, _, ⟨rfl, rfl⟩, h⟩ := h
  split at h
  · exact absurd h not_gives_fail
  next byte hbyte =>
    split at h
    next hopen =>
      simp only [gives_bind, gives_pure] at h
      obtain ⟨_, middle, hvalue, _, _, hfinish, rfl, rfl⟩ := h
      rw [hopen] at hbyte
      exact ⟨hbyte, middle, hvalue, hfinish⟩
    next => exact absurd h not_gives_fail

/-- It stands in the document behind blanks. -/
theorem Gives.exists_documentArray {allowTrailing : Bool}
    (h : Gives (documentArray allowTrailing) start span stop) (haligned : start.ahead.IsAligned) :
    span.shape = .array ∧ ∃ before value rest, start.ahead = before ++ (value ++ rest) ∧
      IsFound value rest span.shape span.text ∧
      span.offset = start.offset + before.length + openingLength span.shape := by
  obtain ⟨hopen, middle, hvalue, -⟩ := h.value_of_documentArray
  obtain ⟨blanks, hpasses, -, -⟩ := start.exists_passes_skipBlanks
  obtain ⟨tail, htail⟩ := List.head?_eq_some_iff.mp hopen
  obtain ⟨raw, rest, hraw, hfound, hoffset, -⟩ :=
    gives_value_of_peek htail rfl haligned.skipBlanks hvalue
  have hhead : raw.head? = some Ascii.openBracket := by
    obtain ⟨first, back, rfl, -⟩ := hfound.head
    rw [htail] at hraw
    cases hraw
    rfl
  refine ⟨hfound.shape_eq_array hhead, blanks, raw, rest, ?_, hfound, ?_⟩
  · rw [hpasses.ahead, hraw]
  · rw [hoffset, hpasses.offset]

end Scan

end SchemaJson
