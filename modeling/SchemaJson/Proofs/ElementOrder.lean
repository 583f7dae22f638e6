import SchemaJson.Json.ElementWalk
import SchemaJson.Proofs.CapturedValues
import SchemaJson.Proofs.DecodedShapes
import SchemaJson.Proofs.FoundSpans

/-! The elements of an array in the order they are got. Whatever stands between the outer brackets,
the walk ends, a failure is the last that is got, and the texts of the elements follow each other with
one comma between any two. -/

namespace SchemaJson

/-- The quotes on either side of the text of a value, which only a string has. -/
def Shape.quotes : Shape → Bytes
  | .string => [Ascii.quote]
  | _ => []

theorem length_quotes (shape : Shape) : shape.quotes.length = openingLength shape := by
  cases shape <;> rfl

theorem IsFound.exists_blanks {raw rest text : Bytes} {shape : Shape}
    (h : IsFound raw rest shape text) :
    ∃ blanks, IsBlankText blanks ∧ raw = shape.quotes ++ (text ++ (shape.quotes ++ blanks)) := by
  cases h with
  | string => exact ⟨[], isBlankText_nil, by simp [Shape.quotes]⟩
  | bracketed container =>
    refine ⟨[], isBlankText_nil, ?_⟩
    cases container <;> simp [Shape.quotes, Container.shape]
  | @literal _ blanks _ _ hblanks => exact ⟨blanks, hblanks, by simp [Shape.quotes]⟩

namespace Span

variable {item first second : Span} {text front : Bytes} {offset : Nat}

/-- The text of the span stands in a text that starts at the offset, behind blanks. -/
def LeadsIn (text : Bytes) (offset : Nat) (item : Span) : Prop :=
  ∃ blanks rest, IsBlankText blanks ∧ text = blanks ++ (item.shape.quotes ++ (item.text ++ rest)) ∧
    item.offset = offset + blanks.length + item.shape.quotes.length

/-- In a text that starts at the offset, only blanks, the quotes of strings and one comma stand
between the two spans. -/
def FollowedIn (text : Bytes) (offset : Nat) (first second : Span) : Prop :=
  ∃ before blanks more after, IsBlankText blanks ∧ IsBlankText more ∧
    text = before ++ (first.text ++ (first.shape.quotes ++ (blanks ++ Ascii.comma ::
      (more ++ (second.shape.quotes ++ (second.text ++ after)))))) ∧
    first.offset = offset + before.length ∧
    second.offset = first.offset + first.text.length
      + (first.shape.quotes ++ (blanks ++ Ascii.comma :: (more ++ second.shape.quotes))).length

/-- In a text that starts at the offset, a closing bracket comes behind the span, its quotes and
blanks. -/
def EndsIn (text : Bytes) (offset : Nat) (item : Span) : Prop :=
  ∃ before blanks rest, IsBlankText blanks ∧
    text = before ++ (item.text ++ (item.shape.quotes ++ (blanks ++ Ascii.closeBracket :: rest))) ∧
    item.offset = offset + before.length

theorem LeadsIn.append_left (hfront : IsBlankText front)
    (h : item.LeadsIn text (offset + front.length)) : item.LeadsIn (front ++ text) offset := by
  obtain ⟨blanks, rest, hblanks, rfl, hoffset⟩ := h
  refine ⟨front ++ blanks, rest, hfront.append hblanks, by simp, ?_⟩
  simp [hoffset, Nat.add_assoc]

theorem FollowedIn.append_left (front : Bytes)
    (h : FollowedIn text (offset + front.length) first second) :
    FollowedIn (front ++ text) offset first second := by
  obtain ⟨before, blanks, more, after, hblanks, hmore, rfl, hfirst, hsecond⟩ := h
  refine ⟨front ++ before, blanks, more, after, hblanks, hmore, by simp, ?_, hsecond⟩
  simp [hfirst, Nat.add_assoc]

theorem EndsIn.append_left (front : Bytes) (h : item.EndsIn text (offset + front.length)) :
    item.EndsIn (front ++ text) offset := by
  obtain ⟨before, blanks, rest, hblanks, rfl, hoffset⟩ := h
  refine ⟨front ++ before, blanks, rest, hblanks, by simp, ?_⟩
  simp [hoffset, Nat.add_assoc]

theorem FollowedIn.lt (h : FollowedIn text offset first second) :
    first.offset + first.text.length < second.offset := by
  obtain ⟨before, blanks, more, after, -, -, -, -, hsecond⟩ := h
  simp only [List.length_append, List.length_cons] at hsecond
  omega

/-- The span is cut out between the brackets of an array. -/
def IsInside (item container : Span) : Prop :=
  ∃ before after, container.text
      = Ascii.openBracket :: before ++ (item.text ++ (after ++ [Ascii.closeBracket])) ∧
    item.offset = container.offset + 1 + before.length

theorem IsPartOf.isInside {container : Span} {inner : Bytes} (h : item.IsPartOf container)
    (htext : container.text = Ascii.openBracket :: inner ++ [Ascii.closeBracket]) :
    item.IsInside container := by
  obtain ⟨before, after, hsplit, hbefore, hafter, hoffset⟩ := h.exists_text
  obtain ⟨first, before, rfl⟩ := List.exists_cons_of_ne_nil hbefore
  obtain ⟨after, last, rfl⟩ := List.eq_nil_or_concat' after |>.resolve_left hafter
  have hends := htext.symm.trans hsplit
  rw [List.cons_append, List.cons_append, List.cons.injEq] at hends
  have hinner : inner ++ [Ascii.closeBracket] = (before ++ (item.text ++ after)) ++ [last] := by
    simp [hends.2]
  have hlast : Ascii.closeBracket = last := by simpa using (List.append_inj' hinner rfl).2
  refine ⟨before, after, by rw [hsplit, hends.1, hlast], ?_⟩
  rw [hoffset, List.length_cons]
  omega

end Span

/-- What was found in a text that starts at the offset, behind the opening bracket of an array:
elements and, if the search broke off, the failure. Nothing of the text up to the closing bracket is
left out. -/
structure AreInOrder (text : Bytes) (offset : Nat) (found : List Span × Option Error) : Prop where
  leads : ∀ first ∈ found.1.head?, first.LeadsIn text offset
  followed : found.1.IsChain (Span.FollowedIn text offset)
  ends : found.2 = none → ∀ last ∈ found.1.getLast?, last.EndsIn text offset
  empty : found = ([], none) →
    ∃ blanks rest, IsBlankText blanks ∧ text = blanks ++ Ascii.closeBracket :: rest

namespace AreInOrder

variable {text front : Bytes} {offset : Nat} {found : List Span × Option Error}

theorem of_error (text : Bytes) (offset : Nat) (error : Error) :
    AreInOrder text offset ([], some error) :=
  ⟨nofun, .nil, nofun, nofun⟩

theorem append_left (hfront : IsBlankText front)
    (h : AreInOrder text (offset + front.length) found) :
    AreInOrder (front ++ text) offset found where
  leads first hfirst := (h.leads first hfirst).append_left hfront
  followed := h.followed.imp fun _ _ hfollowed => hfollowed.append_left front
  ends hnone last hlast := (h.ends hnone last hlast).append_left front
  empty hfound := by
    obtain ⟨blanks, rest, hblanks, rfl⟩ := h.empty hfound
    exact ⟨front ++ blanks, rest, hfront.append hblanks, by simp⟩

theorem pairwise (h : AreInOrder text offset found) :
    found.1.Pairwise fun first second => first.offset + first.text.length < second.offset := by
  have hlt := h.followed.imp fun _ _ hfollowed => hfollowed.lt
  have htrans : IsTrans Span fun first second => first.offset + first.text.length < second.offset :=
    ⟨fun a b c hab hbc => by omega⟩
  exact List.isChain_iff_pairwise.mp hlt

end AreInOrder

namespace Scan

variable {start stop : Cursor} {span : Span} {isLast : Bool}

theorem Gives.exists_elementText (h : Gives element start (span, isLast) stop)
    (haligned : start.ahead.IsAligned) :
    ∃ lead blanks more, IsBlankText lead ∧ IsBlankText blanks ∧ IsBlankText more ∧
      start.Passes (lead ++ (span.shape.quotes ++ (span.text ++ (span.shape.quotes ++
        (blanks ++ Container.array.mark isLast :: more))))) stop ∧
      span.offset = start.offset + lead.length + span.shape.quotes.length := by
  obtain ⟨lead, raw, before, more, hlead, hbefore, hmore, hpasses, hfound, hoffset, -⟩ :=
    h.exists_entry haligned
  obtain ⟨blanks, hblanks, rfl⟩ := hfound.exists_blanks
  refine ⟨lead, blanks ++ before, more, hlead, hblanks.append hbefore, hmore, ?_, ?_⟩
  · simpa only [List.append_assoc] using hpasses
  · rw [hoffset, length_quotes]

theorem Gives.leadsIn_of_element (h : Gives element start (span, isLast) stop)
    (haligned : start.ahead.IsAligned) : span.LeadsIn start.ahead start.offset := by
  obtain ⟨lead, blanks, more, hlead, -, -, hpasses, hoffset⟩ := h.exists_elementText haligned
  have hahead := hpasses.ahead
  simp only [List.append_assoc] at hahead
  exact ⟨lead, _, hlead, hahead, hoffset⟩

/-- The element that leads behind a comma comes next. -/
theorem Gives.followedIn_of_element {next : Span} (h : Gives element start (span, false) stop)
    (haligned : start.ahead.IsAligned) (hnext : next.LeadsIn stop.ahead stop.offset) :
    Span.FollowedIn start.ahead start.offset span next := by
  obtain ⟨lead, blanks, more, hlead, hblanks, hmore, hpasses, hoffset⟩ :=
    h.exists_elementText haligned
  obtain ⟨between, rest, hbetween, hstop, hplace⟩ := hnext
  refine ⟨lead ++ span.shape.quotes, blanks, more ++ between, rest, hblanks, hmore.append hbetween,
    ?_, ?_, ?_⟩
  · rw [hpasses.ahead, hstop]
    simp [Container.mark]
  · rw [hoffset, List.length_append]
    omega
  · rw [hplace, hpasses.offset, hoffset]
    simp only [List.length_append, List.length_cons]
    omega

theorem Gives.endsIn_of_element (h : Gives element start (span, true) stop)
    (haligned : start.ahead.IsAligned) : span.EndsIn start.ahead start.offset := by
  obtain ⟨lead, blanks, more, -, hblanks, -, hpasses, hoffset⟩ := h.exists_elementText haligned
  refine ⟨lead ++ span.shape.quotes, blanks, more ++ stop.ahead, hblanks, ?_, ?_⟩
  · rw [hpasses.ahead]
    simp [Container.mark, Container.closing]
  · rw [hoffset, List.length_append]
    omega

theorem Gives.length_lt_of_element (h : Gives element start (span, isLast) stop)
    (haligned : start.ahead.IsAligned) : stop.ahead.length < start.ahead.length := by
  obtain ⟨lead, blanks, more, -, -, -, hpasses, -⟩ := h.exists_elementText haligned
  have hlength := congrArg List.length hpasses.ahead
  simp only [List.length_append, List.length_cons] at hlength
  omega

theorem run_elements_nil (steps : Nat) (h : start.ahead = []) :
    (elements steps).run start = (([], some (.structural .unexpectedEnd start.offset)), start) := by
  obtain ⟨text, index, ahead, base, latest⟩ := start
  cases h
  cases steps <;> rfl

/-- Steps beyond the number of bytes ahead make no difference. -/
theorem run_elements_eq_of_le {steps more : Nat} (haligned : start.ahead.IsAligned)
    (hsteps : start.ahead.length ≤ steps) (hmore : start.ahead.length ≤ more) :
    (elements steps).run start = (elements more).run start := by
  induction steps generalizing start more with
  | zero =>
    have hnil : start.ahead = [] := List.eq_nil_of_length_eq_zero (by omega)
    rw [run_elements_nil 0 hnil, run_elements_nil more hnil]
  | succ steps ih =>
    cases more with
    | zero =>
      have hnil : start.ahead = [] := List.eq_nil_of_length_eq_zero (by omega)
      rw [run_elements_nil (steps + 1) hnil, run_elements_nil 0 hnil]
    | succ more =>
      rw [run_elements_succ, run_elements_succ]
      rcases houtcome : outcome element start with ⟨_ | ⟨span, _ | _⟩, middle⟩
      · rfl
      · have hmiddle := Gives.aligned_of_element houtcome haligned
        have hlength := Gives.length_lt_of_element houtcome haligned
        have hrest : (elements steps).run middle = (elements more).run middle :=
          ih hmiddle (by omega) (by omega)
        simp only [hrest]
      · rfl

theorem run_elements_ahead (haligned : start.ahead.IsAligned) :
    (elements start.ahead.length).run start = match outcome element start with
      | (.error error, middle) => (([], some error), middle)
      | (.ok (span, true), middle) => (([span], none), middle)
      | (.ok (span, false), middle) =>
        ((span :: ((elements middle.ahead.length).run middle).1.1,
          ((elements middle.ahead.length).run middle).1.2),
          ((elements middle.ahead.length).run middle).2) := by
  rw [run_elements_eq_of_le haligned le_rfl (Nat.le_succ _), run_elements_succ]
  rcases houtcome : outcome element start with ⟨_ | ⟨span, _ | _⟩, middle⟩
  · rfl
  · have hmiddle := Gives.aligned_of_element houtcome haligned
    have hlength := Gives.length_lt_of_element houtcome haligned
    simp only [run_elements_eq_of_le hmiddle hlength.le le_rfl]
  · rfl

/-- Every element takes a byte, and the walk breaks off at the end of the text at the latest. -/
theorem length_elements_le (steps : Nat) (haligned : start.ahead.IsAligned) :
    ((elements steps).run start).1.1.length + ((elements steps).run start).1.2.toList.length
      ≤ start.ahead.length + 1 := by
  induction steps generalizing start with
  | zero =>
    have hone : ((elements 0).run start).1.2.toList.length = 1 := rfl
    have hnone : ((elements 0).run start).1.1.length = 0 := rfl
    omega
  | succ steps ih =>
    rw [run_elements_succ]
    rcases houtcome : outcome element start with ⟨_ | ⟨span, _ | _⟩, middle⟩
    · simp
    · have hmiddle := Gives.aligned_of_element houtcome haligned
      have hlength := Gives.length_lt_of_element houtcome haligned
      have hrest := ih hmiddle
      simp only [List.length_cons]
      omega
    · simp

theorem elements_ne_nil {steps : Nat} (h : ((elements steps).run start).1.2 = none) :
    ((elements steps).run start).1.1 ≠ [] := by
  cases steps with
  | zero => cases h
  | succ steps =>
    rw [run_elements_succ] at h ⊢
    rcases houtcome : outcome element start with ⟨_ | ⟨span, _ | _⟩, middle⟩
    · simp [houtcome] at h
    · simp
    · simp

/-- By induction on the elements. What holds of those behind a comma holds in the whole text, since
the text in front of them only moves their places. -/
theorem inOrder_elements (steps : Nat) (haligned : start.ahead.IsAligned) :
    AreInOrder start.ahead start.offset ((elements steps).run start).1 := by
  induction steps generalizing start with
  | zero => exact .of_error _ _ _
  | succ steps ih =>
    rw [run_elements_succ]
    rcases houtcome : outcome element start with ⟨_ | ⟨span, isLast⟩, middle⟩
    · exact .of_error _ _ _
    · have hleads := Gives.leadsIn_of_element houtcome haligned
      cases isLast with
      | true =>
        have hends := Gives.endsIn_of_element houtcome haligned
        exact ⟨by simpa using hleads, .singleton _, by simpa using hends, nofun⟩
      | false =>
        obtain ⟨raw, hpasses, hmiddle, -⟩ := Gives.exists_element houtcome haligned
        have hrest := ih hmiddle
        rw [hpasses.offset] at hrest
        refine ⟨by simpa using hleads, List.isChain_cons.mpr ⟨fun next hnext => ?_, ?_⟩, ?_, nofun⟩
        · have hnext := hrest.leads next hnext
          rw [← hpasses.offset] at hnext
          exact Gives.followedIn_of_element houtcome haligned hnext
        · rw [hpasses.ahead]
          exact hrest.followed.imp fun _ _ hfollowed => hfollowed.append_left _
        · intro hnone last hlast
          rw [List.getLast?_cons_of_ne_nil (elements_ne_nil hnone)] at hlast
          rw [hpasses.ahead]
          exact (hrest.ends hnone last hlast).append_left _

/-- The walk over a whole array starts behind the opening bracket. -/
theorem inOrder_arrayElements {inner : Bytes} (hopen : start.ahead = Ascii.openBracket :: inner)
    (haligned : start.ahead.IsAligned) :
    AreInOrder inner (start.offset + 1) (arrayElements.run start).1 := by
  rw [run_arrayElements]
  rcases houtcome : outcome arrayStart start with ⟨_ | isEmpty, middle⟩
  · exact .of_error _ _ _
  · obtain ⟨before, blanks, hpasses, hbefore, hblanks, hmiddle, hempty⟩ :=
      Gives.arrayStart_passes houtcome haligned
    have hinner : before = [] ∧ inner = blanks ++ middle.ahead := by
      have hsplit := hopen.symm.trans hpasses.ahead
      cases before with
      | nil => exact ⟨rfl, by simpa using hsplit⟩
      | cons byte before =>
        obtain ⟨rfl, -⟩ : Ascii.openBracket = byte ∧ _ := by simpa using hsplit
        exact absurd (hbefore _ List.mem_cons_self) (by decide)
    obtain ⟨rfl, rfl⟩ := hinner
    cases isEmpty with
    | true =>
      obtain ⟨rest, hrest⟩ := List.head?_eq_some_iff.mp (eq_of_beq hempty.symm)
      exact ⟨nofun, .nil, nofun, fun _ => ⟨blanks, rest, hblanks, congrArg _ hrest⟩⟩
    | false =>
      have hoffset : start.offset + 1 + blanks.length = middle.offset := by
        rw [hpasses.offset, List.nil_append, List.singleton_append, List.length_cons]
        omega
      exact .append_left hblanks (hoffset ▸ inOrder_elements middle.ahead.length hmiddle)

theorem length_arrayElements_le (haligned : start.ahead.IsAligned) (hne : start.ahead ≠ []) :
    (arrayElements.run start).1.1.length + (arrayElements.run start).1.2.toList.length
      ≤ start.ahead.length := by
  have hpos : 0 < start.ahead.length := List.length_pos_of_ne_nil hne
  rw [run_arrayElements]
  rcases houtcome : outcome arrayStart start with ⟨_ | _ | _, middle⟩
  · simpa using Nat.succ_le_of_lt hpos
  · obtain ⟨before, blanks, hpasses, -, -, hmiddle, -⟩ := Gives.arrayStart_passes houtcome haligned
    have hlength := congrArg List.length hpasses.ahead
    have hrest := length_elements_le middle.ahead.length hmiddle
    simp only [List.length_append, List.length_cons] at hlength
    dsimp only
    omega
  · simp

end Scan

namespace ArrayView

theorem length_untilError_le {α : Type} (items : List (Except Error α)) :
    (untilError items).length ≤ items.length := by
  induction items with
  | nil => rfl
  | cons item items ih => cases item <;> simp [untilError, ih]

/-- A failure is the last item. -/
theorem length_untilError {α : Type} {items : List (Except Error α)} {position : Nat} {error : Error}
    (h : (untilError items)[position]? = some (.error error)) :
    (untilError items).length = position + 1 := by
  induction items generalizing position with
  | nil => simp [untilError] at h
  | cons item items ih =>
    cases item with
    | error found =>
      cases position with
      | zero => rfl
      | succ position => simp [untilError] at h
    | ok a =>
      cases position with
      | zero => simp [untilError] at h
      | succ position =>
        have hrest := ih (by simpa [untilError] using h)
        simp [untilError, hrest]

theorem getElem?_of_untilError {α : Type} {items : List (Except Error α)} {position : Nat}
    {item : Except Error α} (h : (untilError items)[position]? = some item) :
    items[position]? = some item := by
  induction items generalizing position with
  | nil => simp [untilError] at h
  | cons head items ih =>
    cases head with
    | error found =>
      cases position with
      | zero => simpa [untilError] using h
      | succ position => simp [untilError] at h
    | ok a =>
      cases position with
      | zero => simpa [untilError] using h
      | succ position => simpa [untilError] using ih (by simpa [untilError] using h)

theorem untilError_eq_self {α : Type} {items : List (Except Error α)}
    (h : ∀ error, .error error ∉ untilError items) : untilError items = items := by
  induction items with
  | nil => rfl
  | cons item items ih =>
    cases item with
    | error error =>
      have habsent := h error
      simp [untilError] at habsent
    | ok a =>
      have hrest : untilError items = items :=
        ih fun error hmem => h error (by simp [untilError, hmem])
      simp [untilError, hrest]

variable {classes : ClassReader} {view : ArrayView}

theorem length_items : (view.items classes).length
    = view.spans.1.length + view.spans.2.toList.length := by
  simp [items]

theorem item_of_getElem? {position : Nat} {item : Except Error Field}
    (h : (view.fields classes)[position]? = some item) :
    (∃ value, view.spans.1[position]? = some value ∧
      item = value.decode classes view.label view.element view.context) ∨
    (position = view.spans.1.length ∧ ∃ fault, view.spans.2 = some fault ∧ item = .error fault) := by
  have hitem : (view.items classes)[position]? = some item := getElem?_of_untilError h
  rw [items, List.getElem?_append] at hitem
  split at hitem
  next =>
    rw [List.getElem?_map] at hitem
    obtain ⟨value, hvalue, hdecoded⟩ := Option.map_eq_some_iff.mp hitem
    exact .inl ⟨value, hvalue, hdecoded.symm⟩
  next hlength =>
    rw [List.length_map] at hitem hlength
    cases hfault : view.spans.2 with
    | none => simp [hfault] at hitem
    | some fault =>
      obtain ⟨hposition, rfl⟩ : position - view.spans.1.length = 0 ∧ Except.error fault = item := by
        cases hplace : position - view.spans.1.length with
        | zero => simpa [hfault, hplace] using hitem
        | succ place => simp [hfault, hplace] at hitem
      exact .inr ⟨by omega, fault, rfl, rfl⟩

theorem length_fields (h : ∀ error, .error error ∉ view.fields classes) :
    (view.fields classes).length = view.spans.1.length := by
  have hall : view.fields classes = view.items classes := untilError_eq_self h
  cases hfault : view.spans.2 with
  | none => simp [hall, length_items, hfault]
  | some fault =>
    refine absurd ?_ (h fault)
    simp [hall, items, hfault]

/-- What is got of elements that were found, and of the failure that ended the search. -/
def got (classes : ClassReader) (view : ArrayView) (found : List Span × Option Error) :
    List (Except Error Field) :=
  untilError (found.1.map (fun span => span.decode classes view.label view.element view.context)
    ++ found.2.toList.map .error)

theorem got_cons (classes : ClassReader) (view : ArrayView) (span : Span) (spans : List Span)
    (fault : Option Error) : view.got classes (span :: spans, fault) =
      match span.decode classes view.label view.element view.context with
      | .ok field => .ok field :: view.got classes (spans, fault)
      | .error error => [.error error] := by
  simp only [got, List.map_cons, List.cons_append]
  cases span.decode classes view.label view.element view.context <;> rfl

end ArrayView

namespace ElementWalk

/-- The items that the walk has still to give. -/
def left (classes : ClassReader) (walk : ElementWalk) : List (Except Error Field) :=
  if walk.finished then []
  else if walk.started then
    walk.view.got classes ((Scan.elements walk.cursor.ahead.length).run walk.cursor).1
  else walk.view.got classes (Scan.arrayElements.run walk.cursor).1

theorem left_ofView (classes : ClassReader) (view : ArrayView) :
    (ofView view).left classes = view.fields classes := rfl

/-- A walk that has more to give stands where a character starts. -/
def IsAligned (walk : ElementWalk) : Prop :=
  walk.finished = false → walk.cursor.ahead.IsAligned

/-- One step gives the first of the items that are left, and leaves the others. -/
structure Gives (classes : ClassReader) (walk : ElementWalk) (items : List (Except Error Field)) :
    Prop where
  head : (walk.next classes).1 = items.head?
  tail : (walk.next classes).2.left classes = items.tail
  aligned : (walk.next classes).2.IsAligned

variable {classes : ClassReader} {walk begun : ElementWalk}

theorem gives_of_error {error : Error} (h : walk.step classes = (.error error, begun)) :
    walk.Gives classes [.error error] := by
  have hnext : walk.next classes = (some (.error error), { begun with finished := true }) := by
    simp only [next, h]
  refine ⟨?_, ?_, ?_⟩
  · simp [hnext]
  · simp [hnext, left]
  · simp [hnext, IsAligned]

theorem gives_of_nil (h : walk.step classes = (.ok none, begun)) (hfinished : begun.finished = true) :
    walk.Gives classes [] := by
  have hnext : walk.next classes = (none, begun) := by simp only [next, h]
  refine ⟨?_, ?_, ?_⟩
  · simp [hnext]
  · simp [hnext, left, hfinished]
  · simp [hnext, IsAligned, hfinished]

theorem gives_of_ok {field : Field} (h : walk.step classes = (.ok (some field), begun))
    (haligned : begun.IsAligned) : walk.Gives classes (.ok field :: begun.left classes) := by
  have hnext : walk.next classes = (some (.ok field), begun) := by simp only [next, h]
  refine ⟨?_, ?_, ?_⟩
  · simp [hnext]
  · simp [hnext]
  · simpa only [hnext] using haligned

/-- The separator is taken before the value is decoded, so of an element without one the value does
not matter. -/
theorem gives_of_element (hstep : walk.step classes = begun.element classes)
    (hstarted : begun.started = true) (hfinished : begun.finished = false)
    (haligned : begun.cursor.ahead.IsAligned) : walk.Gives classes (begun.left classes) := by
  have hleft : begun.left classes = begun.view.got classes
      ((Scan.elements begun.cursor.ahead.length).run begun.cursor).1 := by
    simp [left, hstarted, hfinished]
  rw [hleft, Scan.run_elements_ahead haligned]
  rcases houtcome : Scan.outcome Scan.element begun.cursor with ⟨error | ⟨span, isLast⟩, middle⟩
  · have herror : begun.element classes = (.error error, { begun with cursor := middle }) := by
      simp only [element, show Scan.element.run.run begun.cursor = _ from houtcome]
    exact gives_of_error (hstep.trans herror)
  · have hwalk : begun.element classes =
        ((span.decode classes begun.view.label begun.view.element begun.view.context).map some,
          { begun with cursor := middle, finished := isLast }) := by
      simp only [element, show Scan.element.run.run begun.cursor = _ from houtcome]
    have hmiddle := Scan.Gives.aligned_of_element houtcome haligned
    cases hdecode : span.decode classes begun.view.label begun.view.element begun.view.context with
    | error error =>
      have hitems := gives_of_error (hstep.trans (hwalk.trans (by rw [hdecode]; rfl)))
      cases isLast <;> simpa only [ArrayView.got_cons, hdecode] using hitems
    | ok field =>
      have hitems := gives_of_ok (hstep.trans (hwalk.trans (by rw [hdecode]; rfl))) fun _ => hmiddle
      cases isLast with
      | true =>
        simpa [ArrayView.got_cons, hdecode, left, ArrayView.got, ArrayView.untilError] using hitems
      | false => simpa [ArrayView.got_cons, hdecode, left, hstarted] using hitems

theorem gives_of_arrayStart (hstarted : walk.started = false) (hfinished : walk.finished = false)
    (haligned : walk.cursor.ahead.IsAligned) : walk.Gives classes (walk.left classes) := by
  have hleft : walk.left classes = walk.view.got classes (Scan.arrayElements.run walk.cursor).1 := by
    simp [left, hfinished, hstarted]
  rw [hleft, Scan.run_arrayElements]
  rcases houtcome : Scan.outcome Scan.arrayStart walk.cursor with ⟨error | _ | _, middle⟩
  · have hstep : walk.step classes
        = (.error error, { walk with cursor := middle, started := true }) := by
      simp [step, hfinished, hstarted, show Scan.arrayStart.run.run walk.cursor = _ from houtcome]
    exact gives_of_error hstep
  · have hstep : walk.step classes
        = element classes { walk with cursor := middle, started := true } := by
      simp [step, hfinished, hstarted, show Scan.arrayStart.run.run walk.cursor = _ from houtcome]
    obtain ⟨-, -, -, -, -, hmiddle, -⟩ := Scan.Gives.arrayStart_passes houtcome haligned
    have hitems := gives_of_element hstep rfl hfinished hmiddle
    simpa [left, hfinished] using hitems
  · have hstep : walk.step classes
        = (.ok none, { walk with cursor := middle, started := true, finished := true }) := by
      simp [step, hfinished, hstarted, show Scan.arrayStart.run.run walk.cursor = _ from houtcome]
    exact gives_of_nil hstep rfl

theorem gives_left (haligned : walk.IsAligned) : walk.Gives classes (walk.left classes) := by
  by_cases hfinished : walk.finished = true
  · have hleft : walk.left classes = [] := by simp [left, hfinished]
    rw [hleft]
    exact gives_of_nil (by simp [step, hfinished]) hfinished
  · rw [Bool.not_eq_true] at hfinished
    by_cases hstarted : walk.started = true
    · have hstep : walk.step classes = walk.element classes := by simp [step, hfinished, hstarted]
      exact gives_of_element hstep hstarted hfinished (haligned hfinished)
    · rw [Bool.not_eq_true] at hstarted
      exact gives_of_arrayStart hstarted hfinished (haligned hfinished)

/-- Asked again and again, the walk gives the items that are left in their order, and then nothing. -/
theorem get?_eq (asked : Nat) (haligned : walk.IsAligned) :
    walk.get? classes asked = (walk.left classes)[asked]? := by
  have hstep : walk.Gives classes (walk.left classes) := gives_left haligned
  induction asked generalizing walk with
  | zero => rw [get?, hstep.head, List.head?_eq_getElem?]
  | succ asked ih =>
    have hrest := ih hstep.aligned (gives_left hstep.aligned)
    rw [get?, hrest, hstep.tail, List.getElem?_tail]

end ElementWalk

namespace Scan

variable {start after : Cursor} {span : Span} {document : String}

theorem Gives.peek?_of_value (h : Gives value start span after) (harray : span.shape = .array) :
    start.skipBlanks.peek? = some Ascii.openBracket := by
  cases gives_value_iff.mp h with
  | string _ h =>
    have hshape := h.of_string.1
    simp [harray] at hshape
  | array hbyte => exact hbyte
  | object _ h =>
    have hshape := h.of_bracketed.1
    simp [harray] at hshape
  | literal _ _ _ _ _ _ h =>
    have hshape := h.of_literal.1
    simp [harray] at hshape

theorem Gives.aligned_of_value (h : Gives value start span after) (harray : span.shape = .array)
    (hstart : start.IsOver document) : start.ahead.IsAligned :=
  hstart.isAligned (Cursor.startsChar_of_peek? (h.peek?_of_value harray) rfl)

end Scan

/-- In whatever array is found, asking for one element after the other gives the items in their
order and then nothing more. There are at most as many as the array has bytes, only the last can be a
failure, and without a failure every element is there. The elements stand inside the brackets behind
each other: the first behind blanks, then one comma between any two, and, if the search did not break
off, a closing bracket behind the last. -/
theorem elements_come_in_order {document : String} {start after : Cursor} {view : ArrayView}
    (hstart : start.IsOver document) (hspan : Scan.Gives Scan.value start view.span after)
    (harray : view.span.shape = .array) (classes : ClassReader) :
    (∀ asked, (ElementWalk.ofView view).get? classes asked = (view.fields classes)[asked]?) ∧
    (view.fields classes).length ≤ view.span.text.length ∧
    (∀ (position : Nat) error, (view.fields classes)[position]? = some (.error error) →
      (view.fields classes).length = position + 1) ∧
    (∀ (position : Nat) item, (view.fields classes)[position]? = some item →
      (∃ value, view.spans.1[position]? = some value ∧
        item = value.decode classes view.label view.element view.context) ∨
      (position = view.spans.1.length ∧ ∃ fault, view.spans.2 = some fault ∧ item = .error fault)) ∧
    ((∀ error, .error error ∉ view.fields classes) →
      (view.fields classes).length = view.spans.1.length) ∧
    (∀ value ∈ view.spans.1, value.IsInside view.span) ∧
    view.spans.1.Pairwise (fun first second => first.offset + first.text.length < second.offset) ∧
    ∃ inner, view.span.text = Ascii.openBracket :: inner ++ [Ascii.closeBracket] ∧
      AreInOrder (inner ++ [Ascii.closeBracket]) (view.span.offset + 1) view.spans := by
  have hahead := hspan.aligned_of_value harray hstart
  obtain ⟨lead, raw, hpasses, hlead, hfound, -⟩ := hspan.exists_isFound hahead
  rw [hpasses.ahead, List.append_assoc] at hahead
  have haligned : (Cursor.ofSpan view.span).ahead.IsAligned :=
    hfound.aligned_text (hahead.after_blanks hlead)
  obtain ⟨inner, htext, -⟩ :=
    IsFound.exists_inner (show IsFound _ _ Container.array.shape _ from harray ▸ hfound)
  have horder : AreInOrder (inner ++ [Ascii.closeBracket]) (view.span.offset + 1) view.spans :=
    Scan.inOrder_arrayElements htext haligned
  refine ⟨fun asked => ?_, ?_, fun _ _ => ArrayView.length_untilError,
    fun _ _ => ArrayView.item_of_getElem?, ArrayView.length_fields, fun value hvalue => ?_,
    horder.pairwise, inner, htext, horder⟩
  · rw [← ElementWalk.left_ofView]
    exact ElementWalk.get?_eq asked fun _ => haligned
  · have hfields : (view.fields classes).length ≤ (view.items classes).length :=
      ArrayView.length_untilError_le _
    have hitems : (view.items classes).length ≤ view.span.text.length := by
      rw [ArrayView.length_items]
      exact Scan.length_arrayElements_le haligned (by simp [htext])
    omega
  · exact (Scan.isPartOf_of_arrayElements haligned hvalue).isInside htext

/-- Two truth values are got of `[true, f,1}]`, then the failure at the brace, and then nothing. -/
theorem nothing_got_behind_failure :
    ∃ after, Scan.Gives Scan.value (.ofText (Bytes.ofString "[true, f,1\x7d]"))
        (flagArray "[true, f,1\x7d]").span after ∧
      (ElementWalk.ofView (flagArray "[true, f,1\x7d]")).get? noClasses 1
        = some (.ok (.scalar (.bool false))) ∧
      (ElementWalk.ofView (flagArray "[true, f,1\x7d]")).get? noClasses 2
        = some (.error (.structural (.mismatchedClose (Char.ofNat 0x7d)) 10)) ∧
      ∀ more,
        (ElementWalk.ofView (flagArray "[true, f,1\x7d]")).get? noClasses (more + 3) = none := by
  have hover : (Cursor.ofText (Bytes.ofString "[true, f,1\x7d]")).IsOver "[true, f,1\x7d]" :=
    ⟨rfl, rfl⟩
  have hspan : Scan.Gives Scan.value (.ofText (Bytes.ofString "[true, f,1\x7d]"))
      (flagArray "[true, f,1\x7d]").span _ := rfl
  obtain ⟨hget, -, hlast, -⟩ := elements_come_in_order hover hspan rfl noClasses
  refine ⟨_, hspan, hget 1, hget 2, fun more => ?_⟩
  have hlength := hlast 2 _ rfl
  rw [hget, List.getElem?_eq_none]
  omega

end SchemaJson
