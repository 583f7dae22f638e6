import SchemaJson.Proofs.JsonTexts

/-! Scanning what spells a tree. The search for the end of a value stops right behind its text, and
the walk over a container meets the values of its entries one by one. -/

namespace SchemaJson

/-- Whatever brackets stand around a text that is balanced for both kinds, it stays so. -/
theorem IsBalanced.within {inner : Bytes} (h : ∀ container, IsBalanced container inner)
    (container other : Container) :
    IsBalanced container (other.opening :: inner ++ [other.closing]) := by
  by_cases hsame : container = other
  · subst hsame
    exact (h container).bracketed
  · have hopening : IsBalanced container [other.opening] := by
      cases container <;> cases other <;> first | exact absurd rfl hsame | decide
    have hclosing : IsBalanced container [other.closing] := by
      cases container <;> cases other <;> first | exact absurd rfl hsame | decide
    exact (hopening.append (h container)).append hclosing

theorem Joined.isBalanced {container : Container} {cores : List Bytes} {text : Bytes}
    (h : Joined cores text) (hcores : ∀ core ∈ cores, IsBalanced container core) :
    IsBalanced container text := by
  induction h with
  | none hblanks => exact hblanks.isBalanced container
  | last hbefore hafter =>
    exact (hbefore.isBalanced container).append
      ((hcores _ (by simp)).append (hafter.isBalanced container))
  | cons hbefore hafter _ ih =>
    have hcomma : IsBalanced container [Ascii.comma] := by
      cases container <;> decide
    have hrest := ih fun core hmem => hcores core (by simp [hmem])
    exact (hbefore.isBalanced container).append ((hcores _ (by simp)).append
      ((hafter.isBalanced container).append (hcomma.append hrest)))

theorem MemberText.isNameText (member : MemberText) (h : IsStringContent member.name) :
    IsNameText member.name member.nameText :=
  .mk h isBlankText_nil member.isBlank_beforeColon
    member.isBlank_afterColon

theorem isBalanced_of_isPlain {container : Container} {text : Bytes}
    (h : ∀ byte ∈ text, isPlain byte = true) : IsBalanced container text := by
  refine .of_plain fun byte hmem => ⟨?_, ?_, ?_, ?_⟩
  · rintro rfl
    cases h _ hmem
  · rintro rfl
    cases h _ hmem
  · rintro rfl
    cases container <;> cases h _ hmem
  · rintro rfl
    cases container <;> cases h _ hmem

/-- A search for a bracket of either kind passes over what spells a tree. -/
theorem Spells.isBalanced {tree : Tree} {text : Bytes} (h : Spells looseLexicon tree text)
    (container : Container) : IsBalanced container text := by
  induction h generalizing container with
  | string hraw => exact .quoted hraw
  | literal hraw => exact isBalanced_of_isPlain hraw.2
  | array _ hjoined ih =>
    refine IsBalanced.within (fun container => hjoined.isBalanced fun core hmem => ?_) container .array
    obtain ⟨item, hitem, rfl⟩ := List.mem_map.mp hmem
    exact ih item hitem container
  | object hnames _ hjoined ih =>
    refine IsBalanced.within (fun container => hjoined.isBalanced fun core hmem => ?_) container
      .object
    obtain ⟨member, hmember, rfl⟩ := List.mem_map.mp hmem
    exact ((member.isNameText (hnames member hmember)).isBalanced container).append
      (ih member hmember container)

/-- The span keeps the tree's raw text, or the text that spells the tree. -/
inductive Captures : Tree → Span → Prop
  | string (raw : Bytes) (offset : Nat) : Captures (.string raw) ⟨raw, offset, .string⟩
  | literal {raw : Bytes} (offset : Nat) : looseLexicon.literal raw →
      Captures (.literal raw) ⟨raw, offset, .literal⟩
  | array {items : List Tree} {text : Bytes} (offset : Nat) :
      Spells looseLexicon (.array items) text → text.IsAligned →
      Captures (.array items) ⟨text, offset, .array⟩
  | object {members : List (Bytes × Tree)} {text : Bytes} (offset : Nat) :
      Spells looseLexicon (.object members) text → text.IsAligned →
      Captures (.object members) ⟨text, offset, .object⟩

theorem isLiteralText_of_isPlain {text : Bytes} (hne : text ≠ [])
    (h : ∀ byte ∈ text, isPlain byte = true) : IsLiteralText text := by
  refine ⟨?_, fun byte hmem => ?_, fun byte hmem => ?_⟩
  · cases text with
    | nil => exact absurd rfl hne
    | cons byte text =>
      have hbyte := h byte (by simp)
      simp only [isPlain, Bool.and_eq_true, Bool.not_eq_true', bne_iff_ne] at hbyte
      exact ⟨byte, rfl, by tauto⟩
  · have hbyte := h byte hmem
    simp only [isPlain, Bool.and_eq_true, Bool.not_eq_true'] at hbyte
    tauto
  · have hbyte := h byte (List.mem_of_getLast? hmem)
    simp only [isPlain, Bool.and_eq_true, Bool.not_eq_true'] at hbyte
    tauto

namespace Tree

def shape : Tree → Shape
  | string _ => .string
  | literal _ => .literal
  | array _ => .array
  | object _ => .object

end Tree

namespace Shape

/-- What a span keeps of a value's text: a string loses its quotes. -/
def content (shape : Shape) (raw : Bytes) : Bytes :=
  if shape = .string then raw.tail.dropLast else raw

/-- What the search for the end of a value passes over behind its text: a literal runs over blanks
to a separator, any other value ends by itself. -/
def EndsBefore (shape : Shape) (after rest : Bytes) : Prop :=
  if shape = .literal then IsBlankText after ∧ startsSeparator rest else after = []

end Shape

theorem Spells.isFound {tree : Tree} {text after rest : Bytes} (h : Spells looseLexicon tree text)
    (hends : tree.shape.EndsBefore after rest) :
    IsFound (text ++ after) rest tree.shape (tree.shape.content text) := by
  cases h with
  | @string raw hraw =>
    obtain rfl : after = [] := hends
    have hcontent : Shape.string.content (Ascii.quote :: raw ++ [Ascii.quote]) = raw := by
      simp [Shape.content]
    rw [List.append_nil, Tree.shape, hcontent]
    exact .string hraw
  | literal hraw =>
    obtain ⟨hafter, hrest⟩ : IsBlankText after ∧ startsSeparator rest := hends
    exact .literal (isLiteralText_of_isPlain hraw.1 hraw.2) hafter hrest
  | array hitems hjoined =>
    obtain rfl : after = [] := hends
    have hinner : IsBalanced .array _ := hjoined.isBalanced fun core hmem => by
      obtain ⟨item, hitem, rfl⟩ := List.mem_map.mp hmem
      exact (hitems item hitem).isBalanced .array
    rw [List.append_nil]
    exact .bracketed .array hinner
  | object hnames hbodies hjoined =>
    obtain rfl : after = [] := hends
    have hinner : IsBalanced .object _ := hjoined.isBalanced fun core hmem => by
      obtain ⟨member, hmember, rfl⟩ := List.mem_map.mp hmem
      exact ((member.isNameText (hnames member hmember)).isBalanced .object).append
        ((hbodies member hmember).isBalanced .object)
    rw [List.append_nil]
    exact .bracketed .object hinner

theorem Spells.captures {tree : Tree} {text : Bytes} (h : Spells looseLexicon tree text)
    (haligned : text.IsAligned) (offset : Nat) :
    Captures tree ⟨tree.shape.content text, offset, tree.shape⟩ := by
  have hwhole := h
  cases h with
  | @string raw =>
    have hcontent : Shape.string.content (Ascii.quote :: raw ++ [Ascii.quote]) = raw := by
      simp [Shape.content]
    rw [Tree.shape, hcontent]
    exact .string raw offset
  | literal hraw => exact .literal offset hraw
  | array => exact .array offset hwhole haligned
  | object => exact .object offset hwhole haligned

theorem Spells.isFound_array {items : List Tree} {text : Bytes}
    (h : Spells looseLexicon (.array items) text) (rest : Bytes) : IsFound text rest .array text := by
  have hfound := h.isFound (show Shape.array.EndsBefore [] rest from rfl)
  rwa [List.append_nil] at hfound

/-- In front of a separator the search takes the text of the tree, and the blanks behind it if that
is a literal. -/
theorem Spells.exists_isFound {tree : Tree} {core after tail : Bytes}
    (h : Spells looseLexicon tree core) (haligned : core.IsAligned) (hafter : IsBlankText after)
    (htail : startsSeparator tail) :
    ∃ raw behind shape text, core ++ after = raw ++ behind ∧ IsBlankText behind ∧
      IsFound raw (behind ++ tail) shape text ∧ ∀ offset, Captures tree ⟨text, offset, shape⟩ := by
  by_cases hliteral : tree.shape = .literal
  · have hends : tree.shape.EndsBefore after tail := by
      rw [Shape.EndsBefore, if_pos hliteral]
      exact ⟨hafter, htail⟩
    exact ⟨core ++ after, [], _, _, by simp, isBlankText_nil, h.isFound hends, h.captures haligned⟩
  · have hends : tree.shape.EndsBefore [] (after ++ tail) := by
      rw [Shape.EndsBefore, if_neg hliteral]
    have hfound := h.isFound hends
    rw [List.append_nil] at hfound
    exact ⟨core, after, _, _, rfl, hafter, hfound, h.captures haligned⟩

/-- The core of an entry: it starts with a byte that is no blank and no separator. -/
def IsCore (core : Bytes) : Prop :=
  ∃ byte tail, core = byte :: tail ∧ isBlank byte = false ∧ isSeparator byte = false

theorem IsCore.startsUnblank {core : Bytes} (h : IsCore core) (tail : Bytes) :
    startsUnblank (core ++ tail) := by
  obtain ⟨byte, rest, rfl, hbyte, -⟩ := h
  exact startsUnblank_cons hbyte (rest ++ tail)

theorem Spells.isCore {tree : Tree} {core : Bytes} (h : Spells looseLexicon tree core) :
    IsCore core := by
  cases h with
  | string => exact ⟨_, _, rfl, rfl, rfl⟩
  | literal hraw =>
    cases core with
    | nil => exact absurd rfl hraw.1
    | cons byte core =>
      have hbyte := hraw.2 byte (by simp)
      simp only [isPlain, Bool.and_eq_true, Bool.not_eq_true'] at hbyte
      exact ⟨byte, core, rfl, by tauto, by tauto⟩
  | array => exact ⟨_, _, rfl, rfl, rfl⟩
  | object => exact ⟨_, _, rfl, rfl, rfl⟩

theorem MemberText.isCore (member : MemberText) : IsCore member.text :=
  ⟨_, _, rfl, rfl, rfl⟩

theorem Joined.exists_eq_append {core text : Bytes} {cores : List Bytes}
    (h : Joined (core :: cores) text) :
    ∃ before rest, text = before ++ (core ++ rest) ∧ IsBlankText before ∧
      Joined (core :: cores) (core ++ rest) := by
  cases h with
  | last hbefore hafter => exact ⟨_, _, rfl, hbefore, .last isBlankText_nil hafter⟩
  | cons hbefore hafter hrest => exact ⟨_, _, rfl, hbefore, .cons isBlankText_nil hafter hrest⟩

theorem Joined.length_le {cores : List Bytes} {text : Bytes} (h : Joined cores text)
    (hcores : ∀ core ∈ cores, IsCore core) : cores.length ≤ text.length := by
  induction h with
  | none => simp
  | @last _ core =>
    obtain ⟨byte, tail, rfl, -⟩ := hcores core (by simp)
    simp only [List.length_append, List.length_cons, List.length_nil]
    omega
  | cons _ _ _ ih =>
    have hrest := ih fun core hmem => hcores core (by simp [hmem])
    simp only [List.length_append, List.length_cons] at hrest ⊢
    omega

namespace Scan

variable {α β : Type}

/-- The step reads the core of an entry wherever blanks and a separator stand around it. -/
def Reads (entry : Scan α) (core : Bytes) (Result : α → Prop) : Prop :=
  ∀ start blanks after tail, start.ahead = blanks ++ (core ++ (after ++ tail)) →
    start.ahead.IsAligned → IsBlankText blanks → IsBlankText after → startsSeparator tail →
    ∃ a stop behind, Gives entry start a stop ∧ Result a ∧ stop.ahead = behind ++ tail ∧
      IsBlankText behind

theorem reads_value {tree : Tree} {core : Bytes} (h : Spells looseLexicon tree core) :
    Reads value core (Captures tree) := by
  intro start blanks after tail hahead haligned hblanks hafter htail
  have hcore : core.IsAligned := ((hahead ▸ haligned).after_blanks hblanks).left
  obtain ⟨raw, behind, shape, text, hraw, hbehind, hfound, hcaptures⟩ :=
    h.exists_isFound hcore hafter htail
  have hsplit : start.ahead = blanks ++ (raw ++ (behind ++ tail)) := by
    rw [hahead, ← List.append_assoc core, hraw, List.append_assoc]
  obtain ⟨stop, hgives, hpasses⟩ := exists_gives_value hsplit haligned hblanks hfound
  refine ⟨_, stop, behind, hgives, hcaptures _, hpasses.ahead_eq ?_, hbehind⟩
  rw [hsplit, List.append_assoc]

theorem reads_memberEntry {member : MemberText} (hname : IsStringContent member.name)
    (hbody : Spells looseLexicon member.tree member.body) :
    Reads memberEntry member.text fun met => met.1 = member.name ∧ Captures member.tree met.2 := by
  intro start blanks after tail hahead haligned hblanks hafter htail
  have hnameText := IsNameText.mk hname hblanks member.isBlank_beforeColon member.isBlank_afterColon
  have hsplit : start.ahead = blanks ++ (Ascii.quote :: member.name ++ [Ascii.quote])
      ++ member.beforeColon ++ Ascii.colon :: member.afterColon
      ++ (member.body ++ (after ++ tail)) := by
    rw [hahead]
    simp [MemberText.text, MemberText.nameText]
  obtain ⟨span, middle, hgives, hspan, hpasses⟩ :=
    exists_gives_name hnameText hsplit haligned (hbody.isCore.startsUnblank _)
  have hmiddle : middle.ahead = [] ++ (member.body ++ (after ++ tail)) := hpasses.ahead_eq hsplit
  have hmiddleAligned := hnameText.aligned (hpasses.ahead ▸ haligned)
  obtain ⟨value, stop, behind, hvalue, hcaptures, hstop, hbehind⟩ :=
    reads_value hbody middle [] after tail hmiddle hmiddleAligned (by simp [IsBlankText]) hafter htail
  refine ⟨(member.name, value), stop, behind, ?_, ⟨rfl, hcaptures⟩, hstop, hbehind⟩
  simp only [memberEntry, gives_bind, gives_pure]
  exact ⟨span, middle, hgives, value, stop, hvalue, by rw [hspan], rfl⟩

theorem Reads.exists_gives_entryEnd {container : Container} (atEnd : StructureFault)
    {entry : Scan α} {core : Bytes} {Result : α → Prop} (h : Reads entry core Result)
    {start : Cursor} {before behind after rest : Bytes} {isLast : Bool}
    (hahead : start.ahead
      = before ++ (core ++ (behind ++ container.mark isLast :: (after ++ rest))))
    (haligned : start.ahead.IsAligned) (hbefore : IsBlankText before)
    (hbehind : IsBlankText behind) (hafter : IsBlankText after) (hrest : startsUnblank rest) :
    ∃ a middle stop, Gives entry start a middle ∧ Result a ∧
      Gives (entryEnd container atEnd) middle isLast stop ∧ stop.ahead = rest ∧
      stop.ahead.IsAligned := by
  have hmark := container.isSeparator_mark isLast
  obtain ⟨a, middle, blanks, hentry, hresult, hmiddle, hblanks⟩ :=
    h start before behind _ hahead haligned hbefore hbehind ⟨_, rfl, hmark⟩
  obtain ⟨stop, hend, hpasses⟩ :=
    Scan.exists_gives_entryEnd container atEnd hmiddle hblanks hafter hrest
  have hstop : stop.ahead = rest := hpasses.ahead_eq (by rw [hmiddle]; simp)
  refine ⟨a, middle, stop, hentry, hresult, hend, hstop, ?_⟩
  have hsplit : start.ahead = (before ++ (core ++ behind)) ++ container.mark isLast :: (after ++ rest) := by
    rw [hahead]
    simp
  rw [hsplit] at haligned
  rw [hstop]
  exact (haligned.after (isAscii_of_isSeparator hmark)).after_blanks hafter

/-- The walk over the entries reads all of them. -/
theorem exists_gives_entries {container : Container} (atEnd : StructureFault) {entry : Scan α}
    {core : β → Bytes} {Result : β → α → Prop} {pieces : List β}
    (hreads : ∀ piece ∈ pieces, Reads entry (core piece) (Result piece))
    (hcores : ∀ piece ∈ pieces, IsCore (core piece)) (hne : pieces ≠ [])
    {text after rest : Bytes} (hjoined : Joined (pieces.map core) text) {steps : Nat}
    (hsteps : pieces.length ≤ steps) {start : Cursor}
    (hahead : start.ahead = text ++ container.closing :: (after ++ rest))
    (haligned : start.ahead.IsAligned) (hafter : IsBlankText after) (hrest : startsUnblank rest) :
    ∃ found stop, Gives (entries container atEnd entry steps) start found stop ∧
      List.Forall₂ Result pieces found ∧ stop.ahead = rest := by
  induction pieces generalizing text steps start with
  | nil => exact absurd rfl hne
  | cons piece pieces ih =>
    cases steps with
    | zero => cases hsteps
    | succ steps =>
      have hread := hreads piece (by simp)
      cases pieces with
      | nil =>
        rw [List.map_cons, List.map_nil] at hjoined
        cases hjoined with
        | @last before _ behind hbefore hbehind =>
          have hsplit : start.ahead = before ++ (core piece ++ (behind ++
              container.mark true :: (after ++ rest))) := by
            rw [hahead]
            simp [Container.mark]
          obtain ⟨a, middle, stop, ha, hresult, hend, hstop, -⟩ :=
            hread.exists_gives_entryEnd atEnd hsplit haligned hbefore hbehind hafter hrest
          refine ⟨[a], stop, ?_, .cons hresult .nil, hstop⟩
          simp only [entries, gives_bind]
          exact ⟨a, middle, ha, true, stop, hend, gives_pure.mpr ⟨rfl, rfl⟩⟩
      | cons next pieces =>
        rw [List.map_cons, List.map_cons] at hjoined
        cases hjoined with
        | @cons before _ behind _ more _ hbefore hbehind hmore =>
          -- The step over the separator takes the blanks in front of the next entry with it.
          obtain ⟨blanks, body, rfl, hblanks, hbody⟩ := hmore.exists_eq_append
          have hsplit : start.ahead = before ++ (core piece ++ (behind ++
              container.mark false :: (blanks ++ (core next ++ (body ++
                container.closing :: (after ++ rest)))))) := by
            rw [hahead]
            simp [Container.mark]
          obtain ⟨a, middle, last, ha, hresult, hend, hlast, hlastAligned⟩ :=
            hread.exists_gives_entryEnd atEnd hsplit haligned hbefore hbehind hblanks
              ((hcores next (by simp)).startsUnblank _)
          obtain ⟨found, stop, hfound, hresults, hstop⟩ :=
            ih (fun other hmem => hreads other (by simp [hmem]))
              (fun other hmem => hcores other (by simp [hmem])) (by simp) hbody
              (Nat.le_of_succ_le_succ hsteps) (by rw [hlast, List.append_assoc]) hlastAligned
          refine ⟨a :: found, stop, ?_, .cons hresult hresults, hstop⟩
          simp only [entries, gives_bind]
          exact ⟨a, middle, ha, false, last, hend,
            gives_bind.mpr ⟨found, stop, hfound, gives_pure.mpr ⟨rfl, rfl⟩⟩⟩

end Scan

/-- What stands between the brackets of a container starts, behind blanks, with its first entry or
with the closing bracket. -/
theorem Joined.exists_inside (container : Container) {cores : List Bytes} {inner : Bytes}
    (h : Joined cores inner) (hcores : ∀ core ∈ cores, IsCore core) (tail : Bytes) :
    ∃ inside text, inner = inside ++ text ∧ IsBlankText inside ∧ Joined cores text ∧
      startsUnblank (text ++ container.closing :: tail) ∧ (cores = [] → text = []) ∧
      (cores ≠ [] → (text ++ container.closing :: tail).head? ≠ some container.closing) := by
  have hclosing := container.isSeparator_mark true
  cases cores with
  | nil =>
    cases h with
    | none hblanks =>
      exact ⟨inner, [], by simp, hblanks, .none (by simp [IsBlankText]),
        startsUnblank_of_isSeparator hclosing _, fun _ => rfl, fun hne => absurd rfl hne⟩
  | cons core cores =>
    obtain ⟨inside, rest, rfl, hinside, hjoined⟩ := h.exists_eq_append
    refine ⟨inside, core ++ rest, rfl, hinside, hjoined, ?_, (by simp), fun _ => ?_⟩
    · rw [List.append_assoc]
      exact (hcores core (by simp)).startsUnblank _
    · obtain ⟨byte, bytes, rfl, -, hbyte⟩ := hcores core (by simp)
      intro hhead
      cases hhead
      rw [show container.closing = container.mark true from rfl, hclosing] at hbyte
      cases hbyte

theorem Joined.exists_ahead (container : Container) {cores : List Bytes} {inner : Bytes}
    (h : Joined cores inner) (hcores : ∀ core ∈ cores, IsCore core) {start : Cursor}
    {blanks tail : Bytes}
    (hahead : start.ahead = blanks ++ ((container.opening :: inner ++ [container.closing]) ++ tail))
    (haligned : start.ahead.IsAligned) (hblanks : IsBlankText blanks) :
    start.skipBlanks.peek? = some container.opening ∧
    ∃ text, Joined cores text ∧ cores.length ≤ text.length ∧ (cores = [] → text = []) ∧
      (start.skipBlanks.advance 1).skipBlanks.ahead = text ++ container.closing :: tail ∧
      (cores ≠ [] → (start.skipBlanks.advance 1).skipBlanks.peek? ≠ some container.closing) ∧
      (start.skipBlanks.advance 1).skipBlanks.ahead.IsAligned := by
  obtain ⟨inside, text, rfl, hinside, htext, hunblank, hnil, hcons⟩ :=
    h.exists_inside container hcores tail
  have hopening : isBlank container.opening = false ∧ isAscii container.opening = true := by
    cases container <;> exact ⟨rfl, rfl⟩
  have hsplit : start.ahead
      = blanks ++ container.opening :: (inside ++ (text ++ container.closing :: tail)) := by
    rw [hahead]
    simp
  have hpasses := Cursor.passes_skipBlanks_of_eq hsplit hblanks (startsUnblank_cons hopening.1 _)
  have hfirst := hpasses.ahead_eq hsplit
  have hpast : (start.skipBlanks.advance 1).ahead
      = inside ++ (text ++ container.closing :: tail) := by
    rw [Cursor.ahead_advance, hfirst, List.drop_one, List.tail_cons]
  have hlast := (Cursor.passes_skipBlanks_of_eq hpast hinside hunblank).ahead_eq hpast
  refine ⟨by rw [Cursor.peek?, hfirst, List.head?_cons], text, htext, htext.length_le hcores, hnil,
    hlast, by rwa [Cursor.peek?, hlast], ?_⟩
  rw [hsplit] at haligned
  rw [hlast]
  exact ((Bytes.isAligned_cons_of_isAscii hopening.2).mp
    (haligned.after_blanks hblanks)).after_blanks hinside

namespace Scan

/-- The walk over what spells an object meets all its members. -/
theorem exists_gives_objectMembers (className : String) {members : List (Bytes × Tree)}
    {text : Bytes} (h : Spells looseLexicon (.object members) text) {start : Cursor}
    {blanks after rest : Bytes} (hahead : start.ahead = blanks ++ (text ++ (after ++ rest)))
    (haligned : start.ahead.IsAligned) (hblanks : IsBlankText blanks) (hafter : IsBlankText after)
    (hrest : startsUnblank rest) :
    ∃ met stop, Gives (objectMembers className) start met stop ∧
      List.Forall₂ (fun member met => met.1 = member.1 ∧ Captures member.2 met.2) members met ∧
      stop.ahead = rest := by
  generalize htree : Tree.object members = tree at h
  cases h with
  | @object spelled inner hnames hbodies hjoined =>
    cases htree
    have hcores : ∀ core ∈ spelled.map MemberText.text, IsCore core := by
      intro core hmem
      obtain ⟨member, -, rfl⟩ := List.mem_map.mp hmem
      exact member.isCore
    obtain ⟨hopening, body, hbody, hlength, hnil, hinside, hcons, hinsideAligned⟩ :=
      hjoined.exists_ahead .object hcores hahead haligned hblanks
    by_cases hspelled : spelled = []
    · subst hspelled
      have hclosing : (start.skipBlanks.advance 1).skipBlanks.ahead
          = [Ascii.closeBrace] ++ (after ++ rest) := by
        rw [hinside, hnil rfl]
        rfl
      have hpast := (Cursor.passes_advance hclosing).ahead_eq hclosing
      have hpeek : (start.skipBlanks.advance 1).skipBlanks.peek? = some Ascii.closeBrace := by
        rw [Cursor.peek?, hclosing]
        rfl
      exact ⟨[], _, gives_objectMembers_empty hopening hpeek, .nil,
        (Cursor.passes_skipBlanks_of_eq hpast hafter hrest).ahead_eq hpast⟩
    · have hsteps : spelled.length ≤ (start.skipBlanks.advance 1).skipBlanks.ahead.length := by
        rw [List.length_map] at hlength
        rw [hinside, List.length_append]
        exact Nat.le_add_right_of_le hlength
      have hsome : (start.skipBlanks.advance 1).skipBlanks.peek? ≠ some Ascii.closeBrace :=
        hcons (by simpa using hspelled)
      obtain ⟨met, stop, hmet, hresults, hstop⟩ := exists_gives_entries .unterminatedObject
        (fun member hmem => reads_memberEntry (hnames member hmem) (hbodies member hmem))
        (fun member _ => member.isCore) hspelled hbody hsteps hinside hinsideAligned hafter hrest
      exact ⟨met, stop, gives_objectMembers_full hopening hsome hmet,
        List.forall₂_map_left_iff.mpr hresults, hstop⟩
  | _ => cases htree

theorem exists_gives_arrayValues {items : List Tree} {text : Bytes}
    (h : Spells looseLexicon (.array items) text) {start : Cursor}
    (hahead : start.ahead = text) (haligned : start.ahead.IsAligned) :
    ∃ spans stop, Gives arrayValues start spans stop ∧ List.Forall₂ Captures items spans := by
  generalize htree : Tree.array items = tree at h
  cases h with
  | @array spelled inner hitems hjoined =>
    cases htree
    have hcores : ∀ core ∈ spelled.map Prod.snd, IsCore core := by
      intro core hmem
      obtain ⟨item, hitem, rfl⟩ := List.mem_map.mp hmem
      exact (hitems item hitem).isCore
    obtain ⟨hopening, body, hbody, hlength, hnil, hinside, hcons, hinsideAligned⟩ :=
      hjoined.exists_ahead .array hcores (show start.ahead
        = [] ++ ((Ascii.openBracket :: inner ++ [Ascii.closeBracket]) ++ []) by simp [hahead])
        haligned isBlankText_nil
    have hstart : Gives arrayStart start ((start.skipBlanks.advance 1).skipBlanks.peek?
        == some Ascii.closeBracket) (start.skipBlanks.advance 1).skipBlanks := by
      simp only [arrayStart, gives_bind, gives_skipBlanks, gives_get]
      refine ⟨(), _, rfl, _, _, ⟨rfl, rfl⟩, ?_⟩
      rw [if_pos (show _ = some Ascii.openBracket from hopening)]
      simp only [gives_bind, gives_move, gives_skipBlanks, gives_get, gives_pure]
      exact ⟨(), _, rfl, (), _, rfl, _, _, ⟨rfl, rfl⟩, rfl, rfl⟩
    by_cases hspelled : spelled = []
    · subst hspelled
      refine ⟨[], (start.skipBlanks.advance 1).skipBlanks,
        gives_bind.mpr ⟨_, _, hstart, ?_⟩, .nil⟩
      rw [if_pos (by rw [Cursor.peek?, hinside, hnil rfl]; rfl)]
      exact gives_pure.mpr ⟨rfl, rfl⟩
    · have hsteps : spelled.length ≤ (start.skipBlanks.advance 1).skipBlanks.ahead.length := by
        rw [List.length_map] at hlength
        rw [hinside, List.length_append]
        exact Nat.le_add_right_of_le hlength
      have hsome : (start.skipBlanks.advance 1).skipBlanks.peek? ≠ some Ascii.closeBracket :=
        hcons (by simpa using hspelled)
      have hend : (start.skipBlanks.advance 1).skipBlanks.ahead
          = body ++ Container.array.closing :: ([] ++ []) := hinside
      obtain ⟨spans, stop, hspans, hresults, -⟩ := exists_gives_entries .unterminatedArray
        (fun item hmem => reads_value (hitems item hmem)) (fun item hmem => (hitems item hmem).isCore)
        hspelled hbody hsteps hend hinsideAligned isBlankText_nil
        (show startsUnblank [] by simp [startsUnblank])
      refine ⟨spans, stop, gives_bind.mpr ⟨_, _, hstart, ?_⟩,
        List.forall₂_map_left_iff.mpr hresults⟩
      rw [beq_eq_false_iff_ne.mpr hsome]
      exact gives_bind.mpr ⟨_, _, gives_get.mpr ⟨rfl, rfl⟩, hspans⟩
  | _ => cases htree

end Scan

end SchemaJson
