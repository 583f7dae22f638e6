import SchemaJson.Proofs.ArrayGrammar
import SchemaJson.Proofs.ObjectGrammar
import SchemaJson.Proofs.Sequences

/-! The two notions of where a nested container ends. A span is captured by pairing brackets outside
quotes; the walk over its entries cuts unquoted values at the first separator. The walk uses up the
span exactly when what it passes over is balanced, and for that some of its values have to be. -/

namespace SchemaJson

/-- Of a text that ends with the bracket that matches its first one, no other part from the front
is balanced. -/
theorem IsBalanced.eq_nil_of_append {container : Container} {inner raw rest : Bytes}
    (hinner : IsBalanced container inner) (hraw : IsBalanced container raw) (hne : raw ≠ [])
    (h : container.opening :: inner ++ [container.closing] = raw ++ rest) : rest = [] := by
  rcases List.eq_nil_or_concat rest with hnil | ⟨middle, last, rfl⟩
  · exact hnil
  · exfalso
    rw [List.concat_eq_append, ← List.append_assoc] at h
    obtain ⟨h, -⟩ := List.append_inj' h rfl
    cases raw with
    | nil => exact hne rfl
    | cons byte front =>
      obtain ⟨rfl, rfl⟩ := List.cons.inj h
      have hopen : Nesting.run? container ⟨1, false, false⟩ [container.opening]
          = some ⟨2, false, false⟩ := by
        cases container <;> rfl
      rw [IsBalanced] at hinner hraw
      rw [← List.singleton_append, Nesting.run?_append_of_eq hopen] at hraw
      rw [List.append_eq, Nesting.run?_append] at hinner
      obtain ⟨stop, hfront, -⟩ := Option.bind_eq_some_iff.mp hinner
      have hdepth := Nesting.one_le_depth_of_run? hfront (Nat.le_refl 1)
      have hdeeper : Nesting.run? container ⟨2, false, false⟩ front
          = some { stop with depth := stop.depth + 1 } := Nesting.run?_deeper hfront 1
      have hone : 1 = stop.depth + 1 :=
        congrArg Nesting.depth (Option.some.inj (hraw.symm.trans hdeeper))
      omega

/-- The text of a container at the front of a captured one is all of it exactly if it is balanced. -/
theorem IsBalanced.eq_iff_of_append {container : Container} {inner raw rest text : Bytes}
    (hinner : IsBalanced container inner) (hne : raw ≠ [])
    (htext : text = container.opening :: inner ++ [container.closing]) (h : text = raw ++ rest) :
    raw = text ↔ IsBalanced container raw := by
  constructor
  · intro hwhole
    rw [hwhole, htext]
    exact hinner.bracketed
  · intro hraw
    rw [h, hinner.eq_nil_of_append hraw hne (htext.symm.trans h), List.append_nil]

theorem IsFound.exists_inner {container : Container} {raw rest text : Bytes}
    (h : IsFound raw rest container.shape text) :
    ∃ inner, text = container.opening :: inner ++ [container.closing] ∧
      IsBalanced container inner := by
  generalize hshape : container.shape = shape at h
  cases h with
  | string => cases container <;> cases hshape
  | bracketed other hinner =>
    have hsame : container = other := by
      cases container <;> cases other <;> first | rfl | cases hshape
    subst hsame
    exact ⟨_, rfl, hinner⟩
  | literal => cases container <;> cases hshape

/-- A search for a closing bracket of the container's kind passes over the value. It does so over
strings and containers of the same kind; any other value has to close its quotes and pair up the
brackets of that kind. -/
def Span.IsBalanced (container : Container) (span : Span) : Prop :=
  span.shape = .string ∨ span.shape = container.shape ∨ SchemaJson.IsBalanced container span.text

instance (container : Container) (span : Span) : Decidable (span.IsBalanced container) :=
  inferInstanceAs (Decidable (_ ∨ _ ∨ _))

namespace IsFound

variable {container : Container} {raw rest text : Bytes} {shape : Shape}

theorem isBalanced_of_string (h : IsFound raw rest .string text) : IsBalanced container raw := by
  generalize hshape : Shape.string = shape at h
  cases h with
  | string hcontent => exact .quoted hcontent
  | bracketed other => cases other <;> cases hshape
  | literal => cases hshape

theorem isBalanced_of_same (h : IsFound raw rest container.shape text) :
    IsBalanced container raw := by
  generalize hshape : container.shape = shape at h
  cases h with
  | string => cases container <;> cases hshape
  | bracketed other hinner =>
    have hsame : container = other := by
      cases container <;> cases other <;> first | rfl | cases hshape
    exact hsame ▸ hinner.bracketed
  | literal => cases container <;> cases hshape

theorem isBalanced_of_text (h : IsFound raw rest shape text) (htext : IsBalanced container text)
    (hshape : shape ≠ .string) : IsBalanced container raw := by
  cases h with
  | string => exact absurd rfl hshape
  | bracketed => exact htext
  | literal _ hblanks => exact htext.append (hblanks.isBalanced container)

theorem isBalanced {offset : Nat} (h : IsFound raw rest shape text)
    (hspan : Span.IsBalanced container ⟨text, offset, shape⟩) : IsBalanced container raw := by
  by_cases hstring : shape = .string
  · exact (hstring ▸ h).isBalanced_of_string
  rcases hspan with hshape | hshape | htext
  · exact absurd hshape hstring
  · exact isBalanced_of_same ((show shape = container.shape from hshape) ▸ h)
  · exact h.isBalanced_of_text htext hstring

end IsFound

theorem IsBalanced.enclosed {container : Container} {before body : Bytes}
    (hbody : IsBalanced container body) (hbefore : IsBlankText before) :
    IsBalanced container (before ++ container.opening :: (body ++ [container.closing])) :=
  (hbefore.isBalanced container).append hbody.bracketed

theorem isBalanced_comma (container : Container) : IsBalanced container [Ascii.comma] := by
  cases container <;> decide

theorem IsMemberText.isBalanced {offset : Nat} {raw rest : Bytes} {member : Bytes × Span}
    (h : IsMemberText offset raw rest member) (hvalue : member.2.IsBalanced .object) :
    IsBalanced .object raw := by
  obtain ⟨hname, hfound, hblanks⟩ := h
  exact (hname.isBalanced .object).append
    ((hfound.isBalanced hvalue).append (hblanks.isBalanced .object))

theorem IsMembersText.exists_body {offset : Nat} {raw rest : Bytes} {met : List (Bytes × Span)}
    (h : IsMembersText offset raw rest met) : ∃ body, raw = body ++ [Ascii.closeBrace] ∧
      ((∀ member ∈ met, member.2.IsBalanced .object) → IsBalanced .object body) := by
  induction h with
  | last hmember => exact ⟨_, rfl, fun hmet => hmember.isBalanced (hmet _ (by simp))⟩
  | @cons _ front _ _ _ _ hmember _ ih =>
    obtain ⟨body, rfl, hbody⟩ := ih
    refine ⟨front ++ ([Ascii.comma] ++ body), by simp, fun hmet => ?_⟩
    obtain ⟨hfirst, hrest⟩ := List.forall_mem_cons.mp hmet
    exact (hmember.isBalanced hfirst).append ((isBalanced_comma .object).append (hbody hrest))

theorem IsObjectText.isBalanced {offset : Nat} {raw rest : Bytes} {met : List (Bytes × Span)}
    (h : IsObjectText offset raw rest met) (hmet : ∀ member ∈ met, member.2.IsBalanced .object) :
    IsBalanced .object raw := by
  cases h with
  | empty hbefore hinside => exact (hinside.isBalanced .object).enclosed hbefore
  | full hbefore hmembers =>
    obtain ⟨body, rfl, hbody⟩ := hmembers.exists_body
    exact (hbody hmet).enclosed hbefore

theorem IsElementText.isBalanced {offset : Nat} {raw rest : Bytes} {element : Span}
    (h : IsElementText offset raw rest element) (hvalue : element.IsBalanced .array) :
    IsBalanced .array raw := by
  obtain ⟨hbefore, hfound, hblanks⟩ := h
  exact (hbefore.isBalanced .array).append
    ((hfound.isBalanced hvalue).append (hblanks.isBalanced .array))

theorem IsElementsText.exists_body {offset : Nat} {raw rest : Bytes} {elements : List Span}
    (h : IsElementsText offset raw rest elements) : ∃ body, raw = body ++ [Ascii.closeBracket] ∧
      ((∀ element ∈ elements, element.IsBalanced .array) → IsBalanced .array body) := by
  induction h with
  | last helement => exact ⟨_, rfl, fun helements => helement.isBalanced (helements _ (by simp))⟩
  | @cons _ front _ _ _ _ helement _ ih =>
    obtain ⟨body, rfl, hbody⟩ := ih
    refine ⟨front ++ ([Ascii.comma] ++ body), by simp, fun helements => ?_⟩
    obtain ⟨hfirst, hrest⟩ := List.forall_mem_cons.mp helements
    exact (helement.isBalanced hfirst).append ((isBalanced_comma .array).append (hbody hrest))

theorem IsArrayText.isBalanced {offset : Nat} {raw rest : Bytes} {elements : List Span}
    (h : IsArrayText offset raw rest elements)
    (helements : ∀ element ∈ elements, element.IsBalanced .array) : IsBalanced .array raw := by
  cases h with
  | empty hbefore hinside => exact (hinside.isBalanced .array).enclosed hbefore
  | full hbefore hmore =>
    obtain ⟨body, rfl, hbody⟩ := hmore.exists_body
    exact (hbody helements).enclosed hbefore

theorem IsObjectText.ne_nil {offset : Nat} {raw rest : Bytes} {met : List (Bytes × Span)}
    (h : IsObjectText offset raw rest met) : raw ≠ [] := by
  cases h <;> simp

theorem IsArrayText.ne_nil {offset : Nat} {raw rest : Bytes} {elements : List Span}
    (h : IsArrayText offset raw rest elements) : raw ≠ [] := by
  cases h <;> simp

theorem ArgType.exists_spans_of_build_growable {classes : ClassReader} {element : ArgType}
    {view : ArrayView} {built : Value}
    (h : (growable element).build classes (.array view) = .ok built) :
    ∃ spans, view.spans = (spans, none) := by
  simp only [build, Sequence.growable] at h
  cases hread : (Sequence.readAll ((view.fields classes).map fun item =>
      item.bind (element.build classes))).2 with
  | error error =>
    rw [hread] at h
    cases h
  | ok list =>
    obtain ⟨fields, hfields, -⟩ :=
      exists_of_map_bind_eq_map_ok (Sequence.readAll_eq_ok_iff.mp hread)
    rcases hspans : view.spans with ⟨spans, _ | fault⟩
    · exact ⟨spans, rfl⟩
    · rw [ArrayView.fields, hspans, ArrayView.untilError_eq_map_ok_iff] at hfields
      have hmem : (.error fault : Except Error Field) ∈ fields.map .ok := by
        rw [← hfields]
        simp
      simp at hmem

/-- The whole text lies behind the cursor. -/
def Cursor.IsSpent (cursor : Cursor) : Prop :=
  cursor.ahead = [] ∧ cursor.index = cursor.text.length

/-- Blanks at the end of what a cursor passed over do not belong to a captured container. -/
theorem Cursor.Passes.isSpent_iff {container : Container} {span : Span} {inner raw blanks : Bytes}
    {stop : Cursor} (h : (Cursor.ofSpan span).Passes (raw ++ blanks) stop)
    (hblanks : IsBlankText blanks)
    (htext : span.text = container.opening :: inner ++ [container.closing]) :
    stop.IsSpent ↔ raw = span.text := by
  have hsplit : span.text = raw ++ blanks ++ stop.ahead := h.ahead
  have hindex : stop.index = (raw ++ blanks).length := by
    rw [h.index, Cursor.ofSpan, Nat.zero_add]
  have hwhole : stop.text = span.text := h.text
  constructor
  · rintro ⟨hahead, -⟩
    rw [hahead, List.append_nil] at hsplit
    rcases List.eq_nil_or_concat blanks with rfl | ⟨front, last, rfl⟩
    · rw [hsplit, List.append_nil]
    · exfalso
      rw [htext, List.concat_eq_append, ← List.append_assoc] at hsplit
      have hlast := (List.append_inj' hsplit rfl).2
      have hblank := hblanks last (by simp)
      rw [← List.singleton_inj.mp hlast] at hblank
      cases container <;> cases hblank
  · intro hraw
    rw [← hraw, List.append_assoc, List.self_eq_append_right, List.append_eq_nil_iff] at hsplit
    refine ⟨hsplit.2, ?_⟩
    rw [hindex, hwhole, hsplit.1, List.append_nil, hraw]

/-- A nested object that decodes, or a nested array all of whose elements are built, is walked over
up to the bracket that ends its text. The bracket is the one that the span was captured up to exactly
when that text is balanced, and it is so when the values the walk met are. Then the walk has used up
the span, but for the closing bracket of an array without elements, in front of which it stops. -/
theorem nested_walk_spends_span {start after : Cursor} {span : Span}
    (haligned : start.ahead.IsAligned) (hspan : Scan.Gives Scan.value start span after) :
    (∀ classes schema context stored stop, span.shape = .object →
      Scan.Gives (Schema.readObject classes schema context) (.ofSpan span) stored stop →
      ∃ raw rest met, Scan.Gives (Scan.objectMembers schema.className) (.ofSpan span) met stop ∧
        span.text = raw ++ rest ∧ IsObjectText span.offset raw rest met ∧
        (raw = span.text ↔ IsBalanced .object raw) ∧
        ((∀ member ∈ met, member.2.IsBalanced .object) → raw = span.text) ∧
        (stop.IsSpent ↔ raw = span.text)) ∧
    (∀ classes element view built, view.span = span → span.shape = .array →
      (ArgType.growable element).build classes (.array view) = .ok built →
      ∃ raw rest values stop, Scan.arrayElements.run (.ofSpan span) = ((values, none), stop) ∧
        span.text = raw ++ rest ∧ IsArrayText span.offset raw rest values ∧
        (raw = span.text ↔ IsBalanced .array raw) ∧
        ((∀ value ∈ values, value.IsBalanced .array) → raw = span.text) ∧
        (values ≠ [] → (stop.IsSpent ↔ raw = span.text)) ∧
        (values = [] → stop.ahead = [Ascii.closeBracket])) := by
  obtain ⟨blanks, found, hpasses, hblanks, hfound, -⟩ := hspan.exists_isFound haligned
  rw [hpasses.ahead, List.append_assoc] at haligned
  have hinside := hfound.aligned_text (haligned.after_blanks hblanks)
  constructor
  · intro classes schema context stored stop hshape hread
    obtain ⟨inner, htext, hinner⟩ :=
      IsFound.exists_inner (show IsFound _ _ Container.object.shape _ from hshape ▸ hfound)
    simp only [Schema.readObject, Scan.memberTexts_eq, Scan.gives_bind, Scan.gives_map] at hread
    obtain ⟨given, middle, ⟨met, hmet, -⟩, hargs⟩ := hread
    obtain ⟨-, rfl⟩ := Scan.gives_lift.mp hargs
    obtain ⟨raw, behind, hwalk, hobject, hbehind, -⟩ := hmet.exists_isObjectText hinside
    have hsplit : span.text = raw ++ (behind ++ middle.ahead) := by
      rw [← List.append_assoc]
      exact hwalk.ahead
    have hwhole := hinner.eq_iff_of_append hobject.ne_nil htext hsplit
    exact ⟨raw, _, met, hmet, hsplit, hobject, hwhole,
      fun hvalues => hwhole.mpr (hobject.isBalanced hvalues), hwalk.isSpent_iff hbehind htext⟩
  · rintro classes element view built rfl hshape hbuilt
    obtain ⟨inner, htext, hinner⟩ :=
      IsFound.exists_inner (show IsFound _ _ Container.array.shape _ from hshape ▸ hfound)
    obtain ⟨values, hvalues⟩ := ArgType.exists_spans_of_build_growable hbuilt
    rcases hrun : Scan.arrayElements.run (.ofSpan view.span) with ⟨_, stop⟩
    have hrun' : Scan.arrayElements.run (.ofSpan view.span) = ((values, none), stop) := by
      rw [hrun, ← hvalues, ArrayView.spans, hrun]
    obtain ⟨raw, rest, hsplit, harray, hempty, hsome⟩ :=
      (Scan.run_arrayElements_iff.mp hrun').exists_isArrayText hinside
    have hwhole := hinner.eq_iff_of_append harray.ne_nil htext hsplit
    refine ⟨raw, rest, values, stop, hrun ▸ hrun', hsplit, harray, hwhole,
      fun helements => hwhole.mpr (harray.isBalanced helements), fun hmet => ?_, fun hnone => ?_⟩
    · obtain ⟨behind, hwalk, hbehind⟩ := hsome hmet
      exact hwalk.isSpent_iff hbehind htext
    · -- Without elements there is nothing to balance, so nothing is left behind the bracket.
      subst hnone
      have hrest := hinner.eq_nil_of_append (harray.isBalanced (by simp)) harray.ne_nil
        (htext.symm.trans hsplit)
      rw [hempty rfl, hrest]

/-- A class whose only member is a truth value. -/
def flagSchema : Schema :=
  ⟨"Flag", ⟨[Member.ofString "a" .bool]⟩, ⟨.direct, [.scalar .bool]⟩⟩

def noteSchema : Schema :=
  ⟨"Note", ⟨[Member.ofString "a" .bool, Member.ofString "s" .string]⟩,
    ⟨.direct, [.scalar .bool, .scalar .text]⟩⟩

def noClasses : ClassReader where
  read := fun typeName _ _ => .error (.build (.unknownClass typeName))
  blank := fun _ => []

def flagArray (text : String) : ArrayView :=
  ⟨⟨Bytes.ofString text, 0, .array⟩, .bool, [], .root 1⟩

/-- Strings with brackets, an object and an array that the class does not declare, and a literal. -/
def noteText : Bytes :=
  Bytes.ofString ("\x7b \"s\":\"]\x7d\\\"\x7b\", \"o\":\x7b\"b\":[\"\x7d\"]\x7d,"
    ++ " \"x\":[1,\"]\"], \"a\":true \x7d")

/-- Arrays of strings with brackets. -/
def textRows : ArrayView :=
  ⟨⟨Bytes.ofString "[[\"]\",\"\\\"[\"], [] ,[\"\x7d\"]]", 0, .array⟩, .array .string, [], .root 2⟩

theorem notes_and_rows_spend_spans :
    (∃ stop, Scan.Gives (noteSchema.readObject noClasses (.root 1))
      (.ofSpan ⟨noteText, 0, .object⟩)
      [.scalar (.bool true), .scalar (.text (Bytes.ofString "]\x7d\\\"\x7b"))] stop ∧
      stop.IsSpent) ∧
    ∃ values stop, Scan.arrayElements.run (.ofSpan textRows.span) = ((values, none), stop) ∧
      values.map Span.text = [Bytes.ofString "[\"]\",\"\\\"[\"]", Bytes.ofString "[]",
        Bytes.ofString "[\"\x7d\"]"] ∧ stop.IsSpent := by
  constructor
  · have hspan : Scan.Gives Scan.value (.ofText noteText) ⟨noteText, 0, .object⟩ _ := rfl
    have hparts := nested_walk_spends_span (Bytes.isAligned_ofString _) hspan
    have hread : Scan.Gives (noteSchema.readObject noClasses (.root 1))
        (.ofSpan ⟨noteText, 0, .object⟩)
        [.scalar (.bool true), .scalar (.text (Bytes.ofString "]\x7d\\\"\x7b"))] _ := rfl
    obtain ⟨raw, rest, met, hwalk, -, -, -, hwhole, hspent⟩ :=
      hparts.1 noClasses noteSchema (.root 1) _ _ rfl hread
    refine ⟨_, hread, hspent.mpr (hwhole ?_)⟩
    cases hwalk
    decide
  · have hspan : Scan.Gives Scan.value (.ofText textRows.span.text) textRows.span _ := rfl
    have hparts := nested_walk_spends_span (Bytes.isAligned_ofString _) hspan
    obtain ⟨raw, rest, values, stop, hrun, -, -, -, hwhole, hspent, -⟩ :=
      hparts.2 noClasses (.growable (.scalar .text)) textRows _ rfl rfl rfl
    cases hrun
    exact ⟨_, _, rfl, rfl, (hspent (by decide)).mpr (hwhole (by decide))⟩

/-- A quote inside an unquoted value hides a bracket from the search for the end but not from the
walk, and a brace inside an array counts for the search but not for the walk: `{"a":t"}"}`, `[t"]"]`
and `{"a":true,"x":[{]}}` are captured whole, decode to true, and leave one or two bytes. -/
theorem unbalanced_values_leave_text :
    (∃ span after stop, Scan.Gives Scan.value
        (.ofText (Bytes.ofString "\x7b\"a\":t\"\x7d\"\x7d")) span after ∧
      span.shape = .object ∧
      Scan.Gives (flagSchema.readObject noClasses (.root 1)) (.ofSpan span)
        [.scalar (.bool true)] stop ∧
      stop.ahead = Bytes.ofString "\"\x7d") ∧
    (∃ span after stop, Scan.Gives Scan.value (.ofText (Bytes.ofString "[t\"]\"]")) span after ∧
      (flagArray "[t\"]\"]").span = span ∧
      (ArgType.growable (.scalar .bool)).build noClasses (.array (flagArray "[t\"]\"]"))
        = .ok (.list [.scalar (.bool true)]) ∧
      (Scan.arrayElements.run (.ofSpan span)).2 = stop ∧ stop.ahead = Bytes.ofString "\"]") ∧
    ∃ span after stop, Scan.Gives Scan.value
        (.ofText (Bytes.ofString "\x7b\"a\":true,\"x\":[\x7b]\x7d\x7d")) span after ∧
      span.shape = .object ∧
      Scan.Gives (flagSchema.readObject noClasses (.root 1)) (.ofSpan span)
        [.scalar (.bool true)] stop ∧
      stop.ahead = Bytes.ofString "\x7d" :=
  ⟨⟨_, _, _, rfl, rfl, rfl, rfl⟩, ⟨_, _, _, rfl, rfl, rfl, rfl, rfl⟩, ⟨_, _, _, rfl, rfl, rfl, rfl⟩⟩

end SchemaJson
