import SchemaJson.Proofs.ParallelScans

/-! The same text further on in a document, and one level deeper. Decoding it there with one more level
allowed gives the same values and the same failures, which tell of their own place and limit. -/

namespace SchemaJson

/-- The failure as it is met so much further on, where one more level is allowed. -/
def Error.moved (distance : Nat) : Error → Error
  | name fault offset => name fault (offset + distance)
  | structural (.depthExceeded limit) offset =>
    structural (.depthExceeded (limit + 1)) (offset + distance)
  | structural fault offset => structural fault (offset + distance)
  | classStart className offset => classStart className (offset + distance)
  | invalidValue member expected text offset => invalidValue member expected text (offset + distance)
  | error => error

def Span.moved (distance : Nat) (span : Span) : Span :=
  { span with offset := span.offset + distance }

/-- The same number of levels is left in the other context. -/
structure Context.IsLowered (context context' : Context) : Prop where
  depth : context'.depth = context.depth + 1
  maxDepth : context'.maxDepth = context.maxDepth + 1

variable {distance : Nat}

theorem Error.moved_structural {fault : StructureFault} {offset : Nat}
    (h : ∀ limit, fault ≠ .depthExceeded limit) :
    (structural fault offset).moved distance = structural fault (offset + distance) := by
  cases fault with
  | depthExceeded limit => exact absurd rfl (h limit)
  | _ => rfl

theorem Error.moved_eq {error : Error} (h : error.offset? = none) : error.moved distance = error := by
  cases error with
  | name => simp [offset?] at h
  | structural => simp [offset?] at h
  | classStart => simp [offset?] at h
  | invalidValue => simp [offset?] at h
  | _ => rfl

/-- The same text is ahead of the other cursor, so much further on. -/
structure Cursor.IsMoved (distance : Nat) (cursor cursor' : Cursor) : Prop where
  ahead : cursor'.ahead = cursor.ahead
  offset : cursor'.offset = cursor.offset + distance

namespace Cursor

variable {cursor cursor' : Cursor}

theorem offset_advance (cursor : Cursor) (count : Nat) :
    (cursor.advance count).offset = cursor.offset + (cursor.ahead.take count).length := by
  simp [offset, advance, Nat.add_assoc]

theorem IsMoved.advance (h : cursor.IsMoved distance cursor') (count : Nat) :
    (cursor.advance count).IsMoved distance (cursor'.advance count) := by
  constructor
  · rw [ahead_advance, ahead_advance, h.ahead]
  · rw [offset_advance, offset_advance, h.ahead, h.offset]
    omega

theorem IsMoved.capture_eq (h : cursor.IsMoved distance cursor') (skipped length : Nat)
    (shape : Shape) : cursor'.capture skipped length shape
      = (cursor.capture skipped length shape).moved distance := by
  simp only [capture, Span.moved, h.ahead, h.offset, Span.mk.injEq, true_and, and_true]
  omega

theorem isMoved_ofSpan (distance : Nat) (span : Span) :
    (ofSpan span).IsMoved distance (ofSpan (span.moved distance)) := by
  constructor
  · rfl
  · simp [offset, ofSpan, Span.moved]

end Cursor

/-- The second scan goes over the same text so much further on. -/
def Scan.movedText (distance : Nat) : Pairing where
  cursors := Cursor.IsMoved distance
  spans span span' := span' = span.moved distance
  errors error error' := error' = error.moved distance
  ahead h := h.ahead
  advance count h := h.advance count
  separated _ h := ⟨h.ahead, h.offset⟩
  text h := by rw [h, Span.moved]
  capture skipped length shape h := h.capture_eq skipped length shape
  structural hfault h := by rw [Error.moved_structural hfault, h.offset]
  name fault h := by rw [h.offset, Error.moved]
  classStart className h := by rw [h.offset, Error.moved]

theorem Scan.walks_moved (distance : Nat) (span : Span) :
    (movedText distance).Walks (arrayElements.run (.ofSpan span)).1
      (arrayElements.run (.ofSpan (span.moved distance))).1 :=
  Pairing.walks_arrayElements (Cursor.isMoved_ofSpan distance span)

section Levels

variable {levels : Nat} {span span' : Span} {context context' : Context}

/-- A value and the same value further on and one level deeper. The classes that may lie in it have
levels enough left. -/
structure MetMoved (distance levels : Nat) (span : Span) (context : Context) (span' : Span)
    (context' : Context) : Prop where
  moved : span' = span.moved distance
  lowered : context.IsLowered context'
  enough : context.maxDepth ≤ context.depth + levels

/-- A container and the same container further on and one level deeper, in contexts of their own. -/
structure OpenedMoved (distance levels : Nat) (span : Span) (context : Context) (span' : Span)
    (context' : Context) : Prop where
  moved : span' = span.moved distance
  lowered : context.IsLowered context'
  enough : context.maxDepth + 1 ≤ context.depth + levels
  allowed : context.depth ≤ context.maxDepth

theorem MetMoved.deeper (h : MetMoved distance levels span context span' context') :
    InStep (fun _ => False) (fun error error' => error' = error.moved distance)
      (fun inner inner' => OpenedMoved distance levels span inner span' inner')
      (context.deeper span.offset) (context'.deeper span'.offset) := by
  obtain ⟨rfl, ⟨hdepth, hmax⟩, henough⟩ := h
  rw [Context.deeper, Context.deeper]
  by_cases hlt : context.depth < context.maxDepth
  · have hlt' : context'.depth < context'.maxDepth := by omega
    rw [if_pos hlt, if_pos hlt']
    refine .ok ⟨rfl, ⟨?_, hmax⟩, ?_, ?_⟩
    · simp [hdepth]
    · dsimp only
      omega
    · exact hlt
  · have hlt' : ¬ context'.depth < context'.maxDepth := by omega
    rw [if_neg hlt, if_neg hlt', hmax]
    exact .error rfl

theorem OpenedMoved.met (h : OpenedMoved distance levels span context span' context')
    {item item' : Span} (hitem : item' = item.moved distance) :
    MetMoved distance levels item context item' context' := by
  have henough := h.enough
  exact ⟨hitem, h.lowered, by omega⟩

theorem OpenedMoved.met_member (h : OpenedMoved distance (levels + 1) span context span' context')
    {item item' : Span} (hitem : item' = item.moved distance) :
    MetMoved distance levels item context item' context' := by
  have henough := h.enough
  exact ⟨hitem, h.lowered, by omega⟩

theorem OpenedMoved.memberTexts (h : OpenedMoved distance levels span context span' context')
    (table : MemberTable) (className : String) :
    (Scan.movedText distance).Outcomes
      (List.Forall₂ (Option.Rel fun value value' => value' = value.moved distance))
      (Scan.outcome (Scan.memberTexts table className) (.ofSpan span))
      (Scan.outcome (Scan.memberTexts table className) (.ofSpan span')) := by
  rw [h.moved]
  exact Scan.Pairing.Steps.memberTexts table className _ _ (Cursor.isMoved_ofSpan distance span)

end Levels

/-- A text and the same text further on and one level deeper. -/
def movedDecoding (distance : Nat) : Comparison where
  stops _ := False
  alike error error' := error' = error.moved distance
  met := MetMoved distance
  opened := OpenedMoved distance
  plain h := (Error.moved_eq h).symm
  keeps h := by
    rw [h.moved]
    exact ⟨rfl, rfl⟩
  invalid label tag h := by
    rw [h.moved]
    rfl
  deeper h := h.deeper
  elements {_ span _ _ _} h _ := by
    obtain ⟨hspans, hfault⟩ := Scan.walks_moved distance span
    rw [h.moved]
    exact ⟨hspans.imp fun _ _ hitem => h.met hitem, hfault⟩
  members table className h := (h.memberTexts table className).inStep.mono fun _ _ hgiven =>
    hgiven.imp fun _ _ hvalue => rel_mono hvalue fun _ _ hitem => h.met_member hitem

/-- The second reader has one level more, and needs it for nothing. -/
theorem movedDecoding_reads (catalog : Catalog) (levels : Nat) :
    (movedDecoding distance).Reads levels (catalog.reader levels) (catalog.reader (levels + 1)) := by
  refine Comparison.reads_reader catalog 1 ⟨fun typeName {_ _ _ _} hopened => ?_, rfl⟩ levels
  have henough := hopened.enough
  have hallowed := hopened.allowed
  omega

/-- The elements of a root array are as deep below it as those of an array one level deeper. -/
theorem moved_growable_in_step (catalog : Catalog) (element : ArgType) (tag : Tag) (label : Bytes)
    (span : Span) (limit : Nat) :
    InStep (fun _ => False) (fun error error' => error' = error.moved distance) Eq
      ((ArgType.growable element).build (catalog.reader limit)
        (.array ⟨span, tag, label, .root limit⟩))
      ((ArgType.growable element).build (catalog.reader (limit + 1))
        (.array ⟨span.moved distance, tag, label, ⟨1, limit + 1⟩⟩)) := by
  have hclasses : (movedDecoding distance).Reads limit _ _ := movedDecoding_reads catalog limit
  obtain ⟨hspans, hfault⟩ := Scan.walks_moved distance span
  have hlowered : (Context.root limit).IsLowered ⟨1, limit + 1⟩ := ⟨rfl, rfl⟩
  have hmet := hspans.imp fun item item' hitem =>
    show (movedDecoding distance).met limit item (.root limit) item' ⟨1, limit + 1⟩ from
      ⟨hitem, hlowered, Nat.le_add_left limit 0⟩
  have hitems : List.Forall₂ _
      (ArrayView.items (catalog.reader limit) ⟨span, tag, label, .root limit⟩)
      (ArrayView.items (catalog.reader (limit + 1))
        ⟨span.moved distance, tag, label, ⟨1, limit + 1⟩⟩) :=
    Comparison.items_in_step_of_spans hclasses rfl rfl hmet hfault
  simp only [ArgType.build, ArrayView.fields_eq_untilError]
  have hlist := Comparison.readAll_in_step (Comparison.build_in_step hclasses element) hitems
  exact hlist.map fun _ _ hlist => congrArg Value.list hlist

end SchemaJson
