import SchemaJson.Proofs.ParallelScans

/-! The same text at two places. Scanning it finds the same values at either place, and decoding it
gives the same result but for the offsets in errors. -/

namespace SchemaJson

def Error.withoutOffset : Error → Error
  | name fault _ => name fault 0
  | structural fault _ => structural fault 0
  | classStart className _ => classStart className 0
  | invalidValue member expected text _ => invalidValue member expected text 0
  | error => error

/-- The errors differ in their offsets at most. -/
def Error.Alike (error error' : Error) : Prop := error'.withoutOffset = error.withoutOffset

/-- The spans differ in their offsets at most. -/
structure Span.Alike (span span' : Span) : Prop where
  text : span'.text = span.text
  shape : span'.shape = span.shape

/-- Members of the same name whose values are alike. -/
def MemberAlike (member member' : Bytes × Span) : Prop :=
  member'.1 = member.1 ∧ member.2.Alike member'.2

namespace Scan

variable {α β : Type} {R : α → β → Prop}

/-- Related results or failures that are alike, with the same text ahead in either case. -/
inductive OutcomeAlike (R : α → β → Prop) : Except Error α × Cursor → Except Error β × Cursor → Prop
  | ok {a : α} {b : β} {stop stop' : Cursor} : R a b → stop'.ahead = stop.ahead →
      OutcomeAlike R (.ok a, stop) (.ok b, stop')
  | error {error error' : Error} {stop stop' : Cursor} : error.Alike error' →
      stop'.ahead = stop.ahead → OutcomeAlike R (.error error, stop) (.error error', stop')

theorem OutcomeAlike.inStep {first : Except Error α × Cursor} {second : Except Error β × Cursor}
    (h : OutcomeAlike R first second) :
    InStep (fun _ => False) Error.Alike R first.1 second.1 := by
  cases h with
  | ok hab => exact .ok hab
  | error halike => exact .error halike

/-- With the same text ahead the two steps do alike. -/
def Alike (R : α → β → Prop) (step : Scan α) (step' : Scan β) : Prop :=
  ∀ start start' : Cursor, start'.ahead = start.ahead →
    OutcomeAlike R (outcome step start) (outcome step' start')

/-- Cursors that have nothing but the text ahead in common. -/
def sameText : Pairing where
  cursors cursor cursor' := cursor'.ahead = cursor.ahead
  spans := Span.Alike
  errors := Error.Alike
  ahead h := h
  advance count h := congrArg (List.drop count) h
  separated _ h := h
  text h := h.text
  capture {cursor cursor'} skipped length shape h :=
    ⟨by rw [Cursor.capture, Cursor.capture, h], rfl⟩
  structural _ _ := rfl
  name _ _ := rfl
  classStart _ _ := rfl

theorem alike_of_steps {step : Scan α} {step' : Scan β} (h : sameText.Steps R step step') :
    Alike R step step' := by
  intro start start' hahead
  have houtcome := h start start' hahead
  generalize outcome step start = first, outcome step' start' = second at houtcome ⊢
  cases houtcome with
  | ok hab hstop => exact .ok hab hstop
  | error halike hstop => exact .error halike hstop

theorem Alike.memberTexts (table : MemberTable) (className : String) :
    Alike (List.Forall₂ (Option.Rel Span.Alike)) (Scan.memberTexts table className)
      (Scan.memberTexts table className) :=
  alike_of_steps (Pairing.Steps.memberTexts table className)

/-- The walks meet values that are alike, and break off for reasons that are. -/
def WalksAlike (walk walk' : List Span × Option Error) : Prop :=
  List.Forall₂ Span.Alike walk.1 walk'.1 ∧ Option.Rel Error.Alike walk.2 walk'.2

theorem arrayElements_alike {start start' : Cursor} (h : start'.ahead = start.ahead) :
    WalksAlike (arrayElements.run start).1 (arrayElements.run start').1 := by
  have hwalks : sameText.Walks (arrayElements.run start).1 (arrayElements.run start').1 :=
    Pairing.walks_arrayElements h
  exact hwalks

end Scan

/-- The same text decoded at two places, to the same depth. -/
def shiftedDecoding : Comparison where
  stops _ := False
  alike := Error.Alike
  met _ span context span' context' := span.Alike span' ∧ context' = context
  opened _ span context span' context' := span.Alike span' ∧ context' = context
  plain _ := rfl
  keeps h := ⟨h.1.text, h.1.shape⟩
  invalid label tag h := by
    rw [Error.Alike, Span.invalid, Span.invalid, h.1.text]
    rfl
  deeper := by
    rintro _ span context span' _ ⟨hspan, rfl⟩
    rw [Context.deeper, Context.deeper]
    split
    · exact .ok ⟨hspan, rfl⟩
    · exact .error rfl
  elements := by
    rintro _ _ _ _ _ ⟨hspan, rfl⟩ _
    obtain ⟨hspans, hfault⟩ := Scan.arrayElements_alike
      (show (Cursor.ofSpan _).ahead = (Cursor.ofSpan _).ahead from hspan.text)
    exact ⟨hspans.imp fun _ _ hitem => ⟨hitem, rfl⟩, hfault⟩
  members table className h := by
    obtain ⟨hspan, rfl⟩ := h
    have hwalk := Scan.Alike.memberTexts table className (.ofSpan _) (.ofSpan _) hspan.text
    refine hwalk.inStep.mono fun given given' hgiven => hgiven.imp fun _ _ hvalue => ?_
    exact rel_mono hvalue fun _ _ halike => ⟨halike, rfl⟩

theorem shiftedDecoding_reads (catalog : Catalog) (levels : Nat) :
    shiftedDecoding.Reads levels (catalog.reader levels) (catalog.reader levels) := by
  refine Comparison.reads_reader catalog 0 ⟨fun typeName {_ _ _ _} hopened => ?_, rfl⟩ levels
  obtain ⟨-, rfl⟩ := hopened
  exact .error rfl

end SchemaJson
