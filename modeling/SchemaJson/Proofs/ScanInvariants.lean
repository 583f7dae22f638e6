import SchemaJson.Proofs.ParallelScans

/-! What a scan keeps. A scan next to itself shows what holds wherever it comes to, and of the spans
and failures that are made on the way. -/

namespace SchemaJson

/-- What a scan keeps of its cursor, with what that makes of the spans and errors it takes there. -/
structure ScanInvariant where
  cursor : Cursor → Prop
  span : Span → Prop
  error : Error → Prop
  advance : ∀ {start} (count : Nat), cursor start → cursor (start.advance count)
  separated : ∀ {start} (byte : UInt8), cursor start →
    cursor { start with latestSeparator := some byte }
  capture : ∀ {start} (skipped length : Nat) (shape : Shape), cursor start →
    span (start.capture skipped length shape)
  structural : ∀ {start} (fault : StructureFault), cursor start →
    error (.structural fault start.offset)
  name : ∀ {start} (fault : NameFault), cursor start → error (.name fault start.offset)
  classStart : ∀ {start} (className : String), cursor start →
    error (.classStart className start.offset)

namespace ScanInvariant

variable (invariant : ScanInvariant)

/-- The scan next to itself. -/
def pairing : Scan.Pairing where
  cursors cursor cursor' := cursor' = cursor ∧ invariant.cursor cursor
  spans span span' := span' = span ∧ invariant.span span
  errors error error' := error' = error ∧ invariant.error error
  ahead h := congrArg Cursor.ahead h.1
  advance count := by
    rintro ⟨rfl, hcursor⟩
    exact ⟨rfl, invariant.advance count hcursor⟩
  separated byte := by
    rintro ⟨rfl, hcursor⟩
    exact ⟨rfl, invariant.separated byte hcursor⟩
  text h := congrArg Span.text h.1
  capture skipped length shape := by
    rintro ⟨rfl, hcursor⟩
    exact ⟨rfl, invariant.capture skipped length shape hcursor⟩
  structural _ := by
    rintro ⟨rfl, hcursor⟩
    exact ⟨rfl, invariant.structural _ hcursor⟩
  name fault := by
    rintro ⟨rfl, hcursor⟩
    exact ⟨rfl, invariant.name fault hcursor⟩
  classStart className := by
    rintro ⟨rfl, hcursor⟩
    exact ⟨rfl, invariant.classStart className hcursor⟩

/-- A scan keeps the invariant, if it keeps step with itself. -/
def Keeps {α : Type} (R : α → α → Prop) (step : Scan α) : Prop :=
  invariant.pairing.Steps R step step

variable {invariant} {α : Type} {R : α → α → Prop} {step : Scan α} {start : Cursor}

theorem reports (fault : StructureFault) : invariant.pairing.Reports fault := by
  rintro _ _ ⟨rfl, hcursor⟩
  exact ⟨rfl, invariant.structural fault hcursor⟩

theorem Keeps.outcomes (h : invariant.Keeps R step) (hstart : invariant.cursor start) :
    invariant.pairing.Outcomes R (Scan.outcome step start) (Scan.outcome step start) :=
  h start start ⟨rfl, hstart⟩

theorem Keeps.cursor (h : invariant.Keeps R step) (hstart : invariant.cursor start) :
    invariant.cursor (Scan.outcome step start).2 := by
  have houtcomes := h.outcomes hstart
  generalize Scan.outcome step start = outcome at houtcomes ⊢
  cases houtcomes with
  | ok _ hstop => exact hstop.2
  | error _ hstop => exact hstop.2

theorem Keeps.result (h : invariant.Keeps R step) (hstart : invariant.cursor start) {a : α}
    (ha : (Scan.outcome step start).1 = .ok a) : R a a := by
  have houtcomes := h.outcomes hstart
  generalize Scan.outcome step start = outcome at houtcomes ha
  cases houtcomes with
  | ok hresult _ =>
    cases ha
    exact hresult
  | error _ _ => cases ha

theorem Keeps.error (h : invariant.Keeps R step) (hstart : invariant.cursor start) {error : Error}
    (herror : (Scan.outcome step start).1 = .error error) : invariant.error error := by
  have houtcomes := h.outcomes hstart
  generalize Scan.outcome step start = outcome at houtcomes herror
  cases houtcomes with
  | ok _ _ => cases herror
  | error herrors _ =>
    cases herror
    exact herrors.2

theorem span_of_memberTexts {given : List (Option Span)}
    (h : List.Forall₂ (Option.Rel invariant.pairing.spans) given given) :
    ∀ span, some span ∈ given → invariant.span span := by
  intro span hspan
  cases List.forall₂_same.mp h _ hspan with
  | some hspans => exact hspans.2

theorem span_of_arrayElements (hstart : invariant.cursor start) :
    ∀ span ∈ (Scan.arrayElements.run start).1.1, invariant.span span := by
  obtain ⟨hspans, -⟩ := Scan.Pairing.walks_arrayElements
    (show invariant.pairing.cursors start start from ⟨rfl, hstart⟩)
  exact fun span hspan => (List.forall₂_same.mp hspans span hspan).2

theorem error_of_arrayElements (hstart : invariant.cursor start) {error : Error}
    (herror : (Scan.arrayElements.run start).1.2 = some error) : invariant.error error := by
  obtain ⟨-, hfault⟩ := Scan.Pairing.walks_arrayElements
    (show invariant.pairing.cursors start start from ⟨rfl, hstart⟩)
  rw [herror] at hfault
  cases hfault with
  | some herrors => exact herrors.2

end ScanInvariant

end SchemaJson
