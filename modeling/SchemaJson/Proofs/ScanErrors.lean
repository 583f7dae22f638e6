import SchemaJson.Proofs.ScanInvariants

/-! Scanning fails over the text alone: whatever step breaks off reports what the structure of the
document lacks. -/

namespace SchemaJson

/-- Whether the error is about the structure of a document. -/
def Error.isSyntax : Error → Bool
  | name .. | structural .. | classStart .. => true
  | _ => false

/-- A failed result that is not about the structure is impossible. -/
def FailsOnSyntax {α : Type} (result : Except Error α) : Prop :=
  ∀ error, result = .error error → error.isSyntax = true

namespace Scan

variable {α β : Type}

/-- The step fails over the structure of the document only, wherever it is taken. -/
def IsSyntactic (step : Scan α) : Prop := ∀ start, FailsOnSyntax (outcome step start).1

/-- What a scan reports itself is a fault of the structure. -/
def syntactic : ScanInvariant where
  cursor _ := True
  span _ := True
  error error := error.isSyntax = true
  advance _ _ := trivial
  separated _ _ := trivial
  capture _ _ _ _ := trivial
  structural _ _ := rfl
  name _ _ := rfl
  classStart _ _ := rfl

namespace IsSyntactic

theorem bind {step : Scan α} {next : α → Scan β} (h : IsSyntactic step)
    (hnext : ∀ a, IsSyntactic (next a)) : IsSyntactic (step >>= next) := by
  intro start error herror
  rw [outcome_bind] at herror
  have hstep := h start
  rcases houtcome : outcome step start with ⟨_ | a, middle⟩
  · rw [houtcome] at herror hstep
    cases herror
    exact hstep error rfl
  · rw [houtcome] at herror
    exact hnext a middle error herror

theorem pure (a : α) : IsSyntactic (Pure.pure a : Scan α) := by
  intro start error herror
  cases herror

theorem of_keeps {R : α → α → Prop} {step : Scan α} (h : syntactic.Keeps R step) :
    IsSyntactic step :=
  fun _ _ herror => h.error trivial herror

theorem memberTexts (table : MemberTable) (className : String) :
    IsSyntactic (Scan.memberTexts table className) :=
  of_keeps (Pairing.Steps.memberTexts table className)

theorem finish (allowed : Bool) : IsSyntactic (Scan.finish allowed) :=
  of_keeps (Pairing.Steps.finish allowed)

theorem documentArray (allowTrailing : Bool) : IsSyntactic (Scan.documentArray allowTrailing) :=
  of_keeps (Pairing.Steps.documentArray allowTrailing)

end IsSyntactic

theorem isSyntax_of_arrayElements {start : Cursor} {error : Error}
    (h : (arrayElements.run start).1.2 = some error) : error.isSyntax = true := by
  have hstart : syntactic.cursor start := trivial
  exact ScanInvariant.error_of_arrayElements hstart h

end Scan

theorem ArrayView.ofDocument_failsOnSyntax (text : Bytes) (element : Tag) (options : ReadOptions) :
    FailsOnSyntax (ofDocument text element options) := by
  intro error herror
  have hfails := Scan.IsSyntactic.documentArray options.allowTrailing (.ofText text)
  rw [ofDocument_eq] at herror
  cases hdocument : (Scan.outcome (Scan.documentArray options.allowTrailing) (.ofText text)).1 with
  | ok span =>
    rw [hdocument] at herror
    cases herror
  | error fault =>
    rw [hdocument] at herror hfails
    cases herror
    exact hfails _ rfl

end SchemaJson
