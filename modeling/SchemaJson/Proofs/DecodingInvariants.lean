import SchemaJson.Proofs.PairedDecoding

/-! What a decoding keeps at every depth. An invariant of the spans that containers are cut into
holds of every span that is decoded, and every error comes from one of them. -/

namespace SchemaJson

/-- What a decoding keeps of everything it meets, and of the errors it fails with. -/
structure Invariant where
  fine : Error → Prop
  met : (levels : Nat) → Span → Context → Prop
  opened : (levels : Nat) → Span → Context → Prop
  plain : ∀ {error : Error}, error.offset? = none → fine error
  invalid : ∀ {levels span context} (label : Bytes) (tag : Tag),
    met levels span context → fine (span.invalid label tag)
  deeper : ∀ {levels span context}, met levels span context → context.depth < context.maxDepth →
    opened levels span { context with depth := context.depth + 1 }
  tooDeep : ∀ {levels span context}, met levels span context → context.maxDepth ≤ context.depth →
    fine (.structural (.depthExceeded context.maxDepth) span.offset)
  zero : ∀ {span context}, opened 0 span context →
    fine (.structural (.depthExceeded context.maxDepth) span.offset)
  elements : ∀ {levels span context item}, opened levels span context → span.shape = .array →
    item ∈ (Scan.arrayElements.run (.ofSpan span)).1.1 → met levels item context
  fault : ∀ {levels span context error}, opened levels span context → span.shape = .array →
    (Scan.arrayElements.run (.ofSpan span)).1.2 = some error → fine error
  members : ∀ {levels span context given value} (table : MemberTable) (className : String),
    opened (levels + 1) span context →
    (Scan.outcome (Scan.memberTexts table className) (.ofSpan span)).1 = .ok given →
    some value ∈ given → met levels value context
  noMembers : ∀ {levels span context error} (table : MemberTable) (className : String),
    opened (levels + 1) span context →
    (Scan.outcome (Scan.memberTexts table className) (.ofSpan span)).1 = .error error → fine error

namespace Invariant

variable (invariant : Invariant)

/-- The decoding next to itself. -/
def comparison : Comparison where
  stops _ := False
  alike error error' := error' = error ∧ invariant.fine error
  met levels span context span' context' :=
    span' = span ∧ context' = context ∧ invariant.met levels span context
  opened levels span context span' context' :=
    span' = span ∧ context' = context ∧ invariant.opened levels span context
  plain h := ⟨rfl, invariant.plain h⟩
  keeps := by
    rintro _ _ _ _ _ ⟨rfl, -, -⟩
    exact ⟨rfl, rfl⟩
  invalid label tag := by
    rintro ⟨rfl, -, hmet⟩
    exact ⟨rfl, invariant.invalid label tag hmet⟩
  deeper := by
    rintro _ _ _ _ context ⟨rfl, rfl, hmet⟩
    rw [Context.deeper]
    split
    next hdepth => exact .ok ⟨rfl, rfl, invariant.deeper hmet hdepth⟩
    next hdepth => exact .error ⟨rfl, invariant.tooDeep hmet (Nat.le_of_not_lt hdepth)⟩
  elements := by
    rintro _ _ _ span _ ⟨rfl, rfl, hopened⟩ harray
    constructor
    · refine List.forall₂_same.mpr fun item hitem => ⟨rfl, rfl, ?_⟩
      exact invariant.elements hopened harray hitem
    · cases hfault : (Scan.arrayElements.run (.ofSpan span)).1.2 with
      | none => exact .none
      | some error => exact .some ⟨rfl, invariant.fault hopened harray hfault⟩
  members table className := by
    rintro ⟨rfl, rfl, hopened⟩
    refine .self (fun given hgiven => ?_) fun error herror =>
      ⟨rfl, invariant.noMembers table className hopened herror⟩
    refine List.forall₂_same.mpr fun value hvalue => ?_
    cases value with
    | none => exact .none
    | some value => exact .some ⟨rfl, rfl, invariant.members table className hopened hgiven hvalue⟩

theorem reads (catalog : Catalog) (levels : Nat) :
    invariant.comparison.Reads levels (catalog.reader levels) (catalog.reader levels) := by
  refine Comparison.reads_reader catalog 0 ⟨fun typeName {_ _ _ _} hopened => ?_, rfl⟩ levels
  obtain ⟨rfl, rfl, hopened⟩ := hopened
  exact .error ⟨rfl, invariant.zero hopened⟩

theorem fine_of_inStep {α : Type} {result : Except Error α} {error : Error}
    (h : InStep invariant.comparison.stops invariant.comparison.alike Eq result result)
    (herror : result = .error error) : invariant.fine error := by
  subst herror
  cases h with
  | error halike => exact halike.2
  | stopped hstops => exact hstops.elim

variable {catalog : Catalog} {text : Bytes} {options : ReadOptions} {error : Error}

/-- Decoding a document of a class fails with errors that are fine. -/
theorem fine_of_decode {typeName : String}
    (hroot : invariant.opened (options.maxDepth + 1) ⟨text, 0, .object⟩ (.root options.maxDepth))
    (hfinish : ∀ table className given stop error,
      Scan.Gives (Scan.memberTexts table className) (.ofText text) given stop →
      (Scan.outcome (Scan.finish options.allowTrailing) stop).1 = .error error →
      invariant.fine error)
    (h : catalog.decode typeName text options = .error error) : invariant.fine error := by
  refine invariant.fine_of_inStep (Comparison.decode_class_in_step typeName fun schema _ => ?_) h
  refine Comparison.decode_in_step (invariant.reads catalog _) schema
    (invariant.comparison.members _ _ ⟨rfl, rfl, hroot⟩) ?_
  intro given stop given' stop' hgiven hgiven'
  obtain ⟨-, rfl⟩ := hgiven.unique hgiven'
  exact .self (fun _ _ => rfl) fun error herror => ⟨rfl, hfinish _ _ given stop error hgiven herror⟩

theorem fine_of_decodeArray {element : ArgType}
    (hroot : ∀ span, (Scan.outcome (Scan.documentArray options.allowTrailing) (.ofText text)).1
        = .ok span →
      span.shape = .array ∧ invariant.opened options.maxDepth span (.root options.maxDepth))
    (herror : ∀ error, (Scan.outcome (Scan.documentArray options.allowTrailing) (.ofText text)).1
        = .error error → invariant.fine error)
    (h : catalog.decodeArray element text options = .error error) : invariant.fine error := by
  refine invariant.fine_of_inStep (Comparison.decodeArray_in_step element
    (invariant.reads catalog _)
    (.self (fun span hspan => ?_) fun error h => ⟨rfl, herror error h⟩)) h
  obtain ⟨harray, hopened⟩ := hroot span hspan
  exact ⟨harray, rfl, rfl, hopened⟩

end Invariant

end SchemaJson
