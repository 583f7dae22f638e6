import SchemaJson.Proofs.PairedDecoding

/-! Two scans next to each other that have the same text ahead. What else their cursors have in
common is a parameter, and with it what the spans and failures have that are made from them. If moving
on keeps it, every scan does. -/

namespace SchemaJson

namespace Scan

/-- What two scans over the same text have in common. -/
structure Pairing where
  cursors : Cursor → Cursor → Prop
  spans : Span → Span → Prop
  errors : Error → Error → Prop
  ahead : ∀ {cursor cursor'}, cursors cursor cursor' → cursor'.ahead = cursor.ahead
  advance : ∀ {cursor cursor'} (count : Nat), cursors cursor cursor' →
    cursors (cursor.advance count) (cursor'.advance count)
  separated : ∀ {cursor cursor'} (byte : UInt8), cursors cursor cursor' →
    cursors { cursor with latestSeparator := some byte } { cursor' with latestSeparator := some byte }
  text : ∀ {span span'}, spans span span' → span'.text = span.text
  capture : ∀ {cursor cursor'} (skipped length : Nat) (shape : Shape), cursors cursor cursor' →
    spans (cursor.capture skipped length shape) (cursor'.capture skipped length shape)
  structural : ∀ {cursor cursor'} {fault : StructureFault}, (∀ limit, fault ≠ .depthExceeded limit) →
    cursors cursor cursor' →
      errors (.structural fault cursor.offset) (.structural fault cursor'.offset)
  name : ∀ {cursor cursor'} (fault : NameFault), cursors cursor cursor' →
    errors (.name fault cursor.offset) (.name fault cursor'.offset)
  classStart : ∀ {cursor cursor'} (className : String), cursors cursor cursor' →
    errors (.classStart className cursor.offset) (.classStart className cursor'.offset)

namespace Pairing

variable (pairing : Pairing) {α β γ δ : Type} {R : α → β → Prop} {S : γ → δ → Prop}

/-- Related results or related failures, and related cursors in either case. -/
inductive Outcomes (R : α → β → Prop) : Except Error α × Cursor → Except Error β × Cursor → Prop
  | ok {a : α} {b : β} {stop stop' : Cursor} : R a b → pairing.cursors stop stop' →
      Outcomes R (.ok a, stop) (.ok b, stop')
  | error {error error' : Error} {stop stop' : Cursor} : pairing.errors error error' →
      pairing.cursors stop stop' → Outcomes R (.error error, stop) (.error error', stop')

/-- From related cursors the two steps come to related outcomes. -/
def Steps (R : α → β → Prop) (step : Scan α) (step' : Scan β) : Prop :=
  ∀ start start', pairing.cursors start start' →
    pairing.Outcomes R (outcome step start) (outcome step' start')

/-- Wherever the two scans report the fault, they do so alike. -/
def Reports (fault : StructureFault) : Prop :=
  ∀ cursor cursor', pairing.cursors cursor cursor' →
    pairing.errors (.structural fault cursor.offset) (.structural fault cursor'.offset)

/-- Members of the same name with related values. -/
def Members (member member' : Bytes × Span) : Prop :=
  member'.1 = member.1 ∧ pairing.spans member.2 member'.2

/-- Walks over elements that meet related values, and break off for related reasons. -/
def Walks (walk walk' : List Span × Option Error) : Prop :=
  List.Forall₂ pairing.spans walk.1 walk'.1 ∧ Option.Rel pairing.errors walk.2 walk'.2

variable {pairing} {cursor cursor' : Cursor}

theorem Outcomes.inStep {first : Except Error α × Cursor} {second : Except Error β × Cursor}
    (h : pairing.Outcomes R first second) :
    InStep (fun _ => False) pairing.errors R first.1 second.1 := by
  cases h with
  | ok hab => exact .ok hab
  | error herrors => exact .error herrors

theorem peek?_eq (h : pairing.cursors cursor cursor') : cursor'.peek? = cursor.peek? := by
  rw [Cursor.peek?, Cursor.peek?, pairing.ahead h]

theorem char?_eq (h : pairing.cursors cursor cursor') : cursor'.char? = cursor.char? := by
  rw [Cursor.char?, Cursor.char?, pairing.ahead h, peek?_eq h]

theorem reports {fault : StructureFault} (h : ∀ limit, fault ≠ .depthExceeded limit) :
    pairing.Reports fault :=
  fun _ _ hcursors => pairing.structural h hcursors

namespace Steps

theorem bind {step : Scan α} {step' : Scan β} {next : α → Scan γ} {next' : β → Scan δ}
    (h : pairing.Steps R step step') (hnext : ∀ a b, R a b → pairing.Steps S (next a) (next' b)) :
    pairing.Steps S (step >>= next) (step' >>= next') := by
  intro start start' hcursors
  have houtcome := h start start' hcursors
  rw [outcome_bind, outcome_bind]
  generalize outcome step start = first, outcome step' start' = second at houtcome ⊢
  cases houtcome with
  | ok hab hstop => exact hnext _ _ hab _ _ hstop
  | error herrors hstop => exact .error herrors hstop

theorem pure {a : α} {b : β} (h : R a b) : pairing.Steps R (Pure.pure a) (Pure.pure b) :=
  fun _ _ hcursors => .ok h hcursors

theorem get : pairing.Steps pairing.cursors MonadState.get MonadState.get :=
  fun _ _ hcursors => .ok hcursors hcursors

theorem move {f : Cursor → Cursor}
    (h : ∀ cursor cursor', pairing.cursors cursor cursor' → pairing.cursors (f cursor) (f cursor')) :
    pairing.Steps (fun _ _ => True) (Scan.move f) (Scan.move f) :=
  fun start start' hcursors => .ok trivial (h start start' hcursors)

theorem advance (count : Nat) :
    pairing.Steps (fun _ _ => True) (Scan.move (.advance count)) (Scan.move (.advance count)) :=
  move fun _ _ hcursors => pairing.advance count hcursors

theorem skipBlanks : pairing.Steps (fun _ _ => True) Scan.skipBlanks Scan.skipBlanks := by
  refine move fun cursor cursor' hcursors => ?_
  rw [Cursor.skipBlanks, Cursor.skipBlanks, pairing.ahead hcursors]
  exact pairing.advance _ hcursors

theorem throw {error error' : Error} (h : pairing.errors error error') :
    pairing.Steps R (MonadExcept.throw error) (MonadExcept.throw error') :=
  fun _ _ hcursors => .error h hcursors

theorem fail {fault : StructureFault} (h : pairing.Reports fault) :
    pairing.Steps R (Scan.fail fault) (Scan.fail fault) :=
  get.bind fun _ _ hcursors => throw (h _ _ hcursors)

theorem string : pairing.Steps pairing.spans Scan.string Scan.string := by
  refine get.bind fun cursor cursor' hcursor => (advance 1).bind fun _ _ _ =>
    get.bind fun inside inside' hinside => ?_
  rw [pairing.ahead hinside]
  split
  · exact throw (pairing.structural nofun hcursor)
  · exact (advance _).bind fun _ _ _ => pure (pairing.capture _ _ _ hcursor)

theorem bracketed (openByte closeByte : UInt8) (shape : Shape) {unterminated : StructureFault}
    (h : pairing.Reports unterminated) :
    pairing.Steps pairing.spans (Scan.bracketed openByte closeByte shape unterminated)
      (Scan.bracketed openByte closeByte shape unterminated) := by
  refine get.bind fun cursor cursor' hcursor => ?_
  rw [pairing.ahead hcursor]
  split
  · exact fail h
  · exact (advance _).bind fun _ _ _ => pure (pairing.capture _ _ _ hcursor)

theorem literal : pairing.Steps pairing.spans Scan.literal Scan.literal := by
  refine get.bind fun cursor cursor' hcursor => ?_
  dsimp only
  rw [pairing.ahead hcursor]
  split
  · exact fail (reports nofun)
  · exact (advance _).bind fun _ _ _ => pure (pairing.capture _ _ _ hcursor)

theorem value : pairing.Steps pairing.spans Scan.value Scan.value := by
  refine skipBlanks.bind fun _ _ _ => get.bind fun cursor cursor' hcursor => ?_
  rw [peek?_eq hcursor]
  split
  · exact fail (reports nofun)
  · split_ifs
    · exact string
    · exact bracketed _ _ _ (reports nofun)
    · exact bracketed _ _ _ (reports nofun)
    · exact fail (reports nofun)
    · exact literal

theorem separator {atEnd : StructureFault} (h : pairing.Reports atEnd) :
    pairing.Steps Eq (Scan.separator atEnd) (Scan.separator atEnd) := by
  refine skipBlanks.bind fun _ _ _ => get.bind fun cursor cursor' hcursor => ?_
  rw [char?_eq hcursor, peek?_eq hcursor]
  split
  · exact fail h
  · split_ifs
    · refine (move fun _ _ hcursors => pairing.separated _ (pairing.advance 1 hcursors)).bind
        fun _ _ _ => ?_
      exact skipBlanks.bind fun _ _ _ => pure rfl
    · exact fail (reports nofun)

theorem separatedValue :
    pairing.Steps pairing.spans Scan.separatedValue Scan.separatedValue := by
  have hend : pairing.Reports .missingSeparator := reports nofun
  exact value.bind fun _ _ hspan => (separator hend).bind fun _ _ _ => pure hspan

theorem name : pairing.Steps pairing.spans Scan.name Scan.name := by
  refine skipBlanks.bind fun _ _ _ => get.bind fun start start' hstart => ?_
  rw [peek?_eq hstart]
  split
  · exact fail (reports nofun)
  · split_ifs
    · refine string.bind fun span span' hspan => skipBlanks.bind fun _ _ _ =>
        get.bind fun cursor cursor' hcursor => ?_
      rw [peek?_eq hcursor]
      split_ifs
      · exact (advance 1).bind fun _ _ _ => skipBlanks.bind fun _ _ _ => pure hspan
      · exact throw (pairing.name _ hcursor)
    · exact throw (pairing.name _ hstart)

theorem finish (allowed : Bool) :
    pairing.Steps (fun _ _ => True) (Scan.finish allowed) (Scan.finish allowed) := by
  refine skipBlanks.bind fun _ _ _ => get.bind fun cursor cursor' hcursor => ?_
  rw [Cursor.atEnd, Cursor.atEnd, pairing.ahead hcursor]
  split
  · exact pure trivial
  · exact fail (reports nofun)

theorem documentArray (allowTrailing : Bool) :
    pairing.Steps pairing.spans (Scan.documentArray allowTrailing)
      (Scan.documentArray allowTrailing) := by
  refine skipBlanks.bind fun _ _ _ => get.bind fun cursor cursor' hcursor => ?_
  rw [char?_eq hcursor, peek?_eq hcursor]
  split
  · exact fail (reports nofun)
  · split_ifs
    · exact value.bind fun _ _ hspan => (finish _).bind fun _ _ _ => pure hspan
    · exact fail (reports nofun)

theorem entryEnd (container : Container) {atEnd : StructureFault} (h : pairing.Reports atEnd) :
    pairing.Steps Eq (Scan.entryEnd container atEnd) (Scan.entryEnd container atEnd) := by
  refine skipBlanks.bind fun _ _ _ => get.bind fun cursor cursor' hcursor =>
    (separator h).bind fun byte byte' hbyte => ?_
  rw [← hbyte]
  split_ifs
  · exact pure rfl
  · exact pure rfl
  · exact throw (pairing.structural nofun hcursor)

theorem entries (container : Container) {atEnd : StructureFault}
    (hend : pairing.Reports atEnd) {entry : Scan α} {entry' : Scan β}
    (h : pairing.Steps R entry entry') (steps : Nat) :
    pairing.Steps (List.Forall₂ R) (Scan.entries container atEnd entry steps)
      (Scan.entries container atEnd entry' steps) := by
  induction steps with
  | zero => exact fail (reports nofun)
  | succ steps ih =>
    refine h.bind fun a b hab => (entryEnd container hend).bind fun isLast isLast' hisLast => ?_
    rw [← hisLast]
    split_ifs
    · exact pure (.cons hab .nil)
    · exact ih.bind fun rest rest' hrest => pure (.cons hab hrest)

theorem memberEntry : pairing.Steps pairing.Members Scan.memberEntry Scan.memberEntry :=
  name.bind fun _ _ hname => value.bind fun _ _ hspan => pure ⟨pairing.text hname, hspan⟩

theorem objectMembers (className : String) :
    pairing.Steps (List.Forall₂ pairing.Members) (Scan.objectMembers className)
      (Scan.objectMembers className) := by
  refine skipBlanks.bind fun _ _ _ => get.bind fun start start' hstart => ?_
  rw [peek?_eq hstart]
  split_ifs
  · refine (advance 1).bind fun _ _ _ => skipBlanks.bind fun _ _ _ =>
      get.bind fun cursor cursor' hcursor => ?_
    rw [peek?_eq hcursor, pairing.ahead hcursor]
    split_ifs
    · exact (advance 1).bind fun _ _ _ => skipBlanks.bind fun _ _ _ => pure .nil
    · exact entries _ (reports (by simp)) memberEntry _
  · exact throw (pairing.classStart _ hstart)

theorem memberTexts (table : MemberTable) (className : String) :
    pairing.Steps (List.Forall₂ (Option.Rel pairing.spans)) (Scan.memberTexts table className)
      (Scan.memberTexts table className) := by
  rw [memberTexts_eq, ← bind_pure_comp]
  refine (objectMembers className).bind fun met met' hmet => pure ?_
  rw [foldl_keep_eq, foldl_keep_eq]
  exact forall₂_keptSpans hmet [] table.members

theorem element : pairing.Steps
    (fun entry entry' => pairing.spans entry.1 entry'.1 ∧ entry'.2 = entry.2)
    Scan.element Scan.element := by
  rw [element_eq]
  exact value.bind fun _ _ hspan => (entryEnd _ (reports (by simp))).bind fun _ _ hisLast =>
    pure ⟨hspan, hisLast.symm⟩

theorem arrayStart : pairing.Steps Eq Scan.arrayStart Scan.arrayStart := by
  refine skipBlanks.bind fun _ _ _ => get.bind fun cursor cursor' hcursor => ?_
  rw [char?_eq hcursor, peek?_eq hcursor]
  split_ifs
  · refine (advance 1).bind fun _ _ _ => skipBlanks.bind fun _ _ _ =>
      get.bind fun inside inside' hinside => pure ?_
    rw [peek?_eq hinside]
  · exact fail (reports nofun)

end Steps

theorem walks_elements (steps : Nat) {start start' : Cursor} (h : pairing.cursors start start') :
    pairing.Walks ((elements steps).run start).1 ((elements steps).run start').1 := by
  induction steps generalizing start start' with
  | zero => exact ⟨.nil, .some (pairing.structural nofun h)⟩
  | succ steps ih =>
    have helement := Steps.element start start' h
    rw [run_elements_succ, run_elements_succ]
    generalize outcome element start = first, outcome element start' = second at helement ⊢
    cases helement with
    | error herrors => exact ⟨.nil, .some herrors⟩
    | @ok entry entry' stop stop' hentry hstop =>
      obtain ⟨span, _⟩ := entry
      obtain ⟨span', isLast⟩ := entry'
      obtain ⟨hspan, rfl⟩ := hentry
      cases isLast with
      | true => exact ⟨.cons hspan .nil, .none⟩
      | false => exact ⟨.cons hspan (ih hstop).1, (ih hstop).2⟩

theorem walks_arrayElements {start start' : Cursor} (h : pairing.cursors start start') :
    pairing.Walks (arrayElements.run start).1 (arrayElements.run start').1 := by
  have hstart := Steps.arrayStart start start' h
  rw [run_arrayElements, run_arrayElements]
  generalize outcome arrayStart start = first, outcome arrayStart start' = second at hstart ⊢
  cases hstart with
  | error herrors => exact ⟨.nil, .some herrors⟩
  | @ok isEmpty isEmpty' stop stop' hisEmpty hstop =>
    rw [← hisEmpty]
    cases isEmpty with
    | true => exact ⟨.nil, .none⟩
    | false =>
      dsimp only
      rw [pairing.ahead hstop]
      exact walks_elements _ hstop

end Pairing

end Scan

end SchemaJson
