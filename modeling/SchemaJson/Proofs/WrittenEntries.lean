import SchemaJson.Json.Encode
import SchemaJson.Proofs.JsonTexts

/-! Writing steps as relations between two writers, and the entries of a container as they stand
in the document: commas and line breaks are where a reader expects them. -/

namespace SchemaJson

namespace Writer

theorem put_put (first second : Bytes) (writer : Writer) :
    (writer.put first).put second = writer.put (first ++ second) := by
  have hout : writer.out ++ first ++ second = writer.out ++ (first ++ second) := by
    apply Array.ext'
    simp
  simp only [put, hout]

theorem put_nil (writer : Writer) : writer.put [] = writer := by
  have hout : writer.out ++ ([] : Bytes) = writer.out := by
    apply Array.ext'
    simp
  simp only [put, hout]

@[simp]
theorem pending_put (bytes : Bytes) (writer : Writer) : (writer.put bytes).pending = writer.pending :=
  rfl

@[simp]
theorem options_put (bytes : Bytes) (writer : Writer) : (writer.put bytes).options = writer.options :=
  rfl

@[simp]
theorem numbersQuoted_put (bytes : Bytes) (writer : Writer) :
    (writer.put bytes).numbersQuoted = writer.numbersQuoted :=
  rfl

/-- The blanks in front of an entry at that depth. -/
def lineBreak (options : WriteOptions) (depth : Nat) : Bytes :=
  if options.pretty then Ascii.newline :: List.replicate (depth * options.indent) Ascii.space else []

theorem isBlankText_lineBreak (options : WriteOptions) (depth : Nat) :
    IsBlankText (lineBreak options depth) := by
  intro byte hmem
  rw [lineBreak] at hmem
  split at hmem
  · rcases List.mem_cons.mp hmem with rfl | hmem
    · rfl
    · rw [List.eq_of_mem_replicate hmem]
      rfl
  · cases hmem

variable {writer : Writer} {container : Container} {outer : List OpenContainer}

theorem startEntry_first (h : writer.pending = ⟨container, true⟩ :: outer) :
    writer.startEntry = { writer with pending := ⟨container, false⟩ :: outer }.put
      (lineBreak writer.options (outer.length + 1)) := by
  rw [startEntry, h]
  by_cases hpretty : writer.options.pretty = true
  · simp [lineBreak, hpretty, newline]
  · simp [lineBreak, hpretty, put_nil]

theorem startEntry_next (h : writer.pending = ⟨container, false⟩ :: outer) :
    writer.startEntry
      = writer.put (Ascii.comma :: lineBreak writer.options (outer.length + 1)) := by
  obtain ⟨options, out, pending, numbersQuoted⟩ := writer
  obtain rfl : pending = _ := h
  by_cases hpretty : options.pretty = true
  · simp only [startEntry, lineBreak, hpretty, if_true, Bool.false_eq_true, if_false]
    exact put_put [Ascii.comma] (Ascii.newline :: List.replicate ((outer.length + 1) * options.indent)
      Ascii.space) ⟨options, out, ⟨container, false⟩ :: outer, numbersQuoted⟩
  · simp only [startEntry, lineBreak, hpretty, Bool.false_eq_true, if_false]
    rfl

@[simp]
theorem options_startEntry (writer : Writer) : writer.startEntry.options = writer.options := by
  rcases hpending : writer.pending with _ | ⟨⟨container, _ | _⟩, outer⟩
  · rw [startEntry, hpending]
  · rw [startEntry_next hpending]
    rfl
  · rw [startEntry_first hpending]
    rfl

@[simp]
theorem numbersQuoted_startEntry (writer : Writer) :
    writer.startEntry.numbersQuoted = writer.numbersQuoted := by
  rcases hpending : writer.pending with _ | ⟨⟨container, _ | _⟩, outer⟩
  · rw [startEntry, hpending]
  · rw [startEntry_next hpending]
    rfl
  · rw [startEntry_first hpending]
    rfl

theorem map_container_startEntry (writer : Writer) :
    writer.startEntry.pending.map OpenContainer.container
      = writer.pending.map OpenContainer.container := by
  rcases hpending : writer.pending with _ | ⟨⟨container, _ | _⟩, outer⟩
  · rw [startEntry, hpending]
    simp [hpending]
  · rw [startEntry_next hpending]
    simp [hpending]
  · rw [startEntry_first hpending]
    simp

/-- How many containers may still be opened inside each other. -/
def levels (writer : Writer) : Nat := writer.options.maxDepth + 1 - writer.pending.length

@[simp]
theorem levels_put (bytes : Bytes) (writer : Writer) : (writer.put bytes).levels = writer.levels := rfl

@[simp]
theorem length_pending_startEntry (writer : Writer) :
    writer.startEntry.pending.length = writer.pending.length := by
  simpa using congrArg List.length (map_container_startEntry writer)

@[simp]
theorem levels_startEntry (writer : Writer) : writer.startEntry.levels = writer.levels := by
  simp [levels]

@[simp]
theorem options_startValue (writer : Writer) : writer.startValue.options = writer.options := by
  rw [startValue]
  split <;> simp

@[simp]
theorem numbersQuoted_startValue (writer : Writer) :
    writer.startValue.numbersQuoted = writer.numbersQuoted := by
  rw [startValue]
  split <;> simp

@[simp]
theorem length_pending_startValue (writer : Writer) :
    writer.startValue.pending.length = writer.pending.length := by
  rw [startValue]
  split <;> simp

@[simp]
theorem numbersQuoted_begin (container : Container) (writer : Writer) :
    (writer.begin container).numbersQuoted = writer.numbersQuoted :=
  numbersQuoted_startValue writer

@[simp]
theorem options_begin (container : Container) (writer : Writer) :
    (writer.begin container).options = writer.options :=
  options_startValue writer

theorem levels_begin {container : Container} {writer : Writer}
    (h : writer.pending.length ≤ writer.options.maxDepth) :
    writer.levels = (writer.begin container).levels + 1 := by
  have hpending : (writer.begin container).pending.length
      = writer.startValue.pending.length + 1 := rfl
  simp only [levels, options_begin, hpending, length_pending_startValue]
  omega

/-- Writes the texts as the entries of what was opened last. -/
def fill (cores : List Bytes) (writer : Writer) : Writer :=
  cores.foldl (fun writer core => writer.startEntry.put core) writer

/-- Entries behind another entry, each behind its comma. -/
def continued (blanks : Bytes) (cores : List Bytes) : Bytes :=
  cores.flatMap fun core => Ascii.comma :: blanks ++ core

theorem joined_continued {before after : Bytes} (hbefore : IsBlankText before)
    (hafter : IsBlankText after) (core : Bytes) (cores : List Bytes) :
    Joined (core :: cores) (before ++ (core ++ (continued before cores ++ after))) := by
  induction cores generalizing core with
  | nil => exact .last hbefore hafter
  | cons next cores ih =>
    have htext : continued before (next :: cores) ++ after
        = [] ++ Ascii.comma :: (before ++ (next ++ (continued before cores ++ after))) := by
      simp [continued, List.append_assoc]
    rw [htext]
    exact .cons hbefore isBlankText_nil (ih next)

theorem fill_next (h : writer.pending = ⟨container, false⟩ :: outer) (cores : List Bytes) :
    writer.fill cores
      = writer.put (continued (lineBreak writer.options (outer.length + 1)) cores) := by
  induction cores generalizing writer with
  | nil => exact writer.put_nil.symm
  | cons core cores ih =>
    have hstep : writer.fill (core :: cores) = fill cores
        (writer.put (Ascii.comma :: lineBreak writer.options (outer.length + 1) ++ core)) := by
      rw [← put_put, ← startEntry_next h]
      rfl
    have hput := @ih (writer.put (Ascii.comma :: lineBreak writer.options (outer.length + 1) ++ core)) h
    rw [hstep, hput, put_put]
    rfl

theorem finish_empty {inner : Container} (h : writer.pending = ⟨inner, true⟩ :: outer) :
    writer.finish container = { writer with pending := outer }.put [container.closing] := by
  simp [finish, h]

theorem finish_full {inner : Container} (h : writer.pending = ⟨inner, false⟩ :: outer) :
    writer.finish container = { writer with pending := outer }.put
      (lineBreak writer.options outer.length ++ [container.closing]) := by
  rw [finish, h, ← put_put]
  by_cases hpretty : writer.options.pretty = true
  · simp [lineBreak, hpretty, newline]
  · simp [lineBreak, hpretty, put_nil]

/-- Entries as a container writes them, each behind a line break, and one more behind the last. -/
def entriesText (options : WriteOptions) (depth : Nat) : List Bytes → Bytes
  | [] => []
  | core :: cores => lineBreak options (depth + 1) ++ core
      ++ continued (lineBreak options (depth + 1)) cores ++ lineBreak options depth

theorem joined_entriesText (options : WriteOptions) (depth : Nat) (cores : List Bytes) :
    Joined cores (entriesText options depth cores) := by
  cases cores with
  | nil => exact .none isBlankText_nil
  | cons core cores =>
    have hjoined := joined_continued (isBlankText_lineBreak options (depth + 1))
      (isBlankText_lineBreak options depth) core cores
    simpa [entriesText] using hjoined

theorem finish_fill_begin_eq (container : Container) (cores : List Bytes) (writer : Writer) :
    ((writer.begin container).fill cores).finish container
      = writer.startValue.put (container.opening :: entriesText writer.startValue.options
          writer.startValue.pending.length cores ++ [container.closing]) := by
  let before := lineBreak writer.startValue.options (writer.startValue.pending.length + 1)
  let after := lineBreak writer.startValue.options writer.startValue.pending.length
  have hopened : (writer.begin container).pending
      = ⟨container, true⟩ :: writer.startValue.pending := rfl
  cases cores with
  | nil =>
    show (writer.begin container).finish container = _
    rw [finish_empty hopened]
    exact put_put [container.opening] [container.closing] writer.startValue
  | cons core cores =>
    -- The first entry marks the container; all later ones only put text.
    have hfirst : (writer.begin container).startEntry.put core
        = { writer.begin container with
            pending := ⟨container, false⟩ :: writer.startValue.pending }.put (before ++ core) := by
      rw [startEntry_first hopened, put_put]
      rfl
    have hfill : (writer.begin container).fill (core :: cores)
        = { writer.begin container with
            pending := ⟨container, false⟩ :: writer.startValue.pending }.put
              (before ++ core ++ continued before cores) := by
      show fill cores ((writer.begin container).startEntry.put core) = _
      rw [hfirst, fill_next rfl, put_put]
      rfl
    have hfinish : ((writer.begin container).fill (core :: cores)).finish container
        = (writer.startValue.put [container.opening]).put
            (before ++ core ++ continued before cores ++ (after ++ [container.closing])) := by
      rw [hfill, finish_full rfl]
      exact put_put (before ++ core ++ continued before cores) (after ++ [container.closing])
        (writer.startValue.put [container.opening])
    rw [hfinish, put_put]
    simp only [entriesText, before, after, List.append_assoc, List.cons_append, List.nil_append]

/-- A container that is opened, filled and closed is one value: its brackets around the entries
with commas between them and blanks around each. -/
theorem finish_fill_begin (container : Container) (cores : List Bytes) (writer : Writer) :
    ∃ inner, Joined cores inner ∧ ((writer.begin container).fill cores).finish container
      = writer.startValue.put (container.opening :: inner ++ [container.closing]) :=
  ⟨_, joined_entriesText _ _ cores, finish_fill_begin_eq container cores writer⟩

theorem startValue_of_array {writer : Writer} {outer : List Container}
    (h : writer.pending.map OpenContainer.container = .array :: outer) :
    writer.startValue = writer.startEntry := by
  rcases hpending : writer.pending with _ | ⟨⟨_ | _, isEmpty⟩, rest⟩
  · simp [hpending] at h
  · simp [hpending] at h
  · rw [startValue, hpending]

theorem startValue_of_object {writer : Writer} {outer : List Container}
    (h : writer.pending.map OpenContainer.container = .object :: outer) :
    writer.startValue = writer := by
  rcases hpending : writer.pending with _ | ⟨⟨_ | _, isEmpty⟩, rest⟩
  · simp [hpending] at h
  · rw [startValue, hpending]
  · simp [hpending] at h

/-- The blanks between the colon of a member and its value. -/
def afterColon (options : WriteOptions) : Bytes := if options.pretty then [Ascii.space] else []

theorem isBlankText_afterColon (options : WriteOptions) : IsBlankText (afterColon options) := by
  intro byte hmem
  rw [afterColon] at hmem
  split at hmem
  · rw [List.mem_singleton.mp hmem]
    rfl
  · cases hmem

theorem key_eq (name : Bytes) (writer : Writer) : writer.key name
    = writer.startEntry.put (quoted name ++ Ascii.colon :: afterColon writer.options) := by
  rw [key, afterColon]
  by_cases hpretty : writer.options.pretty = true
  · simp [hpretty, put_put]
  · simp [hpretty]

/-- A member is one entry: its name, the colon, and whatever is written as its value. -/
theorem put_key {writer : Writer} {outer : List Container}
    (hopen : writer.pending.map OpenContainer.container = .object :: outer)
    (hquoted : writer.numbersQuoted = false) (name : Bytes) (quote : Bool) (core : Bytes) :
    (((writer.key name).withNumbersQuoted quote).startValue.put core).withNumbersQuoted false
      = writer.startEntry.put
        (quoted name ++ Ascii.colon :: afterColon writer.options ++ core) := by
  have hkey : ((writer.key name).withNumbersQuoted quote).pending.map OpenContainer.container
      = .object :: outer := by
    rw [key_eq, ← hopen, ← map_container_startEntry writer]
    rfl
  have hquoted' : (writer.key name).numbersQuoted = false := by simp [key_eq, hquoted]
  rw [startValue_of_object hkey, ← hquoted', ← put_put, ← key_eq]
  rfl

end Writer

namespace Write

/-- What the step does with a writer. -/
def outcome (step : Write Unit) (start : Writer) : Except Error Unit × Writer := step.run.run start

/-- The step goes through and turns one writer into the other. -/
def Emits (step : Write Unit) (start stop : Writer) : Prop := outcome step start = (.ok (), stop)

variable {step next : Write Unit} {start stop : Writer}

theorem outcome_bind (step next : Write Unit) (start : Writer) :
    outcome (step >>= fun _ => next) start = match outcome step start with
      | (.ok (), middle) => outcome next middle
      | (.error error, middle) => (.error error, middle) := by
  simp only [outcome, ExceptT.run_bind, StateT.run_bind]
  rcases step.run.run start with ⟨_ | ⟨⟩, middle⟩ <;> rfl

theorem emits_bind : Emits (step >>= fun _ => next) start stop ↔
    ∃ middle, Emits step start middle ∧ Emits next middle stop := by
  rcases h : outcome step start with ⟨_ | ⟨⟩, middle⟩
  · simp [Emits, outcome_bind, h]
  · simp [Emits, outcome_bind, h]

theorem emits_pure : Emits (pure ()) start stop ↔ start = stop := by
  constructor
  · rintro ⟨⟩
    rfl
  · rintro rfl
    rfl

theorem emits_put {f : Writer → Writer} : Emits (put f) start stop ↔ f start = stop := by
  constructor
  · rintro ⟨⟩
    rfl
  · rintro rfl
    rfl

theorem not_emits_throw {error : Error} : ¬ Emits (throw error) start stop := by
  rintro ⟨⟩

theorem outcome_begin (container : Container) (start : Writer) :
    outcome (begin container) start = if start.options.maxDepth < start.pending.length
      then (.error (.encode (.depthExceeded start.options.maxDepth)), start)
      else (.ok (), start.begin container) := by
  show outcome (if start.options.maxDepth < start.pending.length then throw _ else _) start = _
  split <;> rfl

theorem emits_begin {container : Container} : Emits (begin container) start stop ↔
    start.pending.length ≤ start.options.maxDepth ∧ start.begin container = stop := by
  rw [Emits, outcome_begin, ← Nat.not_lt]
  split <;> simp [*]

theorem emits_quotingNumbers {quote : Bool} : Emits (quotingNumbers quote step) start stop ↔
    ∃ last, Emits step (start.withNumbersQuoted quote) last ∧ last.withNumbersQuoted false = stop := by
  have hrun : outcome (quotingNumbers quote step) start
      = ((outcome step (start.withNumbersQuoted quote)).1,
        (outcome step (start.withNumbersQuoted quote)).2.withNumbersQuoted false) := rfl
  rw [Emits, hrun]
  rcases h : outcome step (start.withNumbersQuoted quote) with ⟨result, last⟩
  simp [Emits, h]

/-- Only a nullable member may be left out. -/
theorem emits_members_of_absent {className : String} {member : Member} {rest : List Member}
    {entry : Entry} {entries : List Entry} (h : entry.isAbsent = true) :
    Emits (members className (member :: rest) (entry :: entries)) start stop ↔
      member.nullable = true ∧ Emits (members className rest entries) start stop := by
  rw [members, if_pos h]
  by_cases hnullable : member.nullable = true
  · rw [if_pos hnullable]
    simp [hnullable]
  · rw [if_neg hnullable]
    simp [not_emits_throw, hnullable]

/-- A member that is there is its name and its value, with quotes around numbers for as long. -/
theorem emits_members_of_present {className : String} {member : Member} {rest : List Member}
    {entry : Entry} {entries : List Entry} (h : entry.isAbsent = false) :
    Emits (members className (member :: rest) (entry :: entries)) start stop ↔ ∃ last,
      Emits entry.write
        ((start.key member.name).withNumbersQuoted member.tag.isQuotedNumber) last ∧
      Emits (members className rest entries) (last.withNumbersQuoted false) stop := by
  rw [members, if_neg (by simp [h])]
  constructor
  · intro hemits
    obtain ⟨_, hkey, hvalue⟩ := emits_bind.mp hemits
    obtain rfl := emits_put.mp hkey
    obtain ⟨_, hquoting, hrest⟩ := emits_bind.mp hvalue
    obtain ⟨last, hentry, rfl⟩ := emits_quotingNumbers.mp hquoting
    exact ⟨last, hentry, hrest⟩
  · rintro ⟨last, hentry, hrest⟩
    have hquoting := emits_quotingNumbers.mpr ⟨last, hentry, rfl⟩
    exact emits_bind.mpr ⟨_, emits_put.mpr rfl, emits_bind.mpr ⟨_, hquoting, hrest⟩⟩

theorem emits_float {format : FloatFormat} {bits : Nat} : Emits (float format bits) start stop ↔
    format.isFinite bits = true ∧ start.number (format.documentLayout.write format bits) = stop := by
  rw [float]
  split
  next hfinite => simp [emits_put, hfinite]
  next hfinite => simp [not_emits_throw, hfinite]

theorem emits_container {container : Container} :
    Emits (do begin container; step; finish container) start stop ↔
      start.pending.length ≤ start.options.maxDepth ∧
        ∃ last, Emits step (start.begin container) last ∧ last.finish container = stop := by
  constructor
  · intro h
    obtain ⟨middle, hbegin, hrest⟩ := emits_bind.mp h
    obtain ⟨hdepth, rfl⟩ := emits_begin.mp hbegin
    obtain ⟨last, hstep, hfinish⟩ := emits_bind.mp hrest
    exact ⟨hdepth, last, hstep, emits_put.mp hfinish⟩
  · rintro ⟨hdepth, last, hstep, hfinish⟩
    exact emits_bind.mpr ⟨_, emits_begin.mpr ⟨hdepth, rfl⟩,
      emits_bind.mpr ⟨last, hstep, emits_put.mpr hfinish⟩⟩

theorem emits_write {schema : Schema} {entries : List Entry} :
    Emits (schema.write entries) start stop ↔ entries.length = schema.table.size ∧
      Emits (do
        begin .object
        members schema.className schema.table.members entries
        finish .object) start stop := by
  by_cases hlength : entries.length = schema.table.size
  · simp [Schema.write, hlength]
  · have hfails : Schema.write schema entries = throw
        (.encode (.memberCount schema.className entries.length schema.table.size)) := by
      rw [Schema.write, if_pos hlength]
      rfl
    simp [hfails, hlength, not_emits_throw]

theorem emits_writeRecord {catalog : Catalog} {typeName : String} {entries : List Entry} :
    Emits (catalog.writeRecord typeName entries) start stop ↔
      ∃ schema, catalog.schema typeName = .ok schema ∧
        Emits (schema.write (catalog.memberEntries typeName entries)) start stop := by
  rw [Catalog.writeRecord]
  cases hschema : catalog.schema typeName with
  | error error =>
    constructor
    · rintro ⟨⟩
    · rintro ⟨schema, ⟨⟩, -⟩
  | ok schema =>
    constructor
    · intro h
      exact ⟨schema, rfl, h⟩
    · rintro ⟨_, ⟨⟩, h⟩
      exact h

end Write

end SchemaJson
