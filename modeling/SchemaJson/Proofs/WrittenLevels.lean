import SchemaJson.Proofs.WrittenEntries
import SchemaJson.Proofs.WrittenValues

/-! When writing goes through. A step takes the levels that the containers inside of it open, and
leaves as many open as it found; so whether a value can be written depends on the levels left for
it alone, and on nothing that was written before. -/

namespace SchemaJson

namespace Writer

@[simp]
theorem options_key (name : Bytes) (writer : Writer) : (writer.key name).options = writer.options := by
  simp [key_eq]

@[simp]
theorem length_pending_key (name : Bytes) (writer : Writer) :
    (writer.key name).pending.length = writer.pending.length := by
  simp [key_eq]

@[simp]
theorem options_finish (container : Container) (writer : Writer) :
    (writer.finish container).options = writer.options := by
  rcases hpending : writer.pending with _ | ⟨⟨inner, _ | _⟩, outer⟩
  · rw [finish, hpending]
    rfl
  · rw [finish_full hpending]
    rfl
  · rw [finish_empty hpending]
    rfl

@[simp]
theorem length_pending_finish (container : Container) (writer : Writer) :
    (writer.finish container).pending.length = writer.pending.length - 1 := by
  rcases hpending : writer.pending with _ | ⟨⟨inner, _ | _⟩, outer⟩
  · rw [finish, hpending]
    simp [hpending]
  · rw [finish_full hpending]
    rfl
  · rw [finish_empty hpending]
    rfl

theorem length_pending_begin (container : Container) (writer : Writer) :
    (writer.begin container).pending.length = writer.pending.length + 1 := by
  show writer.startValue.pending.length + 1 = _
  rw [length_pending_startValue]

/-- Both writers may open the same number of containers. -/
structure SameRoom (writer other : Writer) : Prop where
  maxDepth : other.options.maxDepth = writer.options.maxDepth
  pending : other.pending.length = writer.pending.length

namespace SameRoom

variable {first second third : Writer}

theorem levels (h : SameRoom first second) : second.levels = first.levels := by
  rw [Writer.levels, Writer.levels, h.maxDepth, h.pending]

theorem trans (h : SameRoom first second) (hnext : SameRoom second third) : SameRoom first third :=
  ⟨hnext.maxDepth.trans h.maxDepth, hnext.pending.trans h.pending⟩

theorem of_options {writer other : Writer} (hoptions : other.options = writer.options)
    (hpending : other.pending.length = writer.pending.length) : SameRoom writer other :=
  ⟨congrArg WriteOptions.maxDepth hoptions, hpending⟩

theorem startValue_put (writer : Writer) (bytes : Bytes) :
    SameRoom writer (writer.startValue.put bytes) :=
  of_options (by simp) (by simp)

theorem key (writer : Writer) (name : Bytes) : SameRoom writer (writer.key name) :=
  of_options (by simp) (by simp)

end SameRoom

end Writer

namespace Write

variable {step next : Write Unit} {enough enoughNext : Nat → Prop}

/-- The step goes through exactly where enough levels are left, and leaves as many. -/
structure Takes (step : Write Unit) (enough : Nat → Prop) : Prop where
  emits_iff : ∀ start : Writer, (∃ stop, Emits step start stop) ↔ enough start.levels
  sameRoom : ∀ start stop : Writer, Emits step start stop → start.SameRoom stop

namespace Takes

theorem put {f : Writer → Writer} (h : ∀ writer : Writer, writer.SameRoom (f writer)) :
    Takes (Write.put f) fun _ => True := by
  constructor
  · exact fun start => ⟨fun _ => trivial, fun _ => ⟨_, emits_put.mpr rfl⟩⟩
  · intro start stop hemits
    obtain rfl := emits_put.mp hemits
    exact h start

theorem pure : Takes (pure ()) fun _ => True := put fun _ => ⟨rfl, rfl⟩

theorem throw (error : Error) : Takes (throw error) fun _ => False := by
  constructor
  · exact fun start => ⟨fun ⟨_, hemits⟩ => not_emits_throw hemits, False.elim⟩
  · exact fun start stop hemits => absurd hemits not_emits_throw

theorem congr {enough' : Nat → Prop} (h : Takes step enough)
    (hiff : ∀ levels, enough' levels ↔ enough levels) : Takes step enough' :=
  ⟨fun start => (h.emits_iff start).trans (hiff _).symm, h.sameRoom⟩

theorem bind (h : Takes step enough) (hnext : Takes next enoughNext) :
    Takes (step >>= fun _ => next) fun levels => enough levels ∧ enoughNext levels := by
  constructor
  · intro start
    constructor
    · rintro ⟨stop, hemits⟩
      obtain ⟨middle, hstep, hrest⟩ := emits_bind.mp hemits
      have hlevels := (h.sameRoom start middle hstep).levels
      exact ⟨(h.emits_iff start).mp ⟨middle, hstep⟩,
        hlevels ▸ (hnext.emits_iff middle).mp ⟨stop, hrest⟩⟩
    · rintro ⟨hfirst, hrest⟩
      obtain ⟨middle, hstep⟩ := (h.emits_iff start).mpr hfirst
      have hlevels := (h.sameRoom start middle hstep).levels
      obtain ⟨stop, hstop⟩ := (hnext.emits_iff middle).mpr (hlevels.symm ▸ hrest)
      exact ⟨stop, emits_bind.mpr ⟨middle, hstep, hstop⟩⟩
  · intro start stop hemits
    obtain ⟨middle, hstep, hrest⟩ := emits_bind.mp hemits
    exact (h.sameRoom start middle hstep).trans (hnext.sameRoom middle stop hrest)

theorem quotingNumbers (h : Takes step enough) (quote : Bool) :
    Takes (Write.quotingNumbers quote step) enough := by
  constructor
  · intro start
    rw [← show (start.withNumbersQuoted quote).levels = start.levels from rfl, ← h.emits_iff]
    constructor
    · rintro ⟨stop, hemits⟩
      obtain ⟨last, hlast, -⟩ := emits_quotingNumbers.mp hemits
      exact ⟨last, hlast⟩
    · rintro ⟨last, hlast⟩
      exact ⟨_, emits_quotingNumbers.mpr ⟨last, hlast, rfl⟩⟩
  · intro start stop hemits
    obtain ⟨last, hlast, rfl⟩ := emits_quotingNumbers.mp hemits
    obtain ⟨hmaxDepth, hpending⟩ := h.sameRoom _ last hlast
    exact ⟨hmaxDepth, hpending⟩

/-- A container takes one level more than what it holds. -/
theorem container (h : Takes step enough) (container : Container) :
    Takes (do begin container; step; finish container)
      fun levels => ∃ inner, levels = inner + 1 ∧ enough inner := by
  constructor
  · intro start
    constructor
    · rintro ⟨stop, hemits⟩
      obtain ⟨hdepth, last, hlast, -⟩ := emits_container.mp hemits
      exact ⟨_, Writer.levels_begin hdepth, (h.emits_iff _).mp ⟨last, hlast⟩⟩
    · rintro ⟨inner, hlevels, henough⟩
      have hdepth : start.pending.length ≤ start.options.maxDepth := by
        rw [Writer.levels] at hlevels
        omega
      have hinner : (start.begin container).levels = inner :=
        Nat.succ.inj ((Writer.levels_begin hdepth).symm.trans hlevels)
      obtain ⟨last, hlast⟩ := (h.emits_iff (start.begin container)).mpr (hinner.symm ▸ henough)
      exact ⟨_, emits_container.mpr ⟨hdepth, last, hlast, rfl⟩⟩
  · intro start stop hemits
    obtain ⟨-, last, hlast, rfl⟩ := emits_container.mp hemits
    obtain ⟨hmaxDepth, hpending⟩ := h.sameRoom _ last hlast
    refine ⟨?_, ?_⟩
    · rw [Writer.options_finish, hmaxDepth, Writer.options_begin]
    · rw [Writer.length_pending_finish, hpending, Writer.length_pending_begin, Nat.add_sub_cancel]

theorem float (format : FloatFormat) (bits : Nat) :
    Takes (Write.float format bits) fun _ => format.isFinite bits = true := by
  rw [Write.float]
  split
  next hfinite => exact (put fun writer => .startValue_put writer _).congr (by simp [hfinite])
  next hfinite => exact (throw _).congr (by simp [hfinite])

theorem scalar (content : Scalar) : Takes (Write.scalar content) fun _ => content.IsFinite := by
  cases content with
  | integer => exact put fun writer => .startValue_put writer _
  | float format bits => exact float format bits
  | bool => exact put fun writer => .startValue_put writer _
  | text => exact put fun writer => .startValue_put writer _
  | date => exact put fun writer => .startValue_put writer _

end Takes

end Write

/-- What a class value gives for the members of its class, one after the other. -/
def ClassDecl.written (decl : ClassDecl) (stored : List Value) : List Value :=
  decl.memberValues.filterMap fun position => stored[position]?

theorem ClassDecl.mem_of_mem_written {decl : ClassDecl} {stored : List Value} {value : Value}
    (h : value ∈ decl.written stored) : value ∈ stored := by
  obtain ⟨position, -, hposition⟩ := List.mem_filterMap.mp h
  exact List.mem_of_getElem? hposition

namespace Catalog

variable {catalog : Catalog} {typeName : String}

theorem writeRecord_eq_throw {error : Error} (hschema : catalog.schema typeName = .error error)
    (stored : List Entry) : catalog.writeRecord typeName stored = throw error := by
  rw [writeRecord, hschema]
  rfl

theorem writeRecord_eq_write {decl : ClassDecl} {schema : Schema}
    (hfind : catalog.find? typeName = some decl) (hschema : catalog.schema typeName = .ok schema)
    (stored : List Value) : catalog.writeRecord typeName (stored.map (Value.entry catalog))
      = schema.write ((decl.written stored).map (Value.entry catalog)) := by
  rw [writeRecord, hschema, Value.memberEntries_map hfind]
  rfl

end Catalog

namespace Value

/-- Where so many levels are left, nothing keeps the value from being written: its numbers are
finite, its containers are not too deep, and its classes bind, give a value for every member, and
one that is there for every member that must be. -/
inductive Encodes (catalog : Catalog) : (levels : Nat) → Value → Prop
  | scalar {content : Scalar} (levels : Nat) : content.IsFinite →
      Encodes catalog levels (.scalar content)
  | absent (levels : Nat) (wrapper : Wrapper) : Encodes catalog levels (.absent wrapper)
  | present {levels : Nat} {content : Value} (wrapper : Wrapper) : Encodes catalog levels content →
      Encodes catalog levels (.present wrapper content)
  | list {levels : Nat} {items : List Value} : (∀ item ∈ items, Encodes catalog levels item) →
      Encodes catalog (levels + 1) (.list items)
  | record {levels : Nat} {decl : ClassDecl} {schema : Schema} {typeName : String}
      {stored : List Value} :
      catalog.find? typeName = some decl → decl.bind = .ok schema →
      (decl.written stored).length = decl.members.length →
      (∀ given ∈ decl.members.zip (decl.written stored),
        given.2.isAbsent = true → given.1.nullable = true) →
      (∀ given ∈ decl.members.zip (decl.written stored), Encodes catalog levels given.2) →
      Encodes catalog (levels + 1) (.record typeName stored)

variable {catalog : Catalog} {levels : Nat}

theorem encodes_scalar {content : Scalar} :
    (Value.scalar content).Encodes catalog levels ↔ content.IsFinite := by
  constructor
  · rintro ⟨⟩
    assumption
  · exact .scalar levels

theorem encodes_list {items : List Value} : (Value.list items).Encodes catalog levels ↔
    ∃ inner, levels = inner + 1 ∧ ∀ item ∈ items, item.Encodes catalog inner := by
  constructor
  · rintro ⟨⟩
    exact ⟨_, rfl, ‹_›⟩
  · rintro ⟨inner, rfl, hitems⟩
    exact .list hitems

theorem encodes_present {wrapper : Wrapper} {content : Value} :
    (Value.present wrapper content).Encodes catalog levels ↔ content.Encodes catalog levels := by
  constructor
  · rintro ⟨⟩
    assumption
  · exact .present wrapper

theorem encodes_record {decl : ClassDecl} {schema : Schema} {typeName : String} {stored : List Value}
    (hfind : catalog.find? typeName = some decl) (hbind : decl.bind = .ok schema) :
    (Value.record typeName stored).Encodes catalog levels ↔
      (decl.written stored).length = decl.members.length ∧ ∃ inner, levels = inner + 1 ∧
        ∀ given ∈ decl.members.zip (decl.written stored),
          (given.2.isAbsent = true → given.1.nullable = true) ∧ given.2.Encodes catalog inner := by
  constructor
  · intro h
    cases h with
    | record hfind' _ hlength hpresent hvalues =>
      obtain rfl := Option.some.inj (hfind.symm.trans hfind')
      exact ⟨hlength, _, rfl, fun given hgiven => ⟨hpresent given hgiven, hvalues given hgiven⟩⟩
  · rintro ⟨hlength, inner, rfl, hgiven⟩
    exact .record hfind hbind hlength (fun given hmem => (hgiven given hmem).1)
      fun given hmem => (hgiven given hmem).2

/-- The value takes the levels it needs, wherever it is written. -/
def IsTaken (catalog : Catalog) (value : Value) : Prop :=
  (value.entry catalog).write.Takes fun levels => value.Encodes catalog levels

theorem takes_elements {items : List Value} (h : ∀ item ∈ items, item.IsTaken catalog) :
    (Write.elements (items.map (entry catalog))).Takes
      fun levels => ∀ item ∈ items, item.Encodes catalog levels := by
  induction items with
  | nil => exact Write.Takes.pure.congr (by simp)
  | cons item items ih =>
    obtain ⟨hitem, hitems⟩ := List.forall_mem_cons.mp h
    exact (hitem.bind (ih hitems)).congr fun levels => List.forall_mem_cons

theorem isTaken_list {items : List Value} (h : ∀ item ∈ items, item.IsTaken catalog) :
    (Value.list items).IsTaken catalog := by
  rw [IsTaken, entry, entries_eq_map]
  exact ((takes_elements h).container .array).congr fun levels => encodes_list

theorem takes_members {className : String} {members : List Member} {values : List Value}
    (h : ∀ value ∈ values, value.IsTaken catalog) :
    (Write.members className members (values.map (entry catalog))).Takes fun levels =>
      ∀ given ∈ members.zip values,
        (given.2.isAbsent = true → given.1.nullable = true) ∧ given.2.Encodes catalog levels := by
  induction members generalizing values with
  | nil => exact Write.Takes.pure.congr (by simp)
  | cons member members ih =>
    obtain _ | ⟨value, values⟩ := values
    · exact Write.Takes.pure.congr (by simp)
    obtain ⟨hvalue, hvalues⟩ := List.forall_mem_cons.mp h
    rw [List.map_cons, Write.members, isAbsent_entry]
    cases habsent : value.isAbsent with
    | true =>
      -- Nothing is written for an absent value, so it takes no levels where it is allowed.
      obtain ⟨wrapper, rfl⟩ : ∃ wrapper, value = .absent wrapper := by
        cases value <;> cases habsent
        exact ⟨_, rfl⟩
      have hencodes (levels : Nat) : (Value.absent wrapper).Encodes catalog levels := .absent levels _
      rw [if_pos rfl]
      split
      next hnullable => exact (ih hvalues).congr (by simp [hnullable, hencodes])
      next hnullable => exact (Write.Takes.throw _).congr (by simp [hnullable, habsent])
    | false =>
      rw [if_neg Bool.false_ne_true]
      have hkey : (Write.put (.key member.name)).Takes fun _ => True :=
        .put fun writer => .key writer _
      refine (hkey.bind ((hvalue.quotingNumbers _).bind (ih hvalues))).congr fun levels => ?_
      simp [habsent]

theorem isTaken_record {typeName : String} {stored : List Value}
    (h : ∀ value ∈ stored, value.IsTaken catalog) : (Value.record typeName stored).IsTaken catalog := by
  rw [IsTaken, entry, entries_eq_map]
  cases hschema : catalog.schema typeName with
  | error error =>
    rw [Catalog.writeRecord_eq_throw hschema]
    refine (Write.Takes.throw error).congr fun levels => iff_of_false ?_ id
    rintro (_ | _ | _ | _ | ⟨hfind, hbind, -, -, -⟩)
    rw [Catalog.schema, hfind] at hschema
    cases hbind.symm.trans hschema
  | ok schema =>
    obtain ⟨decl, hfind, hdecl, -⟩ := Catalog.schema_eq_ok hschema
    have hbind : decl.bind = .ok schema := by
      rwa [Catalog.schema, hfind] at hschema
    have hsize : schema.table.size = decl.members.length := by
      rw [hdecl]
      rfl
    have hchosen : ∀ value ∈ decl.written stored, value.IsTaken catalog :=
      fun value hvalue => h value (ClassDecl.mem_of_mem_written hvalue)
    simp only [Catalog.writeRecord_eq_write hfind hschema, encodes_record hfind hbind]
    by_cases hlength : (decl.written stored).length = decl.members.length
    · rw [Schema.write, if_neg (by simpa [hsize] using hlength)]
      refine ((takes_members hchosen).container .object).congr fun levels => ?_
      simp [hlength, hdecl]
    · rw [Schema.write, if_pos (by simpa [hsize] using hlength)]
      exact (Write.Takes.throw _).congr (by simp [hlength])

mutual

theorem isTaken (catalog : Catalog) : (value : Value) → value.IsTaken catalog
  | .scalar content => (Write.Takes.scalar content).congr fun _ => encodes_scalar
  | .absent wrapper =>
    (Write.Takes.put fun writer => .startValue_put writer _).congr fun levels =>
      iff_of_true (.absent levels wrapper) trivial
  | .present _ content => (isTaken catalog content).congr fun _ => encodes_present
  | .list items => isTaken_list (areTaken catalog items)
  | .record _ stored => isTaken_record (areTaken catalog stored)

theorem areTaken (catalog : Catalog) : (values : List Value) → ∀ value ∈ values, value.IsTaken catalog
  | [] => by simp
  | value :: values => List.forall_mem_cons.mpr ⟨isTaken catalog value, areTaken catalog values⟩

end

end Value

theorem Catalog.encode_succeeds_iff {catalog : Catalog} {value : Value} {options : WriteOptions} :
    (∃ text, catalog.encode value options = .ok text) ↔
      value.Encodes catalog (options.maxDepth + 1) := by
  have hlevels : (Writer.start options).levels = options.maxDepth + 1 := rfl
  rw [← hlevels, ← (value.isTaken catalog).emits_iff (.start options)]
  rw [Catalog.encode, Write.document]
  constructor
  · rintro ⟨text, h⟩
    split at h
    next stop hstep => exact ⟨stop, hstep⟩
    next => cases h
  · rintro ⟨stop, hstep⟩
    have houtcome : (value.entry catalog).write (Writer.start options) = (.ok (), stop) := hstep
    exact ⟨stop.text, by rw [houtcome]⟩

end SchemaJson
