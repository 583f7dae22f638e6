import SchemaJson.Proofs.DecodedLevels
import SchemaJson.Proofs.WrittenLevels

/-! When writing fails. A value is refused exactly if some part of it that is written is at fault,
and the error is one of such a part. Which error it is depends on the levels that are left, and not
on how the text is laid out. -/

namespace SchemaJson

namespace Writer.SameRoom

variable {start other : Writer}

theorem symm (h : SameRoom start other) : SameRoom other start :=
  ⟨h.maxDepth.symm, h.pending.symm⟩

theorem begin (h : SameRoom start other) (container : Container) :
    SameRoom (start.begin container) (other.begin container) := by
  constructor
  · rw [options_begin, options_begin, h.maxDepth]
  · rw [length_pending_begin, length_pending_begin, h.pending]

end Writer.SameRoom

namespace Write

variable {step next : Write Unit} {Reports Inner : (maxDepth depth : Nat) → Error → Prop}

/-- Where the step fails, it is with one of the errors that are told for the limit and the number
of open containers, and which one depends on these two alone. -/
structure Refuses (step : Write Unit) (Reports : (maxDepth depth : Nat) → Error → Prop) : Prop where
  takes : ∃ enough, step.Takes enough
  sameResult : ∀ start other : Writer, start.SameRoom other →
    (outcome step other).1 = (outcome step start).1
  reports : ∀ (start : Writer) (error : Error), (outcome step start).1 = .error error →
    Reports start.options.maxDepth start.pending.length error

namespace Refuses

theorem put {f : Writer → Writer} (h : ∀ writer : Writer, writer.SameRoom (f writer)) :
    Refuses (Write.put f) Reports :=
  ⟨⟨_, .put h⟩, fun _ _ _ => rfl, by rintro start error ⟨⟩⟩

theorem pure : Refuses (pure ()) Reports := put fun _ => ⟨rfl, rfl⟩

theorem throw {error : Error} (h : ∀ maxDepth depth, Reports maxDepth depth error) :
    Refuses (throw error) Reports := by
  refine ⟨⟨_, .throw error⟩, fun _ _ _ => rfl, ?_⟩
  rintro start _ ⟨⟩
  exact h _ _

theorem mono (h : Refuses step Inner)
    (hreports : ∀ maxDepth depth error, Inner maxDepth depth error → Reports maxDepth depth error) :
    Refuses step Reports :=
  ⟨h.takes, h.sameResult, fun start error herror => hreports _ _ _ (h.reports start error herror)⟩

theorem bind (h : Refuses step Reports) (hnext : Refuses next Reports) :
    Refuses (step >>= fun _ => next) Reports := by
  obtain ⟨enough, htakes⟩ := h.takes
  obtain ⟨enoughNext, htakesNext⟩ := hnext.takes
  refine ⟨⟨_, htakes.bind htakesNext⟩, fun start other hroom => ?_, fun start error herror => ?_⟩
  · have hsame := h.sameResult start other hroom
    rw [outcome_bind, outcome_bind]
    rcases hstart : outcome step start with ⟨_ | ⟨⟩, middle⟩ <;>
      rcases hother : outcome step other with ⟨_ | ⟨⟩, middle'⟩ <;> rw [hstart, hother] at hsame
    · exact hsame
    · cases hsame
    · cases hsame
    · -- Both writers still have the same room when the next step starts.
      have hmiddle := htakes.sameRoom start middle hstart
      have hmiddle' := htakes.sameRoom other middle' hother
      exact hnext.sameResult middle middle' ((hmiddle.symm.trans hroom).trans hmiddle')
  · rw [outcome_bind] at herror
    rcases hstart : outcome step start with ⟨_ | ⟨⟩, middle⟩ <;> rw [hstart] at herror
    · obtain rfl := Except.error.inj herror
      exact h.reports start _ (congrArg Prod.fst hstart)
    · obtain ⟨hmaxDepth, hpending⟩ := htakes.sameRoom start middle hstart
      have hreports := hnext.reports middle error herror
      rwa [hmaxDepth, hpending] at hreports

theorem quotingNumbers (h : Refuses step Reports) (quote : Bool) :
    Refuses (Write.quotingNumbers quote step) Reports := by
  obtain ⟨enough, htakes⟩ := h.takes
  have hresult (start : Writer) : (outcome (Write.quotingNumbers quote step) start).1
      = (outcome step (start.withNumbersQuoted quote)).1 := rfl
  refine ⟨⟨_, htakes.quotingNumbers quote⟩, fun start other hroom => ?_,
    fun start error herror => ?_⟩
  · rw [hresult, hresult]
    exact h.sameResult _ _ ⟨hroom.maxDepth, hroom.pending⟩
  · rw [hresult] at herror
    exact h.reports (start.withNumbersQuoted quote) error herror

theorem result_container (step : Write Unit) (container : Container) (start : Writer) :
    (outcome (do begin container; step; finish container) start).1
      = if start.options.maxDepth < start.pending.length
        then .error (.encode (.depthExceeded start.options.maxDepth))
        else (outcome step (start.begin container)).1 := by
  by_cases hdepth : start.options.maxDepth < start.pending.length
  · rw [outcome_bind, outcome_begin, if_pos hdepth, if_pos hdepth]
  · rw [outcome_bind, outcome_begin, if_neg hdepth, if_neg hdepth]
    dsimp only
    rw [outcome_bind]
    rcases outcome step (start.begin container) with ⟨_ | ⟨⟩, last⟩ <;> rfl

/-- What a container holds stands one level below it. -/
theorem container (h : Refuses step Inner) (container : Container)
    (hdeep : ∀ maxDepth depth, maxDepth < depth →
      Reports maxDepth depth (.encode (.depthExceeded maxDepth)))
    (hinner : ∀ maxDepth depth error, Inner maxDepth (depth + 1) error →
      Reports maxDepth depth error) :
    Refuses (do begin container; step; finish container) Reports := by
  obtain ⟨enough, htakes⟩ := h.takes
  refine ⟨⟨_, htakes.container container⟩, fun start other hroom => ?_, fun start error herror => ?_⟩
  · rw [result_container, result_container, hroom.maxDepth, hroom.pending,
      h.sameResult _ _ (hroom.begin container)]
  · rw [result_container] at herror
    split at herror
    next hdepth =>
      obtain rfl := Except.error.inj herror
      exact hdeep _ _ hdepth
    next =>
      have hreports := h.reports _ error herror
      rw [Writer.options_begin, Writer.length_pending_begin] at hreports
      exact hinner _ _ _ hreports

theorem float {format : FloatFormat} {bits : Nat}
    (h : format.isFinite bits = false → ∀ maxDepth depth,
      Reports maxDepth depth (.encode (.notFinite (nonFiniteName format bits)))) :
    Refuses (Write.float format bits) Reports := by
  rw [Write.float]
  split
  next => exact put fun writer => .startValue_put writer _
  next hfinite => exact throw (h (Bool.eq_false_of_not_eq_true hfinite))

end Refuses

end Write

namespace Value

variable {catalog : Catalog}

/-- The parts of a value that are written, with the number of containers around them. Members
without a value are left out. -/
inductive Visits (catalog : Catalog) : (depth : Nat) → (value part : Value) → Prop
  | here (value : Value) : Visits catalog 0 value value
  | present {depth : Nat} {content part : Value} (wrapper : Wrapper) :
      Visits catalog depth content part → Visits catalog depth (.present wrapper content) part
  | item {depth : Nat} {items : List Value} {item part : Value} : item ∈ items →
      Visits catalog depth item part → Visits catalog (depth + 1) (.list items) part
  | member {depth : Nat} {decl : ClassDecl} {typeName : String} {stored : List Value}
      {given : Member × Value} {part : Value} : catalog.find? typeName = some decl →
      given ∈ decl.members.zip (decl.written stored) → given.2.isAbsent = false →
      Visits catalog depth given.2 part → Visits catalog (depth + 1) (.record typeName stored) part

/-- What keeps a part from being written with so many containers around it. -/
inductive IsAtFault (catalog : Catalog) (maxDepth depth : Nat) : (part : Value) → EncodeFault → Prop
  | notFinite {format : FloatFormat} {bits : Nat} : format.isFinite bits = false →
      IsAtFault catalog maxDepth depth (.scalar (.float format bits))
        (.notFinite (Write.nonFiniteName format bits))
  | deepList (items : List Value) : maxDepth < depth →
      IsAtFault catalog maxDepth depth (.list items) (.depthExceeded maxDepth)
  | deepRecord (typeName : String) (stored : List Value) : maxDepth < depth →
      IsAtFault catalog maxDepth depth (.record typeName stored) (.depthExceeded maxDepth)
  | memberCount {decl : ClassDecl} {typeName : String} {stored : List Value} :
      catalog.find? typeName = some decl →
      (decl.written stored).length ≠ decl.members.length →
      IsAtFault catalog maxDepth depth (.record typeName stored)
        (.memberCount (shortName decl.typeName) (decl.written stored).length decl.members.length)
  | absentMember {decl : ClassDecl} {typeName : String} {stored : List Value}
      {given : Member × Value} : catalog.find? typeName = some decl →
      given ∈ decl.members.zip (decl.written stored) → given.2.isAbsent = true →
      given.1.nullable = false →
      IsAtFault catalog maxDepth depth (.record typeName stored)
        (.absentMember (shortName decl.typeName) given.1.name)

/-- The errors that a part gives by itself: its faults, and that its class does not bind. -/
inductive FailsWith (catalog : Catalog) (maxDepth depth : Nat) : (part : Value) → Error → Prop
  | fault {part : Value} {fault : EncodeFault} : part.IsAtFault catalog maxDepth depth fault →
      FailsWith catalog maxDepth depth part (.encode fault)
  | unbound {typeName : String} {error : Error} (stored : List Value) :
      catalog.schema typeName = .error error →
      FailsWith catalog maxDepth depth (.record typeName stored) error

/-- The errors of the parts of a value that is written inside so many containers. -/
def Reports (catalog : Catalog) (value : Value) (maxDepth depth : Nat) (error : Error) : Prop :=
  ∃ below part, value.Visits catalog below part ∧ part.FailsWith catalog maxDepth (depth + below) error

/-- The value is refused with an error of one of its parts, wherever it is written. -/
def IsRefused (catalog : Catalog) (value : Value) : Prop :=
  (value.entry catalog).write.Refuses (value.Reports catalog)

variable {maxDepth depth : Nat} {error : Error}

theorem reports_self {value : Value} (h : value.FailsWith catalog maxDepth depth error) :
    value.Reports catalog maxDepth depth error :=
  ⟨0, value, .here value, h⟩

theorem reports_item {items : List Value} {item : Value} (hmem : item ∈ items)
    (h : item.Reports catalog maxDepth (depth + 1) error) :
    (Value.list items).Reports catalog maxDepth depth error := by
  obtain ⟨below, part, hvisits, hfails⟩ := h
  have hdepth : depth + 1 + below = depth + (below + 1) := by omega
  exact ⟨below + 1, part, .item hmem hvisits, hdepth ▸ hfails⟩

theorem reports_member {decl : ClassDecl} {typeName : String} {stored : List Value}
    {given : Member × Value} (hfind : catalog.find? typeName = some decl)
    (hmem : given ∈ decl.members.zip (decl.written stored)) (hpresent : given.2.isAbsent = false)
    (h : given.2.Reports catalog maxDepth (depth + 1) error) :
    (Value.record typeName stored).Reports catalog maxDepth depth error := by
  obtain ⟨below, part, hvisits, hfails⟩ := h
  have hdepth : depth + 1 + below = depth + (below + 1) := by omega
  exact ⟨below + 1, part, .member hfind hmem hpresent hvisits, hdepth ▸ hfails⟩

theorem isRefused_scalar (content : Scalar) : (Value.scalar content).IsRefused catalog := by
  cases content with
  | float format bits =>
    exact .float fun hfinite maxDepth depth => reports_self (.fault (.notFinite hfinite))
  | _ => exact .put fun writer => .startValue_put writer _

theorem isRefused_present {content : Value} (wrapper : Wrapper) (h : content.IsRefused catalog) :
    (Value.present wrapper content).IsRefused catalog := by
  refine Write.Refuses.mono h ?_
  rintro maxDepth depth error ⟨below, part, hvisits, hfails⟩
  exact ⟨below, part, .present wrapper hvisits, hfails⟩

theorem refuses_elements {items : List Value} (h : ∀ item ∈ items, item.IsRefused catalog) :
    (Write.elements (items.map (entry catalog))).Refuses fun maxDepth depth error =>
      ∃ item ∈ items, item.Reports catalog maxDepth depth error := by
  induction items with
  | nil => exact .pure
  | cons item items ih =>
    obtain ⟨hitem, hitems⟩ := List.forall_mem_cons.mp h
    refine Write.Refuses.bind (hitem.mono ?_) ((ih hitems).mono ?_)
    · exact fun _ _ _ hreports => ⟨item, List.mem_cons_self, hreports⟩
    · rintro maxDepth depth error ⟨other, hmem, hreports⟩
      exact ⟨other, List.mem_cons_of_mem item hmem, hreports⟩

theorem isRefused_list {items : List Value} (h : ∀ item ∈ items, item.IsRefused catalog) :
    (Value.list items).IsRefused catalog := by
  rw [IsRefused, entry, entries_eq_map]
  refine (refuses_elements h).container .array ?_ ?_
  · exact fun maxDepth depth hdepth => reports_self (.fault (.deepList items hdepth))
  · rintro maxDepth depth error ⟨item, hmem, hreports⟩
    exact reports_item hmem hreports

/-- The errors of an object's members: one that must be there is absent, or what is written of
another is refused. -/
def MembersReport (catalog : Catalog) (className : String) (members : List Member)
    (values : List Value) (maxDepth depth : Nat) (error : Error) : Prop :=
  ∃ given ∈ members.zip values,
    (given.2.isAbsent = true ∧ given.1.nullable = false ∧
      error = .encode (.absentMember className given.1.name)) ∨
    (given.2.isAbsent = false ∧ given.2.Reports catalog maxDepth depth error)

theorem refuses_members {className : String} {members : List Member} {values : List Value}
    (h : ∀ value ∈ values, value.IsRefused catalog) :
    (Write.members className members (values.map (entry catalog))).Refuses
      (MembersReport catalog className members values) := by
  induction members generalizing values with
  | nil => exact .pure
  | cons member members ih =>
    obtain _ | ⟨value, values⟩ := values
    · exact .pure
    obtain ⟨hvalue, hvalues⟩ := List.forall_mem_cons.mp h
    have hrest : (Write.members className members (values.map (entry catalog))).Refuses
        (MembersReport catalog className (member :: members) (value :: values)) := by
      refine (ih hvalues).mono ?_
      rintro maxDepth depth error ⟨given, hmem, hreports⟩
      exact ⟨given, List.mem_cons_of_mem _ hmem, hreports⟩
    rw [List.map_cons, Write.members, isAbsent_entry]
    cases habsent : value.isAbsent with
    | true =>
      rw [if_pos rfl]
      split
      next => exact hrest
      next hnullable =>
        refine .throw fun _ _ => ⟨(member, value), List.mem_cons_self, .inl ⟨habsent, ?_, rfl⟩⟩
        exact Bool.eq_false_of_not_eq_true hnullable
    | false =>
      rw [if_neg Bool.false_ne_true]
      have hfirst : (value.entry catalog).write.Refuses
          (MembersReport catalog className (member :: members) (value :: values)) :=
        hvalue.mono fun _ _ _ hreports =>
          ⟨(member, value), List.mem_cons_self, .inr ⟨habsent, hreports⟩⟩
      exact Write.Refuses.bind (.put fun writer => .key writer member.name)
        ((hfirst.quotingNumbers _).bind hrest)

theorem isRefused_record {typeName : String} {stored : List Value}
    (h : ∀ value ∈ stored, value.IsRefused catalog) :
    (Value.record typeName stored).IsRefused catalog := by
  rw [IsRefused, entry, entries_eq_map]
  cases hschema : catalog.schema typeName with
  | error error =>
    rw [Catalog.writeRecord_eq_throw hschema]
    exact .throw fun _ _ => reports_self (.unbound stored hschema)
  | ok schema =>
    obtain ⟨decl, hfind, rfl, -⟩ := Catalog.schema_eq_ok hschema
    have hchosen : ∀ value ∈ decl.written stored, value.IsRefused catalog :=
      fun value hvalue => h value (ClassDecl.mem_of_mem_written hvalue)
    rw [Catalog.writeRecord_eq_write hfind hschema, Schema.write, List.length_map]
    split
    next hlength =>
      exact .throw fun _ _ => reports_self (.fault (.memberCount hfind hlength))
    next =>
      refine (refuses_members hchosen).container .object ?_ ?_
      · exact fun maxDepth depth hdepth => reports_self (.fault (.deepRecord typeName stored hdepth))
      · rintro maxDepth depth error ⟨given, hmem, hgiven⟩
        obtain ⟨habsent, hnullable, rfl⟩ | ⟨hpresent, hreports⟩ := hgiven
        · exact reports_self (.fault (.absentMember hfind hmem habsent hnullable))
        · exact reports_member hfind hmem hpresent hreports

mutual

theorem isRefused (catalog : Catalog) : (value : Value) → value.IsRefused catalog
  | .scalar content => isRefused_scalar content
  | .absent _ => .put fun writer => .startValue_put writer _
  | .present wrapper content => isRefused_present wrapper (isRefused catalog content)
  | .list items => isRefused_list (areRefused catalog items)
  | .record _ stored => isRefused_record (areRefused catalog stored)

theorem areRefused (catalog : Catalog) :
    (values : List Value) → ∀ value ∈ values, value.IsRefused catalog
  | [] => by simp
  | value :: values =>
    List.forall_mem_cons.mpr ⟨isRefused catalog value, areRefused catalog values⟩

end

/-- Where a value is written, so is each of its parts, with the levels that are left there. -/
theorem Encodes.visited {levels : Nat} {value part : Value} (h : value.Encodes catalog levels)
    (hvisits : value.Visits catalog depth part) :
    ∃ inner, levels = inner + depth ∧ part.Encodes catalog inner := by
  induction hvisits generalizing levels with
  | here => exact ⟨levels, rfl, h⟩
  | present wrapper _ ih => exact ih (encodes_present.mp h)
  | item hmem _ ih =>
    obtain ⟨below, rfl, hitems⟩ := encodes_list.mp h
    obtain ⟨inner, rfl, hpart⟩ := ih (hitems _ hmem)
    exact ⟨inner, by omega, hpart⟩
  | member hfind hmem _ _ ih =>
    cases h with
    | record hfind' _ _ _ hvalues =>
      obtain rfl := Option.some.inj (hfind.symm.trans hfind')
      obtain ⟨inner, rfl, hpart⟩ := ih (hvalues _ hmem)
      exact ⟨inner, by omega, hpart⟩

theorem Encodes.not_isAtFault {levels : Nat} {part : Value} {fault : EncodeFault}
    (h : part.Encodes catalog levels) (hlevels : levels + depth = maxDepth + 1) :
    ¬ part.IsAtFault catalog maxDepth depth fault := by
  intro hfault
  cases hfault with
  | notFinite hfinite =>
    have hencodes : _ = true := encodes_scalar.mp h
    cases hfinite.symm.trans hencodes
  | deepList items hdepth =>
    obtain ⟨inner, rfl, -⟩ := encodes_list.mp h
    omega
  | deepRecord typeName stored hdepth =>
    cases h
    omega
  | memberCount hfind hlength =>
    cases h with
    | record hfind' _ hlength' =>
      obtain rfl := Option.some.inj (hfind.symm.trans hfind')
      exact hlength hlength'
  | absentMember hfind hmem habsent hnullable =>
    cases h with
    | record hfind' _ _ hpresent =>
      obtain rfl := Option.some.inj (hfind.symm.trans hfind')
      cases hnullable.symm.trans (hpresent _ hmem habsent)

end Value

namespace Catalog

/-- Whether the value is written, and which error refuses it. -/
theorem map_encode (catalog : Catalog) (value : Value) (options : WriteOptions) :
    (catalog.encode value options).map (fun _ => ())
      = (Write.outcome (value.entry catalog).write (.start options)).1 := by
  have houtcome : Write.outcome (value.entry catalog).write (.start options)
      = (value.entry catalog).write (Writer.start options) := rfl
  rw [encode, Write.document, houtcome]
  rcases (value.entry catalog).write (Writer.start options) with ⟨_ | ⟨⟩, stop⟩ <;> rfl

theorem encode_eq_error_iff {catalog : Catalog} {value : Value} {options : WriteOptions}
    {error : Error} : catalog.encode value options = .error error ↔
      (Write.outcome (value.entry catalog).write (.start options)).1 = .error error := by
  rw [← map_encode]
  cases catalog.encode value options <;> simp [Except.map]

end Catalog

/-- Where the classes of the objects that are written bind, a value is refused exactly if a part of
it is at fault: a number is not finite, a container is too deep, or an object has another number of
values than members or none for a member that must be there. The error tells such a fault, and is
the same with line breaks and without. -/
theorem encode_fails_exactly {catalog : Catalog} {value : Value}
    (hbinds : ∀ depth typeName stored, value.Visits catalog depth (.record typeName stored) →
      ∃ schema, catalog.schema typeName = .ok schema) (options : WriteOptions) :
    ((∃ error, catalog.encode value options = .error error) ↔
      ∃ depth part fault, value.Visits catalog depth part ∧
        part.IsAtFault catalog options.maxDepth depth fault) ∧
    (∀ error, catalog.encode value options = .error error →
      ∃ depth part fault, value.Visits catalog depth part ∧
        part.IsAtFault catalog options.maxDepth depth fault ∧ error = .encode fault) ∧
    ∀ (pretty : Bool) (indent : Nat),
      (catalog.encode value { options with pretty, indent }).map (fun _ => ())
        = (catalog.encode value options).map fun _ => () := by
  have hrefused := value.isRefused catalog
  have hreport : ∀ error, catalog.encode value options = .error error →
      ∃ depth part fault, value.Visits catalog depth part ∧
        part.IsAtFault catalog options.maxDepth depth fault ∧ error = .encode fault := by
    intro error herror
    obtain ⟨below, part, hvisits, hfails⟩ :=
      hrefused.reports _ error (Catalog.encode_eq_error_iff.mp herror)
    have hdepth : (Writer.start options).pending.length + below = below := Nat.zero_add below
    rw [hdepth] at hfails
    cases hfails with
    | fault hfault => exact ⟨below, part, _, hvisits, hfault, rfl⟩
    | unbound stored hschema =>
      obtain ⟨schema, hbound⟩ := hbinds below _ stored hvisits
      cases hschema.symm.trans hbound
  refine ⟨⟨?_, ?_⟩, hreport, fun pretty indent => ?_⟩
  · rintro ⟨error, herror⟩
    obtain ⟨depth, part, fault, hvisits, hfault, -⟩ := hreport error herror
    exact ⟨depth, part, fault, hvisits, hfault⟩
  · rintro ⟨depth, part, fault, hvisits, hfault⟩
    cases hencode : catalog.encode value options with
    | error error => exact ⟨error, rfl⟩
    | ok text =>
      -- What was written has no part at fault.
      have hencodes := Catalog.encode_succeeds_iff.mp ⟨text, hencode⟩
      obtain ⟨inner, hlevels, hpart⟩ := hencodes.visited hvisits
      exact absurd hfault (hpart.not_isAtFault hlevels.symm)
  · rw [Catalog.map_encode, Catalog.map_encode]
    exact hrefused.sameResult _ _ ⟨rfl, rfl⟩

/-- The blank series holds a number that is none, inside an object inside an array. -/
theorem blank_series_is_refused :
    (∃ depth part fault, blankSeries.Visits seriesCatalog depth part ∧
      part.IsAtFault seriesCatalog 128 depth fault ∧
        seriesCatalog.encode blankSeries {} = .error (.encode fault)) ∧
    ∃ error, seriesCatalog.encode blankSeries { pretty := true } = .error error := by
  have hencode : seriesCatalog.encode blankSeries {} = .error (.encode (.notFinite "NaN")) := rfl
  have hfails := @encode_fails_exactly seriesCatalog blankSeries ?_ {}
  · obtain ⟨-, hreport, hlayout⟩ := hfails
    obtain ⟨depth, part, fault, hvisits, hfault, herror⟩ := hreport _ hencode
    refine ⟨⟨depth, part, fault, hvisits, hfault, hencode.trans (congrArg _ herror)⟩, ?_⟩
    have hpretty := hlayout true 2
    rw [hencode] at hpretty
    cases hagain : seriesCatalog.encode blankSeries { pretty := true } with
    | error error => exact ⟨error, rfl⟩
    | ok text =>
      rw [hagain] at hpretty
      cases hpretty
  · rintro depth typeName stored (_ | _ | _ | ⟨hfind, hmem, -, hlist⟩)
    · exact ⟨_, rfl⟩
    · cases hfind
      rw [List.mem_singleton.mp hmem] at hlist
      rcases hlist with _ | _ | ⟨hitem, hreading⟩
      rw [List.mem_singleton.mp hitem] at hreading
      rcases hreading with _ | _ | _ | ⟨hfind, hmem, -, hnumber⟩
      · exact ⟨_, rfl⟩
      · cases hfind
        rw [List.mem_singleton.mp hmem] at hnumber
        cases hnumber

end SchemaJson
