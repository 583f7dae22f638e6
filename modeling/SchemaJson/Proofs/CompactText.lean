import SchemaJson.Proofs.ScalarTexts
import SchemaJson.Proofs.Sequences
import SchemaJson.Proofs.WrittenEntries

/-! Compact documents as a plain recursion over the value, down to the texts that scalars have. The
writer carries the open containers and the flag for quotes around numbers from one step to the next;
neither leaves a trace in the text but the commas and the quotes that the value itself asks for. -/

namespace SchemaJson

/-- Only numbers are quoted when that is asked for. -/
def Scalar.print (spelling : Spelling) (content : Scalar) (quoted : Bool) : Bytes :=
  match content with
  | .integer .. | .float .. =>
    if quoted then Ascii.quote :: spelling.text content ++ [Ascii.quote] else spelling.text content
  | .bool _ | .text _ | .date _ => spelling.text content

theorem Scalar.print_eq_written (spelling : Spelling) {content : Scalar}
    (hfinite : content.IsFinite) : content.print spelling = content.print .written := by
  have htext : spelling.text content = Spelling.written.text content :=
    spelling.text_eq_written hfinite
  funext quoted
  simp only [Scalar.print, htext]

/-- The text of a value, which may depend on whether numbers are to be quoted. -/
structure Printed where
  isAbsent : Bool
  text : (quoted : Bool) → Bytes

def Container.print : Container → List Bytes → Bytes
  | .array, texts => Ascii.openBracket :: [Ascii.comma].intercalate texts ++ [Ascii.closeBracket]
  | .object, texts => Ascii.openBrace :: [Ascii.comma].intercalate texts ++ [Ascii.closeBrace]

def Printed.members (spelling : Spelling) : List Member → List Printed → List Bytes
  | member :: members, value :: values =>
    if value.isAbsent then Printed.members spelling members values
    else (spelling.text (.text member.name) ++ Ascii.colon :: value.text member.tag.isQuotedNumber)
      :: Printed.members spelling members values
  | _, _ => []

def Printed.record (spelling : Spelling) (decl : ClassDecl) (stored : List Printed) : Bytes :=
  Container.object.print (Printed.members spelling decl.members
    (decl.memberValues.filterMap fun position => stored[position]?))

namespace Value

mutual

/-- What a value is printed as without any line breaks. Elements are printed as their array is
asked for; inside an object only the members' own declarations count. -/
def printed (spelling : Spelling) (catalog : Catalog) : Value → Printed
  | .scalar content => ⟨false, content.print spelling⟩
  | .absent _ => ⟨true, fun _ => Bytes.ofString "null"⟩
  | .present _ content => ⟨false, (printed spelling catalog content).text⟩
  | .list items => ⟨false, fun quoted =>
      Container.array.print ((printedAll spelling catalog items).map (·.text quoted))⟩
  | .record typeName stored => ⟨false, fun _ =>
      ((catalog.find? typeName).map fun decl =>
        Printed.record spelling decl (printedAll spelling catalog stored)).getD []⟩

def printedAll (spelling : Spelling) (catalog : Catalog) : List Value → List Printed
  | [] => []
  | value :: values => printed spelling catalog value :: printedAll spelling catalog values

end

def print (spelling : Spelling) (catalog : Catalog) (value : Value) : Bytes :=
  (value.printed spelling catalog).text false

end Value

/-- Whether the values of the type are objects, or consist of objects. -/
def ArgType.holdsRecords : ArgType → Bool
  | scalar _ => false
  | record _ => true
  | growable element => element.holdsRecords
  | fixed element _ => element.holdsRecords
  | nullable _ content => content.holdsRecords

namespace Value

/-- The value has the type, whatever its payloads and its classes are. -/
inductive IsEncodable : ArgType → Value → Prop
  | scalar (content : Scalar) : IsEncodable (.scalar content.type) (.scalar content)
  | record {types : List ArgType} {stored : List Value} (typeName : String) :
      types.length = stored.length → (∀ entry ∈ types.zip stored, IsEncodable entry.1 entry.2) →
      IsEncodable (.record typeName) (.record typeName stored)
  | growable {element : ArgType} {items : List Value} :
      (∀ item ∈ items, IsEncodable element item) → IsEncodable (.growable element) (.list items)
  | fixed {element : ArgType} {items : List Value} :
      (∀ item ∈ items, IsEncodable element item) →
      IsEncodable (.fixed element items.length) (.list items)
  | absent (wrapper : Wrapper) (content : ArgType) :
      IsEncodable (.nullable wrapper content) (.absent wrapper)
  | present {content : ArgType} {value : Value} (wrapper : Wrapper) : IsEncodable content value →
      IsEncodable (.nullable wrapper content) (.present wrapper value)

variable {spelling : Spelling} {catalog : Catalog}

theorem printedAll_eq_map (spelling : Spelling) (catalog : Catalog) (values : List Value) :
    printedAll spelling catalog values = values.map (printed spelling catalog) := by
  induction values with
  | nil => rfl
  | cons value values ih => rw [printedAll, ih, List.map_cons]

theorem text_printed_list (spelling : Spelling) (catalog : Catalog) (items : List Value)
    (quoted : Bool) : ((Value.list items).printed spelling catalog).text quoted
      = Container.array.print (items.map fun item => (item.printed spelling catalog).text quoted) := by
  simp only [printed, printedAll_eq_map, List.map_map, Function.comp_def]

theorem text_printed_record {decl : ClassDecl} {typeName : String}
    (hfind : catalog.find? typeName = some decl) (stored : List Value) (quoted : Bool) :
    ((Value.record typeName stored).printed spelling catalog).text quoted
      = Printed.record spelling decl (stored.map (printed spelling catalog)) := by
  simp only [printed, hfind, printedAll_eq_map, Option.map_some, Option.getD_some]

theorem isAbsent_printed (spelling : Spelling) (catalog : Catalog) (value : Value) :
    (value.printed spelling catalog).isAbsent = (value.entry catalog).isAbsent := by
  cases value <;> rfl

/-- Objects print the same whether numbers are to be quoted or not. -/
theorem IsEncodable.text_eq {type : ArgType} {value : Value} (h : IsEncodable type value)
    (hrecords : type.holdsRecords = true) (quoted quoted' : Bool) :
    (value.printed spelling catalog).text quoted = (value.printed spelling catalog).text quoted' := by
  induction h with
  | scalar => cases hrecords
  | record => rfl
  | @growable element items _ ih =>
    rw [text_printed_list, text_printed_list,
      List.map_congr_left fun item hitem => ih item hitem hrecords]
  | @fixed element items _ ih =>
    rw [text_printed_list, text_printed_list,
      List.map_congr_left fun item hitem => ih item hitem hrecords]
  | absent => rfl
  | present _ _ ih => exact ih hrecords

end Value

namespace Writer

variable {writer : Writer} {container : Container} {outer : List OpenContainer}

@[simp]
theorem withNumbersQuoted_withNumbersQuoted (quoted quoted' : Bool) (writer : Writer) :
    (writer.withNumbersQuoted quoted).withNumbersQuoted quoted' = writer.withNumbersQuoted quoted' :=
  rfl

@[simp]
theorem options_withNumbersQuoted (quoted : Bool) (writer : Writer) :
    (writer.withNumbersQuoted quoted).options = writer.options :=
  rfl

@[simp]
theorem pending_withNumbersQuoted (quoted : Bool) (writer : Writer) :
    (writer.withNumbersQuoted quoted).pending = writer.pending :=
  rfl

@[simp]
theorem numbersQuoted_withNumbersQuoted (quoted : Bool) (writer : Writer) :
    (writer.withNumbersQuoted quoted).numbersQuoted = quoted :=
  rfl

@[simp]
theorem numbersQuoted_finish (container : Container) (writer : Writer) :
    (writer.finish container).numbersQuoted = writer.numbersQuoted := by
  rw [finish]
  split
  · rfl
  · split <;> rfl

@[simp]
theorem put_withNumbersQuoted (quoted : Bool) (bytes : Bytes) (writer : Writer) :
    (writer.withNumbersQuoted quoted).put bytes = (writer.put bytes).withNumbersQuoted quoted :=
  rfl

@[simp]
theorem startEntry_withNumbersQuoted (quoted : Bool) (writer : Writer) :
    (writer.withNumbersQuoted quoted).startEntry = writer.startEntry.withNumbersQuoted quoted := by
  rcases hpending : writer.pending with _ | ⟨⟨container, _ | _⟩, outer⟩
  · simp [startEntry, hpending]
  · have hpending' : (writer.withNumbersQuoted quoted).pending = _ := hpending
    rw [startEntry_next hpending, startEntry_next hpending']
    rfl
  · have hpending' : (writer.withNumbersQuoted quoted).pending = _ := hpending
    rw [startEntry_first hpending, startEntry_first hpending']
    rfl

@[simp]
theorem startValue_withNumbersQuoted (quoted : Bool) (writer : Writer) :
    (writer.withNumbersQuoted quoted).startValue = writer.startValue.withNumbersQuoted quoted := by
  rcases hpending : writer.pending with _ | ⟨⟨_ | _, isEmpty⟩, outer⟩
  · simp [startValue, withNumbersQuoted, hpending]
  · simp [startValue, withNumbersQuoted, hpending]
  · simpa [startValue, withNumbersQuoted, hpending] using startEntry_withNumbersQuoted quoted writer

theorem begin_withNumbersQuoted (quoted : Bool) (container : Container) (writer : Writer) :
    (writer.withNumbersQuoted quoted).begin container
      = (writer.begin container).withNumbersQuoted quoted := by
  rw [begin, begin, startValue_withNumbersQuoted]
  rfl

theorem finish_withNumbersQuoted (quoted : Bool) (container : Container) (writer : Writer) :
    (writer.withNumbersQuoted quoted).finish container
      = (writer.finish container).withNumbersQuoted quoted := by
  rcases hpending : writer.pending with _ | ⟨⟨inner, _ | _⟩, outer⟩
  · simp [finish, withNumbersQuoted, hpending, put]
  · simp only [finish, withNumbersQuoted, hpending]
    split <;> rfl
  · simp [finish, withNumbersQuoted, hpending, put]

theorem key_withNumbersQuoted (quoted : Bool) (name : Bytes) (writer : Writer) :
    (writer.withNumbersQuoted quoted).key name = (writer.key name).withNumbersQuoted quoted := by
  rw [key_eq, key_eq, startEntry_withNumbersQuoted]
  rfl

theorem continued_nil (core : Bytes) (cores : List Bytes) :
    core ++ continued [] cores = [Ascii.comma].intercalate (core :: cores) := by
  induction cores generalizing core with
  | nil => simp [continued]
  | cons next cores ih =>
    have htail : continued [] (next :: cores) = Ascii.comma :: (next ++ continued [] cores) := by
      simp [continued]
    rw [htail, ih]
    simp [List.intercalate]

theorem lineBreak_compact {options : WriteOptions} (hcompact : options.pretty = false) (depth : Nat) :
    lineBreak options depth = [] := by
  simp [lineBreak, hcompact]

theorem entriesText_compact {options : WriteOptions} (hcompact : options.pretty = false) (depth : Nat)
    (cores : List Bytes) : entriesText options depth cores = [Ascii.comma].intercalate cores := by
  cases cores with
  | nil => rfl
  | cons core cores =>
    rw [entriesText, lineBreak_compact hcompact, lineBreak_compact hcompact, ← continued_nil]
    simp

/-- In a compact document there are only commas between the entries of a container. -/
theorem finish_fill_begin_compact (container : Container) (cores : List Bytes) {writer : Writer}
    (hcompact : writer.options.pretty = false) :
    ((writer.begin container).fill cores).finish container
      = writer.startValue.put (container.print cores) := by
  have hoptions : writer.startValue.options.pretty = false := by simpa using hcompact
  rw [finish_fill_begin_eq, entriesText_compact hoptions]
  cases container <;> rfl

theorem finish_of_fill_compact {start last : Writer} {cores : List Bytes}
    (hcompact : start.options.pretty = false)
    (hlast : last.withNumbersQuoted false
      = ((start.begin container).withNumbersQuoted false).fill cores) :
    (last.finish container).withNumbersQuoted false
      = (start.withNumbersQuoted false).startValue.put (container.print cores) := by
  have hcompact' : (start.withNumbersQuoted false).options.pretty = false := hcompact
  rw [← finish_withNumbersQuoted, hlast, ← begin_withNumbersQuoted,
    finish_fill_begin_compact container cores hcompact']

end Writer

namespace Value

variable {spelling : Spelling} {catalog : Catalog} {start stop : Writer} {outer : List Container}

/-- Wherever the value is written, it puts the text it is printed as. Only objects change whether
numbers are quoted, and none of them does so where they are not. -/
def IsPrinted (spelling : Spelling) (catalog : Catalog) (holdsRecords : Bool) (value : Value) : Prop :=
  ∀ start stop : Writer, start.options.pretty = false →
    Write.Emits (value.entry catalog).write start stop →
    stop.withNumbersQuoted false = (start.withNumbersQuoted false).startValue.put
        ((value.printed spelling catalog).text start.numbersQuoted) ∧
      (holdsRecords = true ∨ stop.numbersQuoted = start.numbersQuoted) ∧
      (start.numbersQuoted = false → stop.numbersQuoted = false)

theorem isPrinted_of_put {value : Value} {holdsRecords : Bool}
    (h : ∀ start stop, Write.Emits (value.entry catalog).write start stop →
      stop = start.startValue.put ((value.printed spelling catalog).text start.numbersQuoted)) :
    value.IsPrinted spelling catalog holdsRecords := by
  intro start stop _ hemits
  obtain rfl := h start stop hemits
  exact ⟨by simp, .inr (by simp), by simp⟩

/-- The writer puts the text that the scalar has. -/
theorem isPrinted_scalar (content : Scalar) :
    (Value.scalar content).IsPrinted spelling catalog false := by
  refine isPrinted_of_put fun start stop hemits => ?_
  obtain ⟨hfinite, hput⟩ : content.IsFinite
      ∧ stop = start.startValue.put (content.print .written start.numbersQuoted) := by
    cases content with
    | integer kind value => exact ⟨trivial, (Write.emits_put.mp hemits).symm⟩
    | float format bits =>
      obtain ⟨hfinite, hput⟩ := Write.emits_float.mp hemits
      exact ⟨hfinite, hput.symm⟩
    | bool value =>
      obtain rfl := Write.emits_put.mp hemits
      cases value <;> exact ⟨trivial, rfl⟩
    | text content => exact ⟨trivial, (Write.emits_put.mp hemits).symm⟩
    | date instant => exact ⟨trivial, (Write.emits_put.mp hemits).symm⟩
  rw [hput, ← Scalar.print_eq_written spelling hfinite]
  rfl

theorem fill_of_emits_elements {element : ArgType} {items : List Value}
    (htypes : ∀ item ∈ items, IsEncodable element item)
    (h : ∀ item ∈ items, item.IsPrinted spelling catalog element.holdsRecords)
    (hcompact : start.options.pretty = false)
    (hopen : start.pending.map OpenContainer.container = .array :: outer)
    (hemits : Write.Emits (Write.elements (items.map (entry catalog))) start stop) :
    stop.withNumbersQuoted false = (start.withNumbersQuoted false).fill
        (items.map fun item => (item.printed spelling catalog).text start.numbersQuoted) ∧
      (element.holdsRecords = true ∨ stop.numbersQuoted = start.numbersQuoted) ∧
      (start.numbersQuoted = false → stop.numbersQuoted = false) := by
  induction items generalizing start with
  | nil =>
    obtain rfl := Write.emits_pure.mp hemits
    exact ⟨rfl, .inr rfl, id⟩
  | cons item items ih =>
    obtain ⟨htype, htypes⟩ := List.forall_mem_cons.mp htypes
    obtain ⟨hitem, hitems⟩ := List.forall_mem_cons.mp h
    obtain ⟨middle, hfirst, hrest⟩ := Write.emits_bind.mp hemits
    obtain ⟨hmiddle, hflag, hunquoted⟩ := hitem start middle hcompact hfirst
    rw [@Writer.startValue_of_array (start.withNumbersQuoted false) outer hopen] at hmiddle
    have hoptions : middle.options = start.options := by
      simpa using congrArg Writer.options hmiddle
    have hpending : middle.pending = start.startEntry.pending := by
      simpa using congrArg Writer.pending hmiddle
    obtain ⟨hstop, hflags, hunquoteds⟩ := ih htypes hitems (hoptions ▸ hcompact)
      (hpending ▸ (Writer.map_container_startEntry start).trans hopen) hrest
    -- An object may have changed the flag, but then all elements are objects and print the same.
    have htexts : (items.map fun item => (item.printed spelling catalog).text middle.numbersQuoted)
        = items.map fun item => (item.printed spelling catalog).text start.numbersQuoted := by
      rcases hflag with hrecords | hsame
      · exact List.map_congr_left fun item hmem => (htypes item hmem).text_eq hrecords _ _
      · rw [hsame]
    refine ⟨?_, ?_, fun hstart => hunquoteds (hunquoted hstart)⟩
    · rw [hstop, hmiddle, htexts]
      rfl
    · rcases hflag with hrecords | hsame
      · exact .inl hrecords
      · exact hsame ▸ hflags

/-- A member that is there is one entry: behind it numbers are no longer quoted. -/
theorem put_of_emits_member {member : Member} {value : Value} {holdsRecords : Bool} {last : Writer}
    (h : value.IsPrinted spelling catalog holdsRecords) (hcompact : start.options.pretty = false)
    (hopen : start.pending.map OpenContainer.container = .object :: outer)
    (hemits : Write.Emits (value.entry catalog).write
      ((start.key member.name).withNumbersQuoted member.tag.isQuotedNumber) last) :
    last.withNumbersQuoted false = (start.withNumbersQuoted false).startEntry.put
      (spelling.text (.text member.name) ++ Ascii.colon ::
        (value.printed spelling catalog).text member.tag.isQuotedNumber) := by
  have hoptions : ((start.key member.name).withNumbersQuoted
      member.tag.isQuotedNumber).options.pretty = false := by
    simpa [Writer.key_eq] using hcompact
  obtain ⟨hlast, -, -⟩ := h _ last hoptions hemits
  have hput := @Writer.put_key (start.withNumbersQuoted false) outer hopen rfl member.name false
    ((value.printed spelling catalog).text member.tag.isQuotedNumber)
  have hcolon : Writer.afterColon start.options = [] := by simp [Writer.afterColon, hcompact]
  rw [Writer.key_withNumbersQuoted, Writer.options_withNumbersQuoted, hcolon] at hput
  have hname : spelling.text (.text member.name) = Writer.quoted member.name :=
    spelling.text_eq_written trivial
  simpa [hlast, hname] using hput

theorem fill_of_emits_members {className : String} {members : List Member} {values : List Value}
    (h : ∀ value ∈ values, ∃ holdsRecords, value.IsPrinted spelling catalog holdsRecords)
    (hcompact : start.options.pretty = false)
    (hopen : start.pending.map OpenContainer.container = .object :: outer)
    (hemits : Write.Emits (Write.members className members (values.map (entry catalog))) start stop) :
    stop.withNumbersQuoted false = (start.withNumbersQuoted false).fill
        (Printed.members spelling members (values.map (printed spelling catalog))) ∧
      (start.numbersQuoted = false → stop.numbersQuoted = false) := by
  induction members generalizing start values with
  | nil =>
    obtain rfl := Write.emits_pure.mp hemits
    exact ⟨rfl, id⟩
  | cons member members ih =>
    obtain _ | ⟨value, values⟩ := values
    · obtain rfl := Write.emits_pure.mp hemits
      exact ⟨rfl, id⟩
    obtain ⟨⟨holdsRecords, hvalue⟩, hvalues⟩ := List.forall_mem_cons.mp h
    cases habsent : (value.entry catalog).isAbsent with
    | true =>
      obtain ⟨-, hrest⟩ := (Write.emits_members_of_absent habsent).mp hemits
      have hprinted : Printed.members spelling (member :: members)
            ((value :: values).map (printed spelling catalog))
          = Printed.members spelling members (values.map (printed spelling catalog)) := by
        simp [Printed.members, isAbsent_printed, habsent]
      rw [hprinted]
      exact ih hvalues hcompact hopen hrest
    | false =>
      obtain ⟨last, hentry, hrest⟩ := (Write.emits_members_of_present habsent).mp hemits
      have hlast := put_of_emits_member hvalue hcompact hopen hentry
      have hcompact' : (last.withNumbersQuoted false).options.pretty = false := by
        rw [hlast]
        simpa using hcompact
      have hopen' : (last.withNumbersQuoted false).pending.map OpenContainer.container
          = .object :: outer := by
        rw [hlast]
        exact (Writer.map_container_startEntry (start.withNumbersQuoted false)).trans hopen
      obtain ⟨hstop, hunquoted⟩ := ih hvalues hcompact' hopen' hrest
      refine ⟨?_, fun _ => hunquoted rfl⟩
      rw [hstop, Writer.withNumbersQuoted_withNumbersQuoted, hlast]
      simp [Printed.members, isAbsent_printed, habsent, Writer.fill]

theorem isPrinted_list {element : ArgType} {items : List Value}
    (htypes : ∀ item ∈ items, IsEncodable element item)
    (h : ∀ item ∈ items, item.IsPrinted spelling catalog element.holdsRecords) :
    (Value.list items).IsPrinted spelling catalog element.holdsRecords := by
  intro start stop hcompact hemits
  rw [entry, entries_eq_map] at hemits
  obtain ⟨-, last, helements, rfl⟩ := Write.emits_container.mp hemits
  obtain ⟨hlast, hflag, hunquoted⟩ := fill_of_emits_elements htypes h
    ((Writer.options_begin .array start).symm ▸ hcompact)
    (show (start.begin .array).pending.map OpenContainer.container = .array :: _ from rfl) helements
  rw [Writer.numbersQuoted_begin] at hlast hflag hunquoted
  refine ⟨?_, by simpa using hflag, by simpa using hunquoted⟩
  rw [Writer.finish_of_fill_compact hcompact hlast, text_printed_list]

theorem isPrinted_record {typeName : String} {stored : List Value}
    (h : ∀ value ∈ stored, ∃ holdsRecords, value.IsPrinted spelling catalog holdsRecords) :
    (Value.record typeName stored).IsPrinted spelling catalog true := by
  intro start stop hcompact hemits
  obtain ⟨schema, hschema, hwrite⟩ := Write.emits_writeRecord.mp hemits
  obtain ⟨decl, hfind, rfl, -⟩ := Catalog.schema_eq_ok hschema
  rw [entries_eq_map, memberEntries_map hfind] at hwrite
  obtain ⟨-, hcontainer⟩ := Write.emits_write.mp hwrite
  obtain ⟨-, last, hmembers, rfl⟩ := Write.emits_container.mp hcontainer
  have hchosen : ∀ value ∈ decl.memberValues.filterMap fun position => stored[position]?,
      ∃ holdsRecords, value.IsPrinted spelling catalog holdsRecords := by
    intro value hvalue
    obtain ⟨position, -, hposition⟩ := List.mem_filterMap.mp hvalue
    exact h value (List.mem_of_getElem? hposition)
  obtain ⟨hlast, hunquoted⟩ := fill_of_emits_members hchosen
    ((Writer.options_begin .object start).symm ▸ hcompact)
    (show (start.begin .object).pending.map OpenContainer.container = .object :: _ from rfl) hmembers
  rw [Writer.numbersQuoted_begin] at hunquoted
  refine ⟨?_, .inl rfl, by simpa using hunquoted⟩
  have hstored :
      (decl.memberValues.filterMap fun position => (stored.map (printed spelling catalog))[position]?)
        = (decl.memberValues.filterMap fun position => stored[position]?).map
          (printed spelling catalog) := by
    simp only [List.getElem?_map, List.map_filterMap]
  rw [Writer.finish_of_fill_compact hcompact hlast, text_printed_record hfind,
    Printed.record, hstored]

theorem IsEncodable.isPrinted {type : ArgType} {value : Value} (htype : IsEncodable type value) :
    value.IsPrinted spelling catalog type.holdsRecords := by
  induction htype with
  | scalar content => exact isPrinted_scalar content
  | @record types stored typeName hlength _ ih =>
    refine isPrinted_record fun value hvalue => ?_
    obtain ⟨position, hposition, rfl⟩ := List.mem_iff_getElem.mp hvalue
    have hentry : (types[position], stored[position]) ∈ types.zip stored :=
      List.mem_iff_getElem.mpr ⟨position, by simpa [hlength] using hposition, List.getElem_zip⟩
    exact ⟨_, ih _ hentry⟩
  | @growable element items htypes ih => exact @isPrinted_list spelling catalog element items htypes ih
  | @fixed element items htypes ih => exact @isPrinted_list spelling catalog element items htypes ih
  | absent wrapper content =>
    exact isPrinted_of_put fun start stop hemits => (Write.emits_put.mp hemits).symm
  | present wrapper _ ih => exact ih

end Value

namespace Writer

/-- The comma in front of a value, which only a further element owes. -/
def owedComma : (pending : List OpenContainer) → Bytes
  | ⟨.array, false⟩ :: _ => [Ascii.comma]
  | _ => []

/-- What is open behind a value: as before, but an array is no longer empty. -/
def pendingAfter : (pending : List OpenContainer) → List OpenContainer
  | ⟨.array, _⟩ :: outer => ⟨.array, false⟩ :: outer
  | pending => pending

theorem startValue_compact {writer : Writer} (hcompact : writer.options.pretty = false) :
    writer.startValue
      = { writer.put (owedComma writer.pending) with pending := pendingAfter writer.pending } := by
  obtain ⟨options, out, pending, numbersQuoted⟩ := writer
  rcases pending with _ | ⟨⟨_ | _, _ | _⟩, outer⟩
  · exact (put_nil _).symm
  · exact (put_nil _).symm
  · exact (put_nil _).symm
  · refine (@startEntry_next ⟨options, out, _, numbersQuoted⟩ .array outer rfl).trans ?_
    rw [lineBreak_compact hcompact]
    rfl
  · refine (@startEntry_first ⟨options, out, _, numbersQuoted⟩ .array outer rfl).trans ?_
    rw [lineBreak_compact hcompact]
    rfl

theorem withNumbersQuoted_eq_self {writer : Writer} {quoted : Bool}
    (h : writer.numbersQuoted = quoted) : writer.withNumbersQuoted quoted = writer := by
  rw [← h]
  rfl

end Writer

/-- A value of a type is written as its own text behind the comma it owes, and leaves everything
else of the writer as it was: what is open, and that numbers are not quoted. -/
theorem compact_text_is_print (spelling : Spelling) {catalog : Catalog} {type : ArgType}
    {value : Value} (htype : value.IsEncodable type) :
    (∀ start stop : Writer, start.options.pretty = false → start.numbersQuoted = false →
      Write.Emits (value.entry catalog).write start stop →
      stop = { start.put (Writer.owedComma start.pending ++ value.print spelling catalog) with
        pending := Writer.pendingAfter start.pending }) ∧
    ∀ options text, options.pretty = false → catalog.encode value options = .ok text →
      text = value.print spelling catalog := by
  have hwrites (start stop : Writer) (hcompact : start.options.pretty = false)
      (hstart : start.numbersQuoted = false)
      (hemits : Write.Emits (value.entry catalog).write start stop) :
      stop = { start.put (Writer.owedComma start.pending ++ value.print spelling catalog) with
        pending := Writer.pendingAfter start.pending } := by
    obtain ⟨hput, -, hunquoted⟩ := @Value.IsEncodable.isPrinted spelling catalog _ _ htype
      start stop hcompact hemits
    rw [Writer.withNumbersQuoted_eq_self hstart, hstart,
      Writer.withNumbersQuoted_eq_self (hunquoted hstart), Writer.startValue_compact hcompact] at hput
    rw [hput, ← Writer.put_put]
    rfl
  refine ⟨hwrites, fun options text hcompact hencode => ?_⟩
  rw [Catalog.encode, Write.document] at hencode
  split at hencode
  next writer hstep =>
    rw [hwrites (.start options) writer hcompact rfl hstep] at hencode
    simpa [Writer.text, Writer.put, Writer.start, Writer.owedComma] using (Except.ok.inj hencode).symm
  next => cases hencode

def accountClass : ClassDecl where
  typeName := "ledger::Account"
  members := [.ofString "id" (.number (.integer .u64) .always),
    (Member.ofString "a \"note\"" .string).asNullable,
    .ofString "marks" (.array (.number (.integer .i32) .never)),
    .ofString "rate" (.number (.float .double) .never), .ofString "opened" .date]
  signature := ⟨.direct, [.scalar (.number (.integer .u64)), .nullable .option (.scalar .text),
    .growable (.scalar (.number (.integer .i32))), .scalar (.number (.float .double)),
    .scalar .date]⟩
  memberValues := [0, 1, 2, 3, 4]
  blank := [.scalar (.integer .u64 0), .absent .option, .list [], .scalar (.float .double 0),
    .scalar (.date .epoch)]

def ledgerCatalog : Catalog := ⟨[accountClass]⟩

/-- The account with a note has one quote of it escaped and one not. -/
def twoAccounts : Value := .list
  [.record "ledger::Account" [.scalar (.integer .u64 7), .absent .option,
    .list [.scalar (.integer .i32 1), .scalar (.integer .i32 (-2))],
    .scalar (.float .double 0x3fb999999999999a), .scalar (.date ⟨78796799, 1500000000⟩)],
  .record "ledger::Account" [.scalar (.integer .u64 8),
    .present .option (.scalar (.text (Bytes.ofString "\\\"x\"\n"))), .list [],
    .scalar (.float .double 0xc480f0cf064dd592), .scalar (.date ⟨0, 0⟩)]]

theorem isEncodable_twoAccounts :
    twoAccounts.IsEncodable (.growable (.record "ledger::Account")) := by
  have hnumber (kind : IntegerKind) (value : Int) : Value.IsEncodable
      (.scalar (.number (.integer kind))) (.scalar (.integer kind value)) :=
    .scalar (.integer kind value)
  have hrest (bits : Nat) (instant : Instant) :
      ∀ entry ∈ [ArgType.scalar (.number (.float .double)), .scalar .date].zip
        [Value.scalar (.float .double bits), .scalar (.date instant)],
      Value.IsEncodable entry.1 entry.2 :=
    List.forall_mem_cons.mpr ⟨.scalar (.float .double bits),
      List.forall_mem_singleton.mpr (.scalar (.date instant))⟩
  refine .growable (List.forall_mem_cons.mpr ⟨?_, List.forall_mem_singleton.mpr ?_⟩)
  · refine @Value.IsEncodable.record accountClass.signature.arguments _ _ rfl ?_
    refine List.forall_mem_cons.mpr ⟨hnumber .u64 7, List.forall_mem_cons.mpr ⟨.absent _ _,
      List.forall_mem_cons.mpr ⟨.growable ?_, hrest _ _⟩⟩⟩
    exact List.forall_mem_cons.mpr ⟨hnumber .i32 1, List.forall_mem_singleton.mpr (hnumber .i32 (-2))⟩
  · refine @Value.IsEncodable.record accountClass.signature.arguments _ _ rfl ?_
    exact List.forall_mem_cons.mpr ⟨hnumber .u64 8, List.forall_mem_cons.mpr
      ⟨.present _ (.scalar (.text _)), List.forall_mem_cons.mpr ⟨.growable (by simp), hrest _ _⟩⟩⟩

/-- A document whose array has its first element. -/
def openArray : Writer := ⟨{}, #[Ascii.openBracket, 0x30], [⟨.array, false⟩], false⟩

def accountTexts : Bytes := Bytes.ofString ("[\x7b\"id\":\"7\",\"marks\":[1,-2],\"rate\":0.1,"
  ++ "\"opened\":\"1972-06-30T23:59:60.500Z\"\x7d,"
  ++ "\x7b\"id\":\"8\",\"a \\\"note\\\"\":\"\\\"x\\\"\\u000a\",\"marks\":[],\"rate\":-1e22,"
  ++ "\"opened\":\"1970-01-01T00:00:00Z\"\x7d]")

theorem accounts_printed :
    (∃ stop, Write.Emits (twoAccounts.entry ledgerCatalog).write openArray stop ∧
      stop = openArray.put (Ascii.comma :: twoAccounts.print .written ledgerCatalog)) ∧
    twoAccounts.print .written ledgerCatalog = accountTexts ∧
    ledgerCatalog.encode twoAccounts {} = .ok (twoAccounts.print .written ledgerCatalog) := by
  have hencode : ledgerCatalog.encode twoAccounts {} = .ok accountTexts :=
    toOption_eq_some_iff.mp (by decide +kernel)
  have hemits : Write.Emits (twoAccounts.entry ledgerCatalog).write openArray
      (Write.outcome (twoAccounts.entry ledgerCatalog).write openArray).2 :=
    Prod.ext (toOption_eq_some_iff.mp (by decide +kernel)) rfl
  obtain ⟨hwrites, hprints⟩ :=
    @compact_text_is_print .written ledgerCatalog _ _ isEncodable_twoAccounts
  have htext := hprints {} _ rfl hencode
  exact ⟨⟨_, hemits, hwrites openArray _ rfl rfl hemits⟩, htext.symm, htext ▸ hencode⟩

end SchemaJson
