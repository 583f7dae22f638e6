import SchemaJson.Proofs.EscapedText
import SchemaJson.Proofs.FloatText
import SchemaJson.Proofs.WrittenEntries
import SchemaJson.Proofs.WrittenValues

/-! What a typed value writes: one entry that spells the value's tree, if nothing in the value is
too deep. -/

namespace SchemaJson

namespace Scalar

variable {content : Scalar}

theorem decimalInt_ne_nil (n : Int) : decimalInt n ≠ [] := by
  cases n with
  | ofNat n => exact (isDigitText_decimal n).1
  | negSucc n => exact List.cons_ne_nil _ _

theorem write_ne_nil {format : FloatFormat} {bits : Nat} (layout : FloatLayout)
    (hbits : bits < 2 ^ format.bits) (hfinite : format.isFinite bits = true) :
    layout.write format bits ≠ [] := by
  intro hnil
  have hread := FloatFormat.read_write layout hbits hfinite
  rw [hnil] at hread
  cases format <;> cases hread

theorem spells_numberTree {quoted : Bool} {digits : Bytes} (hne : digits ≠ [])
    (h : ∀ byte ∈ digits, isNumeric byte = true) :
    Spells writtenLexicon (numberTree quoted digits)
      (if quoted then Ascii.quote :: digits ++ [Ascii.quote] else digits) := by
  cases quoted with
  | true => exact .string (writtenLexicon.string_of_isNumeric h)
  | false => exact .literal (writtenLexicon.literal_of_isNumeric hne h)

/-- A value without parts is written as its tree, wherever it stands. -/
theorem exists_core {start stop : Writer} (hsound : content.IsSound)
    (h : Write.Emits (Write.scalar content) start stop) :
    ∃ core, stop = start.startValue.put core ∧
      Spells writtenLexicon (content.tree start.numbersQuoted) core ∧ content.IsFinite := by
  cases content with
  | integer kind value =>
    obtain rfl := Write.emits_put.mp h
    exact ⟨_, rfl, spells_numberTree (decimalInt_ne_nil value) (isNumeric_decimalInt value), trivial⟩
  | float format bits =>
    obtain ⟨hfinite, rfl⟩ := Write.emits_float.mp h
    exact ⟨_, rfl, spells_numberTree (write_ne_nil format.documentLayout hsound hfinite)
      (FloatLayout.isNumeric_write format.documentLayout format bits), hfinite⟩
  | bool value =>
    obtain rfl := Write.emits_put.mp h
    refine ⟨_, rfl, ?_, trivial⟩
    cases value
    · exact .literal (writtenLexicon.literal_of_all (List.cons_ne_nil _ _) rfl)
    · exact .literal (writtenLexicon.literal_of_all (List.cons_ne_nil _ _) rfl)
  | text content =>
    obtain rfl := Write.emits_put.mp h
    obtain ⟨text, rfl⟩ := hsound
    exact ⟨_, rfl, .string (writtenLexicon.string_escape (Bytes.isAligned_ofString text)), trivial⟩
  | date instant =>
    obtain rfl := Write.emits_put.mp h
    have hescape := Writer.escape_eq_self fun byte hmem => (instant.isUnescaped_write byte hmem).1
    refine ⟨_, rfl, ?_, trivial⟩
    rw [Writer.quoted, hescape]
    exact .string (writtenLexicon.string_of_unescaped instant.isUnescaped_write)

end Scalar

namespace Value

variable {catalog : Catalog} {start stop : Writer} {outer : List Container}

/-- Wherever the value is written, it becomes one entry that spells its tree. -/
def IsSpelled (catalog : Catalog) (quoted : Bool) (value : Value) : Prop :=
  ∀ start stop : Writer, start.numbersQuoted = quoted →
    Write.Emits (value.entry catalog).write start stop →
    ∃ core, stop = start.startValue.put core ∧
      Spells writtenLexicon (value.tree catalog quoted) core ∧ value.Writable start.levels

theorem exists_fill_elements {items : List Value} (h : ∀ item ∈ items, item.IsSpelled catalog false)
    (hopen : start.pending.map OpenContainer.container = .array :: outer)
    (hquoted : start.numbersQuoted = false)
    (hemits : Write.Emits (Write.elements (items.map (entry catalog))) start stop) :
    ∃ spelled : List (Tree × Bytes), spelled.map Prod.fst = trees catalog items ∧
      (∀ item ∈ spelled, Spells writtenLexicon item.1 item.2) ∧
      stop = start.fill (spelled.map Prod.snd) ∧ ∀ item ∈ items, item.Writable start.levels := by
  induction items generalizing start with
  | nil =>
    obtain rfl := Write.emits_pure.mp hemits
    exact ⟨[], rfl, by simp, rfl, by simp⟩
  | cons item items ih =>
    obtain ⟨middle, hitem, hrest⟩ := Write.emits_bind.mp hemits
    obtain ⟨core, rfl, hspells, hwritable⟩ := h item (by simp) start middle hquoted hitem
    rw [Writer.startValue_of_array hopen] at hrest
    have hopen' : (start.startEntry.put core).pending.map OpenContainer.container = .array :: outer :=
      (Writer.map_container_startEntry start).trans hopen
    obtain ⟨spelled, htrees, hall, rfl, hwritables⟩ := ih (fun other hmem => h other (by simp [hmem]))
      hopen' (by simp [hquoted]) hrest
    simp only [Writer.levels_put, Writer.levels_startEntry] at hwritables
    refine ⟨(item.tree catalog false, core) :: spelled, ?_, ?_, rfl, ?_⟩
    · rw [List.map_cons, htrees, trees]
    · exact List.forall_mem_cons.mpr ⟨hspells, hall⟩
    · exact List.forall_mem_cons.mpr ⟨hwritable, hwritables⟩

/-- A member that is there is one entry, and the other members follow it. -/
theorem exists_memberText {member : Member} {value : Value} {last : Writer}
    (haligned : member.name.IsAligned)
    (h : value.IsSpelled catalog member.tag.isQuotedNumber)
    (hopen : start.pending.map OpenContainer.container = .object :: outer)
    (hquoted : start.numbersQuoted = false)
    (hemits : Write.Emits (value.entry catalog).write
      ((start.key member.name).withNumbersQuoted member.tag.isQuotedNumber) last) :
    ∃ text : MemberText,
      text.entry = (Writer.escape member.name, value.tree catalog member.tag.isQuotedNumber) ∧
      writtenLexicon.string text.name ∧ Spells writtenLexicon text.tree text.body ∧
      value.Writable start.levels ∧
      last.withNumbersQuoted false = start.startEntry.put text.text := by
  obtain ⟨core, rfl, hspells, hwritable⟩ := h _ _ rfl hemits
  let text : MemberText := ⟨Writer.escape member.name, [], Writer.afterColon start.options,
    value.tree catalog member.tag.isQuotedNumber, core, isBlankText_nil,
    Writer.isBlankText_afterColon start.options⟩
  have htext : Writer.quoted member.name ++ Ascii.colon :: Writer.afterColon start.options ++ core
      = text.text := by
    simp [text, MemberText.text, MemberText.nameText, Writer.quoted]
  have hlevels : ((start.key member.name).withNumbersQuoted member.tag.isQuotedNumber).levels
      = start.levels := by
    rw [Writer.key_eq]
    exact Writer.levels_startEntry start
  refine ⟨text, rfl, writtenLexicon.string_escape haligned, hspells, hlevels ▸ hwritable, ?_⟩
  -- Behind the value numbers are without quotes again, so the member has only put text.
  rw [Writer.put_key hopen hquoted, htext]

/-- The members of an object that are not absent are its entries, each behind its name. -/
theorem exists_fill_members {className : String} {members : List Member} {values : List Value}
    (hlength : members.length = values.length)
    (haligned : ∀ member ∈ members, member.name.IsAligned)
    (h : ∀ given ∈ members.zip values, given.2.IsSpelled catalog given.1.tag.isQuotedNumber)
    (hopen : start.pending.map OpenContainer.container = .object :: outer)
    (hquoted : start.numbersQuoted = false)
    (hemits : Write.Emits (Write.members className members (values.map (entry catalog))) start stop) :
    ∃ spelled : List MemberText, spelled.map MemberText.entry = memberTrees catalog members values ∧
      (∀ member ∈ spelled, writtenLexicon.string member.name) ∧
      (∀ member ∈ spelled, Spells writtenLexicon member.tree member.body) ∧
      stop = start.fill (spelled.map MemberText.text) ∧ ∀ value ∈ values, value.Writable start.levels := by
  induction members generalizing start values with
  | nil =>
    obtain rfl := List.length_eq_zero_iff.mp hlength.symm
    obtain rfl := Write.emits_pure.mp hemits
    exact ⟨[], rfl, by simp, by simp, rfl, by simp⟩
  | cons member members ih =>
    obtain _ | ⟨value, values⟩ := values
    · cases hlength
    have hlength' := Nat.succ.inj hlength
    have haligned' : ∀ member ∈ members, member.name.IsAligned :=
      fun other hmem => haligned other (by simp [hmem])
    have hspelled : ∀ given ∈ members.zip values,
        given.2.IsSpelled catalog given.1.tag.isQuotedNumber :=
      fun given hmem => h given (by simp [hmem])
    cases habsent : value.isAbsent with
    | true =>
      obtain ⟨wrapper, rfl⟩ : ∃ wrapper, value = .absent wrapper := by
        cases value <;> cases habsent
        exact ⟨_, rfl⟩
      obtain ⟨-, hrest⟩ := (Write.emits_members_of_absent rfl).mp hemits
      obtain ⟨spelled, htrees, hnames, hall, hfill, hwritables⟩ :=
        ih hlength' haligned' hspelled hopen hquoted hrest
      exact ⟨spelled, by simpa [memberTrees, isAbsent] using htrees, hnames, hall, hfill,
        List.forall_mem_cons.mpr ⟨.absent _ _, hwritables⟩⟩
    | false =>
      have hpresent : (value.entry catalog).isAbsent = false :=
        (isAbsent_entry catalog value).trans habsent
      obtain ⟨last, hentry, hrest⟩ := (Write.emits_members_of_present hpresent).mp hemits
      obtain ⟨text, htext, hname, hspells, hwritable, hput⟩ := exists_memberText
        (haligned member (by simp)) (h (member, value) (by simp)) hopen hquoted hentry
      rw [hput] at hrest
      have hopen' : (start.startEntry.put text.text).pending.map OpenContainer.container
          = .object :: outer :=
        (Writer.map_container_startEntry start).trans hopen
      obtain ⟨spelled, htrees, hnames, hall, rfl, hwritables⟩ :=
        ih hlength' haligned' hspelled hopen' (by simp [hquoted]) hrest
      simp only [Writer.levels_put, Writer.levels_startEntry] at hwritables
      refine ⟨text :: spelled, ?_, List.forall_mem_cons.mpr ⟨hname, hnames⟩,
        List.forall_mem_cons.mpr ⟨hspells, hall⟩, rfl,
        List.forall_mem_cons.mpr ⟨hwritable, hwritables⟩⟩
      rw [List.map_cons, htrees, htext, memberTrees, habsent]
      rfl

theorem isSpelled_list {items : List Value} (h : ∀ item ∈ items, item.IsSpelled catalog false) :
    (Value.list items).IsSpelled catalog false := by
  intro start stop hquoted hemits
  rw [entry, entries_eq_map] at hemits
  obtain ⟨hdepth, last, helements, rfl⟩ := Write.emits_container.mp hemits
  obtain ⟨spelled, htrees, hall, rfl, hwritable⟩ := exists_fill_elements h
    (show (start.begin .array).pending.map OpenContainer.container = .array :: _ from rfl)
    ((Writer.numbersQuoted_begin .array start).trans hquoted) helements
  obtain ⟨inner, hjoined, hfinish⟩ := Writer.finish_fill_begin .array (spelled.map Prod.snd) start
  refine ⟨_, hfinish, ?_, ?_⟩
  · rw [tree, ← htrees]
    exact .array hall hjoined
  · rw [Writer.levels_begin hdepth]
    exact .list hwritable

theorem isSpelled_record {typeName : String} {decl : ClassDecl} {stored : List Value}
    (hfind : catalog.find? typeName = some decl) (hdecl : decl.IsWellDeclared)
    (hlength : decl.members.length = stored.length)
    (h : ∀ given ∈ decl.members.zip stored, given.2.IsSpelled catalog given.1.tag.isQuotedNumber) :
    (Value.record typeName stored).IsSpelled catalog false := by
  intro start stop hquoted hemits
  obtain ⟨schema, hschema, hwrite⟩ := Write.emits_writeRecord.mp hemits
  obtain ⟨decl', hfind', rfl, -⟩ := Catalog.schema_eq_ok hschema
  obtain rfl : decl = decl' := Option.some.inj (hfind.symm.trans hfind')
  rw [entries_eq_map, Catalog.memberEntries_eq hfind hdecl (by simp [hlength])] at hwrite
  obtain ⟨-, hcontainer⟩ := Write.emits_write.mp hwrite
  obtain ⟨hdepth, last, hmembers, rfl⟩ := Write.emits_container.mp hcontainer
  have haligned : ∀ member ∈ decl.members, member.name.IsAligned := by
    intro member hmember
    obtain ⟨text, htext⟩ := hdecl.isText member hmember
    exact htext ▸ Bytes.isAligned_ofString text
  obtain ⟨spelled, htrees, hnames, hall, rfl, hwritable⟩ := exists_fill_members hlength haligned h
    (show (start.begin .object).pending.map OpenContainer.container = .object :: _ from rfl)
    ((Writer.numbersQuoted_begin .object start).trans hquoted) hmembers
  obtain ⟨inner, hjoined, hfinish⟩ :=
    Writer.finish_fill_begin .object (spelled.map MemberText.text) start
  refine ⟨_, hfinish, ?_, ?_⟩
  · rw [tree_record hfind, ← htrees]
    exact .object hnames hall hjoined
  · rw [Writer.levels_begin hdepth]
    exact .record typeName hwritable

/-- A typed value is written as its tree. Only direct numbers may be asked for with quotes. -/
theorem HasType.isSpelled {type : ArgType} {value : Value} {tag : Tag} {isNullable quoted : Bool}
    (htype : HasType catalog type value) (haccepts : type.accepts tag isNullable = true)
    (hdeclared : catalog.WellDeclaredTag tag)
    (hquoted : quoted = true → tag.isQuotedNumber = true) : value.IsSpelled catalog quoted := by
  induction htype generalizing tag isNullable quoted with
  | scalar hsound =>
    rintro start stop rfl hemits
    obtain ⟨core, hstop, hspells, hfinite⟩ := Scalar.exists_core hsound hemits
    exact ⟨core, hstop, hspells, .scalar _ hfinite⟩
  | @record decl typeName stored hfind hlength _ ih =>
    obtain ⟨-, rfl⟩ := ArgType.accepts_record.mp haccepts
    obtain rfl : quoted = false := by simpa [Tag.isQuotedNumber] using hquoted
    have hbelow := hdeclared typeName rfl
    obtain ⟨hdecl, -, hbound⟩ := hbelow.bound hfind
    refine isSpelled_record hfind hdecl (hbound.length_eq.trans hlength) fun given hgiven => ?_
    obtain ⟨argument, hargument, haccepts⟩ := Catalog.exists_argument_of_mem_zip hbound hgiven
    exact ih _ hargument haccepts (hbelow.member hfind (List.of_mem_zip hgiven).1) id
  | growable htypes ih =>
    obtain ⟨-, element, rfl, helement⟩ := ArgType.accepts_growable.mp haccepts
    obtain rfl : quoted = false := by simpa [Tag.isQuotedNumber] using hquoted
    exact isSpelled_list fun item hitem => ih item hitem helement hdeclared (by simp)
  | fixed htypes ih =>
    obtain ⟨-, element, rfl, helement⟩ := ArgType.accepts_fixed.mp haccepts
    obtain rfl : quoted = false := by simpa [Tag.isQuotedNumber] using hquoted
    exact isSpelled_list fun item hitem => ih item hitem helement hdeclared (by simp)
  | absent wrapper content =>
    intro start stop _ hemits
    obtain rfl := Write.emits_put.mp hemits
    exact ⟨_, rfl, .literal (writtenLexicon.literal_of_all (List.cons_ne_nil _ _) rfl), .absent _ _⟩
  | present wrapper _ ih =>
    obtain ⟨-, haccepts⟩ := ArgType.accepts_nullable.mp haccepts
    intro start stop hstart hemits
    obtain ⟨core, hstop, hspells, hwritable⟩ := ih haccepts hdeclared hquoted start stop hstart hemits
    exact ⟨core, hstop, hspells, .present wrapper hwritable⟩

end Value

end SchemaJson
