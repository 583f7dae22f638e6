import SchemaJson.Proofs.BoundClasses
import SchemaJson.Proofs.ObjectGrammar
import SchemaJson.Proofs.ShiftedTexts

/-! Objects one after the other. Each is read from a stream as it is decoded alone: neither what
stands in front of an object nor what follows it changes where its values are found. -/

namespace SchemaJson

theorem IsFound.append_rest {raw rest text : Bytes} {shape : Shape}
    (h : IsFound raw rest shape text) (more : Bytes) : IsFound raw (rest ++ more) shape text := by
  cases h with
  | string hcontent => exact .string hcontent
  | bracketed container hinner => exact .bracketed container hinner
  | literal htext hblanks hrest =>
    obtain ⟨byte, tail, rfl, hseparator⟩ := exists_cons_of_startsSeparator hrest
    exact .literal htext hblanks ⟨byte, rfl, hseparator⟩

section Moved

variable {offset : Nat} {raw rest : Bytes}

theorem IsMemberText.moved {member : Bytes × Span} (h : IsMemberText offset raw rest member)
    (offset' : Nat) (more : Bytes) :
    ∃ member', IsMemberText offset' raw (rest ++ more) member' ∧ MemberAlike member member' := by
  obtain @⟨name, front, value, blanks, _, text, shape, hname, hfound, hblanks⟩ := h
  have hmoved := hfound.append_rest more
  rw [List.append_assoc] at hmoved
  exact ⟨_, .mk hname hmoved hblanks, rfl, rfl, rfl⟩

theorem IsMembersText.moved {members : List (Bytes × Span)}
    (h : IsMembersText offset raw rest members) (offset' : Nat) (more : Bytes) :
    ∃ members', IsMembersText offset' raw (rest ++ more) members' ∧
      List.Forall₂ MemberAlike members members' := by
  induction h generalizing offset' with
  | last hmember =>
    obtain ⟨member', hmoved, halike⟩ := hmember.moved offset' more
    exact ⟨_, .last hmoved, .cons halike .nil⟩
  | @cons _ front text _ _ _ hmember _ ih =>
    obtain ⟨member', hmoved, halike⟩ := hmember.moved offset' more
    obtain ⟨members', hmembers, hrest⟩ := ih (offset' + front.length + 1)
    rw [List.cons_append, List.append_assoc] at hmoved
    exact ⟨_, .cons hmoved hmembers, .cons halike hrest⟩

/-- An object is one wherever it stands, behind other blanks and with more text behind it. -/
theorem IsObjectText.moved {met : List (Bytes × Span)} (h : IsObjectText offset raw rest met) :
    ∃ before inside, raw = before ++ Ascii.openBrace :: inside ∧ IsBlankText before ∧
      ∀ offset' lead more, IsBlankText lead → ∃ met',
        IsObjectText offset' (lead ++ Ascii.openBrace :: inside) (rest ++ more) met' ∧
        List.Forall₂ MemberAlike met met' := by
  cases h with
  | empty hbefore hinside =>
    exact ⟨_, _, rfl, hbefore, fun _ _ _ hlead => ⟨[], .empty hlead hinside, .nil⟩⟩
  | full hbefore hmembers =>
    refine ⟨_, _, rfl, hbefore, fun offset' lead more hlead => ?_⟩
    obtain ⟨met', hmoved, halike⟩ := hmembers.moved (offset' + lead.length + 1) more
    exact ⟨met', .full hlead hmoved, halike⟩

end Moved

theorem isBlankText_iff {text : Bytes} : IsBlankText text ↔ text.dropWhile isBlank = [] :=
  List.dropWhile_eq_nil_iff.symm

theorem dropWhile_blanks {blanks : Bytes} (h : IsBlankText blanks) (rest : Bytes) :
    (blanks ++ rest).dropWhile isBlank = rest.dropWhile isBlank :=
  List.dropWhile_append_of_pos h

theorem Scan.Gives.isBlankText_ahead {start stop : Cursor} {u : Unit}
    (h : Gives (finish false) start u stop) : IsBlankText start.ahead := by
  simp only [finish, gives_bind, gives_skipBlanks, gives_get, Bool.false_or] at h
  obtain ⟨_, _, rfl, _, _, ⟨rfl, rfl⟩, h⟩ := h
  split at h
  next hend =>
    rw [Cursor.atEnd, Cursor.ahead_skipBlanks, List.isEmpty_iff] at hend
    exact isBlankText_iff.mpr hend
  next => exact absurd h not_gives_fail

section Alone

variable {catalog : Catalog} {schema : Schema} {depth : Nat} {text : String} {stored : List Value}

theorem Schema.exists_isObjectText_of_decode
    (h : schema.decode (catalog.reader depth) (Bytes.ofString text)
      { maxDepth := depth, allowTrailing := false } = .ok stored) :
    ∃ raw blanks met, Bytes.ofString text = raw ++ blanks ∧ IsBlankText blanks ∧
      IsObjectText 0 raw blanks met ∧
      schema.arguments (catalog.reader depth) (keptSpans met [] schema.table.members) (.root depth)
        = .ok stored := by
  rw [Schema.decode_eq] at h
  rcases hwalk : Scan.outcome (Scan.memberTexts schema.table schema.className)
    (.ofText (Bytes.ofString text)) with ⟨result, last⟩
  rw [hwalk] at h
  obtain ⟨given, rfl, h⟩ := bind_eq_ok_iff.mp h
  obtain ⟨found, harguments, h⟩ := bind_eq_ok_iff.mp h
  obtain ⟨_, hfinish, hfound⟩ := bind_eq_ok_iff.mp h
  obtain rfl := Except.ok.inj hfound
  have hend : Scan.Gives (Scan.finish false) last _ _ := Prod.ext hfinish rfl
  have hgives : Scan.Gives (Scan.memberTexts schema.table schema.className)
    (.ofText (Bytes.ofString text)) given last := hwalk
  rw [Scan.memberTexts_eq, Scan.gives_map] at hgives
  obtain ⟨met, hmet, rfl⟩ := hgives
  obtain ⟨raw, after, hpasses, htext, hafter, -⟩ :=
    hmet.exists_isObjectText (Bytes.isAligned_ofString text)
  rw [foldl_keep_eq] at harguments
  have hahead : Bytes.ofString text = raw ++ after ++ last.ahead := hpasses.ahead
  rw [List.append_assoc] at hahead
  exact ⟨raw, after ++ last.ahead, met, hahead, hafter.append hend.isBlankText_ahead, htext,
    harguments⟩

/-- Members that are alike come to the same arguments, wherever their object stands. -/
theorem Schema.exists_gives_readObject_of_alike {met met' : List (Bytes × Span)} {start : Cursor}
    {raw rest : Bytes} (halike : List.Forall₂ MemberAlike met met')
    (harguments : schema.arguments (catalog.reader depth) (keptSpans met [] schema.table.members)
      (.root depth) = .ok stored)
    (hobject : IsObjectText start.offset raw rest met') (hahead : start.ahead = raw ++ rest)
    (haligned : start.ahead.IsAligned) :
    ∃ stop, Scan.Gives (schema.readObject (catalog.reader depth) (.root depth)) start stored stop ∧
      start.Passes (raw ++ rest.takeWhile isBlank) stop := by
  obtain ⟨stop, hgives, hpasses⟩ := Scan.exists_gives_objectMembers_of_isObjectText
    schema.className hobject hahead haligned
  -- The values that are kept differ in their offsets only, and those go into errors alone.
  have hgiven : shiftedDecoding.Given depth (.root depth) (.root depth)
      (keptSpans met [] schema.table.members) (keptSpans met' [] schema.table.members) :=
    (forall₂_keptSpans halike [] _).imp fun _ _ hvalue =>
      rel_mono hvalue fun _ _ hspan => ⟨hspan, rfl⟩
  have hstored := Comparison.arguments_in_step (shiftedDecoding_reads catalog depth) schema hgiven
  rw [harguments] at hstored
  refine ⟨stop, ?_, hpasses⟩
  simp only [Schema.readObject, Scan.memberTexts_eq, Scan.gives_bind, Scan.gives_map,
    Scan.gives_lift]
  exact ⟨_, stop, ⟨met', hgives, foldl_keep_eq _ _⟩, hstored.eq_ok, rfl⟩

/-- An object that is decoded alone is a brace with what follows it, behind blanks, and is read
there wherever it stands. -/
theorem Schema.exists_object_of_decode
    (h : schema.decode (catalog.reader depth) (Bytes.ofString text)
      { maxDepth := depth, allowTrailing := false } = .ok stored) :
    ∃ inside, (Bytes.ofString text).dropWhile isBlank = Ascii.openBrace :: inside ∧
      ∀ start lead more, IsBlankText lead → start.ahead.IsAligned →
        start.ahead = lead ++ (Ascii.openBrace :: inside ++ more) → ∃ raw stop,
          Scan.Gives (schema.readObject (catalog.reader depth) (.root depth)) start stored stop ∧
          start.Passes raw stop ∧ stop.ahead = more.dropWhile isBlank := by
  obtain ⟨raw, blanks, met, htext, hblanks, hobject, harguments⟩ :=
    Schema.exists_isObjectText_of_decode h
  obtain ⟨before, inside, rfl, hbefore, hmoved⟩ := hobject.moved
  refine ⟨inside ++ blanks, ?_, fun start lead more hlead haligned hahead => ?_⟩
  · rw [htext, List.append_assoc, dropWhile_blanks hbefore]
    rfl
  · obtain ⟨met', hobject', halike⟩ := hmoved start.offset lead more hlead
    have hsplit : start.ahead = lead ++ Ascii.openBrace :: inside ++ (blanks ++ more) := by
      rw [hahead]
      simp
    obtain ⟨stop, hgives, hpasses⟩ := Schema.exists_gives_readObject_of_alike halike harguments
      hobject' hsplit haligned
    refine ⟨_, stop, hgives, hpasses, ?_⟩
    rw [← dropWhile_blanks hblanks]
    refine hpasses.ahead_eq ?_
    rw [hsplit, List.append_assoc _ _ (List.dropWhile _ _), List.takeWhile_append_dropWhile]

end Alone

/-- One object of a stream, the blanks behind it, and what it is decoded to. -/
structure StreamedObject where
  text : String
  after : Bytes
  stored : List Value

def streamText : List StreamedObject → Bytes
  | [] => []
  | object :: objects => Bytes.ofString object.text ++ (object.after ++ streamText objects)

/-- The stream from the first byte of its first object on that is no blank. -/
def fromFirstObject : List StreamedObject → Bytes
  | [] => []
  | object :: objects =>
    (Bytes.ofString object.text).dropWhile isBlank ++ (object.after ++ streamText objects)

section Stream

variable {catalog : Catalog} {schema : Schema} {depth : Nat} {object : StreamedObject}
  {objects : List StreamedObject}

/-- The object is decoded alone to what it stores, and only blanks stand behind it. -/
structure StreamedObject.IsDecoded (catalog : Catalog) (schema : Schema) (depth : Nat)
    (object : StreamedObject) : Prop where
  isBlankText : IsBlankText object.after
  decode : schema.decode (catalog.reader depth) (Bytes.ofString object.text)
    { maxDepth := depth, allowTrailing := false } = .ok object.stored

theorem dropWhile_streamText (h : ∀ object ∈ objects, object.IsDecoded catalog schema depth) :
    (streamText objects).dropWhile isBlank = fromFirstObject objects := by
  cases objects with
  | nil => rfl
  | cons object objects =>
    obtain ⟨inside, hinside, -⟩ := Schema.exists_object_of_decode (h object (by simp)).decode
    rw [streamText, fromFirstObject, List.dropWhile_append, hinside]
    rfl

theorem isAligned_streamText (h : ∀ object ∈ objects, object.IsDecoded catalog schema depth) :
    (streamText objects).IsAligned := by
  induction objects with
  | nil => exact Bytes.isAligned_nil
  | cons object objects ih =>
    obtain ⟨hobject, hrest⟩ := List.forall_mem_cons.mp h
    have hafter := hobject.isBlankText.isAligned
    exact (Bytes.isAligned_ofString object.text).append (hafter.append (ih hrest))

theorem exists_streamText_eq (h : ∀ object ∈ objects, object.IsDecoded catalog schema depth) :
    ∃ lead, IsBlankText lead ∧ streamText objects = lead ++ fromFirstObject objects := by
  refine ⟨(streamText objects).takeWhile isBlank, fun byte hmem => List.mem_takeWhile_imp hmem, ?_⟩
  rw [← dropWhile_streamText h, List.takeWhile_append_dropWhile]

/-- One call reads one object and stops at the next one. -/
theorem exists_gives_readObject
    (h : ∀ other ∈ object :: objects, other.IsDecoded catalog schema depth) {start : Cursor}
    {lead : Bytes} (hlead : IsBlankText lead)
    (hahead : start.ahead = lead ++ fromFirstObject (object :: objects)) : ∃ raw stop,
      Scan.Gives (schema.readObject (catalog.reader depth) (.root depth)) start object.stored stop ∧
      start.Passes raw stop ∧ stop.ahead = fromFirstObject objects := by
  obtain ⟨blanks, hblanks, hwhole⟩ := exists_streamText_eq h
  have haligned : start.ahead.IsAligned := by
    have hstream := isAligned_streamText h
    rw [hwhole] at hstream
    rw [hahead]
    exact hlead.isAligned.append (hstream.after_blanks hblanks)
  obtain ⟨hobject, hrest⟩ := List.forall_mem_cons.mp h
  obtain ⟨inside, hinside, hread⟩ := Schema.exists_object_of_decode hobject.decode
  rw [fromFirstObject, hinside] at hahead
  obtain ⟨raw, stop, hgives, hpasses, hstop⟩ := hread start lead _ hlead haligned hahead
  rw [dropWhile_blanks hobject.isBlankText, dropWhile_streamText hrest] at hstop
  exact ⟨raw, stop, hgives, hpasses, hstop⟩

/-- The stream goes on with the next object as long as there is one. -/
theorem stream_succ {start stop : Cursor}
    (h : ∀ other ∈ objects, other.IsDecoded catalog schema depth)
    (hgives : Scan.Gives (schema.readObject (catalog.reader depth) (.root depth)) start
      object.stored stop)
    (hstop : stop.ahead = fromFirstObject objects) :
    schema.stream (catalog.reader depth) (.root depth) (objects.length + 1) start
      = (.ok object.stored, stop) ::
        schema.stream (catalog.reader depth) (.root depth) objects.length stop := by
  have hrun : (schema.readObject (catalog.reader depth) (.root depth)).run.run start
      = (.ok object.stored, stop) := hgives
  rw [Schema.stream, hrun]
  cases objects with
  | nil =>
    dsimp only
    split <;> rfl
  | cons next objects =>
    obtain ⟨inside, hinside, -⟩ := Schema.exists_object_of_decode (h next (by simp)).decode
    rw [fromFirstObject, hinside] at hstop
    simp [Except.isOk, Except.toBool, Cursor.atEnd, hstop]

theorem stream_objects (h : ∀ object ∈ objects, object.IsDecoded catalog schema depth)
    {start : Cursor} {lead : Bytes} (hlead : IsBlankText lead)
    (hahead : start.ahead = lead ++ fromFirstObject objects) :
    (schema.stream (catalog.reader depth) (.root depth) objects.length start).length
      = objects.length ∧
    ∀ (i : Nat) (object : StreamedObject), objects[i]? = some object → ∃ raw stop,
      (schema.stream (catalog.reader depth) (.root depth) objects.length start)[i]?
        = some (.ok object.stored, stop) ∧
      start.Passes raw stop ∧ stop.ahead = fromFirstObject (objects.drop (i + 1)) := by
  induction objects generalizing start lead with
  | nil => exact ⟨rfl, nofun⟩
  | cons first objects ih =>
    obtain ⟨raw, stop, hgives, hpasses, hstop⟩ := exists_gives_readObject h hlead hahead
    obtain ⟨-, hrest⟩ := List.forall_mem_cons.mp h
    obtain ⟨hlength, hentries⟩ := ih hrest isBlankText_nil hstop
    rw [List.length_cons, stream_succ hrest hgives hstop]
    refine ⟨congrArg Nat.succ hlength, fun i object hobject => ?_⟩
    cases i with
    | zero =>
      obtain rfl : first = object := Option.some.inj hobject
      exact ⟨raw, stop, rfl, hpasses, hstop⟩
    | succ i =>
      obtain ⟨more, last, hentry, hmore, hlast⟩ := hentries i object hobject
      exact ⟨raw ++ more, last, hentry, hpasses.trans hmore, hlast⟩

/-- As many calls as there are objects give what each object is decoded to alone. Behind each the
cursor stands at the first byte of the next one that is no blank, and behind the last at the end. -/
theorem stream_eq_decode_each (catalog : Catalog) (schema : Schema) (depth : Nat) {lead : Bytes}
    (objects : List StreamedObject) (hlead : IsBlankText lead)
    (h : ∀ object ∈ objects, object.IsDecoded catalog schema depth) :
    (schema.stream (catalog.reader depth) (.root depth) objects.length
      (.ofText (lead ++ streamText objects))).length = objects.length ∧
    ∀ (i : Nat) (object : StreamedObject), objects[i]? = some object → ∃ raw stop,
      (schema.stream (catalog.reader depth) (.root depth) objects.length
          (.ofText (lead ++ streamText objects)))[i]? = some (.ok object.stored, stop) ∧
      (Cursor.ofText (lead ++ streamText objects)).Passes raw stop ∧
      stop.ahead = fromFirstObject (objects.drop (i + 1)) := by
  obtain ⟨blanks, hblanks, hwhole⟩ := exists_streamText_eq h
  refine stream_objects h (hlead.append hblanks) ?_
  rw [Cursor.ahead_ofText, hwhole, List.append_assoc]

/-- Two trees of one node each, the second behind a blank of its own. -/
def nodeStream : List StreamedObject :=
  [⟨"\x7b\"label\":\"a\"\x7d", Bytes.ofString "\n",
      [.scalar (.text (Bytes.ofString "a")), .absent .option]⟩,
    ⟨" \x7b\"children\":[],\"label\":\"b\"\x7d", [],
      [.scalar (.text (Bytes.ofString "b")), .present .option (.list [])]⟩]

theorem nodeStream_read : ∃ first last,
    (⟨"Node", ⟨nodeClass.members⟩, nodeClass.signature⟩ : Schema).stream (treeCatalog.reader 1)
        (.root 1) 2 (.ofText (Bytes.ofString
          "\t\x7b\"label\":\"a\"\x7d\n \x7b\"children\":[],\"label\":\"b\"\x7d"))
      = [(.ok [.scalar (.text (Bytes.ofString "a")), .absent .option], first),
        (.ok [.scalar (.text (Bytes.ofString "b")), .present .option (.list [])], last)] ∧
    first.ahead = Bytes.ofString "\x7b\"children\":[],\"label\":\"b\"\x7d" ∧ last.ahead = [] := by
  have hblank (byte : UInt8) (h : isBlank byte = true) : IsBlankText [byte] :=
    List.forall_mem_singleton.mpr h
  have hdecoded : ∀ object ∈ nodeStream, object.IsDecoded treeCatalog
      ⟨"Node", ⟨nodeClass.members⟩, nodeClass.signature⟩ 1 :=
    List.forall_mem_cons.mpr ⟨⟨hblank _ rfl, rfl⟩,
      List.forall_mem_singleton.mpr ⟨isBlankText_nil, rfl⟩⟩
  obtain ⟨hlength, hentries⟩ := stream_eq_decode_each treeCatalog _ 1 nodeStream
    (hblank Ascii.tab rfl) hdecoded
  obtain ⟨-, first, hfirst, -, hfirstAhead⟩ := hentries 0 _ rfl
  obtain ⟨-, last, hlast, -, hlastAhead⟩ := hentries 1 _ rfl
  refine ⟨first, last, List.ext_getElem? fun i => ?_, hfirstAhead, hlastAhead⟩
  match i with
  | 0 => exact hfirst
  | 1 => exact hlast
  | i + 2 => exact List.getElem?_eq_none (hlength.le.trans (Nat.le_add_left 2 i))

end Stream

end SchemaJson
