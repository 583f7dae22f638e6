import SchemaJson.Proofs.BindingSoundness
import SchemaJson.Proofs.NestedSpans
import SchemaJson.Proofs.ObjectGrammar

/-! Which members an object lacks. Only required members are missed: those whose name the object
has not, and those whose name is that of an earlier declaration, which takes every value of it. -/

namespace SchemaJson

theorem keptSpan_eq_none_iff {met : List (Bytes × Span)} {used : List Bytes} {name : Bytes} :
    keptSpan met used name = none ↔ (∀ entry ∈ met, entry.1 ≠ name) ∨ name ∈ used := by
  by_cases hused : name ∈ used
  · simp [keptSpan, hused]
  · simp only [keptSpan, List.contains_iff_mem, hused, if_false, or_false,
      List.lookup_eq_none_iff, List.mem_reverse, bne_iff_ne, ne_comm]

namespace MemberTable

variable {table : MemberTable} {member : Member} {position : Nat} {met : List (Bytes × Span)}
  {given : List (Option Span)}

/-- An earlier declaration has the name of the member at that position. -/
def Repeats (table : MemberTable) (position : Nat) (member : Member) : Prop :=
  ∃ earlier < position, ∃ other, table.get? earlier = some other ∧ other.name = member.name

/-- The member at that position is required, and nothing that was met is kept for it. -/
def Lacks (table : MemberTable) (met : List (Bytes × Span)) (position : Nat) (member : Member) :
    Prop :=
  table.get? position = some member ∧ member.nullable = false ∧
    ((∀ entry ∈ met, entry.1 ≠ member.name) ∨ table.Repeats position member)

theorem mem_earlierNames_iff :
    member.name ∈ (table.members.take position).map Member.name ↔ table.Repeats position member := by
  constructor
  · intro hname
    obtain ⟨other, hother, hsame⟩ := List.mem_map.mp hname
    obtain ⟨earlier, hbound, rfl⟩ := List.mem_take_iff_getElem.mp hother
    have hlt : earlier < position := by omega
    exact ⟨earlier, hlt, _, List.getElem?_eq_getElem _, hsame⟩
  · rintro ⟨earlier, hlt, other, hget, hsame⟩
    obtain ⟨hbound, rfl⟩ := List.getElem?_eq_some_iff.mp hget
    exact List.mem_map.mpr ⟨_, List.mem_take_iff_getElem.mpr ⟨earlier, by omega, rfl⟩, hsame⟩

theorem getElem?_keptSpans_eq_none (hmember : table.get? position = some member)
    (hkept : (∀ entry ∈ met, entry.1 ≠ member.name) ∨ table.Repeats position member) :
    (keptSpans met [] table.members)[position]? = some none := by
  rw [getElem?_keptSpans [] hmember, List.append_nil, keptSpan_eq_none_iff.mpr]
  exact hkept.imp_right mem_earlierNames_iff.mpr

/-- The required members that are lacking are those that the check of the kept texts rejects. -/
theorem lacks_iff : table.Lacks met position member ↔
    ∃ slot, (table.members.zip (keptSpans met [] table.members))[position]? = some (member, slot) ∧
      member.isSatisfied slot = false := by
  constructor
  · rintro ⟨hmember, hrequired, hkept⟩
    have hslot := getElem?_keptSpans_eq_none hmember hkept
    refine ⟨none, List.getElem?_zip_eq_some.mpr ⟨hmember, hslot⟩, ?_⟩
    simp [Member.isSatisfied, hrequired]
  · rintro ⟨slot, hentry, hrejected⟩
    obtain ⟨hmember, hslot⟩ := List.getElem?_zip_eq_some.mp hentry
    rw [getElem?_keptSpans [] hmember, List.append_nil] at hslot
    simp only [Member.isSatisfied, Bool.or_eq_false_iff, Option.isSome_eq_false_iff,
      Option.isNone_iff_eq_none] at hrejected
    obtain ⟨hrequired, rfl⟩ := hrejected
    have hkept := keptSpan_eq_none_iff.mp (Option.some.inj hslot)
    exact ⟨hmember, hrequired, hkept.imp_right mem_earlierNames_iff.mp⟩

/-- The first member that is lacking is the one that is missed. -/
theorem missing?_keptSpans_eq_some_iff :
    table.missing? (keptSpans met [] table.members) = some member ↔
      ∃ position, table.Lacks met position member ∧
        ∀ earlier other, table.Lacks met earlier other → position ≤ earlier := by
  rw [missing?, Option.map_eq_some_iff]
  constructor
  · rintro ⟨⟨member, slot⟩, hfind, rfl⟩
    obtain ⟨hrejected, position, hposition, hentry, hbefore⟩ :=
      List.find?_eq_some_iff_getElem.mp hfind
    refine ⟨position, lacks_iff.mpr ⟨slot, ?_, by simpa using hrejected⟩, ?_⟩
    · rw [List.getElem?_eq_getElem hposition, hentry]
    · intro earlier other hlacks
      by_contra hlt
      obtain ⟨found, hget, hother⟩ := lacks_iff.mp hlacks
      obtain ⟨hbound, hfound⟩ := List.getElem?_eq_some_iff.mp hget
      have hsatisfied := hbefore earlier (by omega)
      simp [hfound, hother] at hsatisfied
  · rintro ⟨position, hlacks, hfirst⟩
    obtain ⟨slot, hget, hrejected⟩ := lacks_iff.mp hlacks
    obtain ⟨hposition, hentry⟩ := List.getElem?_eq_some_iff.mp hget
    refine ⟨(member, slot), List.find?_eq_some_iff_getElem.mpr
      ⟨by simp [hrejected], position, hposition, hentry, fun earlier hlt => ?_⟩, rfl⟩
    by_contra hother
    have hle := hfirst earlier _ (lacks_iff.mpr
      ⟨_, List.getElem?_eq_getElem (by omega), by simpa using hother⟩)
    omega

theorem exists_missing?_keptSpans_iff :
    (∃ member, table.missing? (keptSpans met [] table.members) = some member) ↔
      ∃ position member, table.Lacks met position member := by
  constructor
  · rintro ⟨member, hmissing⟩
    obtain ⟨position, hlacks, -⟩ := missing?_keptSpans_eq_some_iff.mp hmissing
    exact ⟨position, member, hlacks⟩
  · rintro ⟨position, member, hlacks⟩
    obtain ⟨slot, hget, hrejected⟩ := lacks_iff.mp hlacks
    refine Option.ne_none_iff_exists'.mp fun hnone => ?_
    have hsatisfied := isSatisfied_of_missing? hnone _ (List.mem_of_getElem? hget)
    cases hsatisfied.symm.trans hrejected

theorem eq_keptSpans (hlength : given.length = table.size)
    (hslots : ∀ position member, table.get? position = some member → given[position]? =
      some (keptSpan met ((table.members.take position).map Member.name) member.name)) :
    given = keptSpans met [] table.members := by
  refine List.ext_getElem? fun position => ?_
  cases hmember : table.get? position with
  | none =>
    have hposition : table.members.length ≤ position := List.getElem?_eq_none_iff.mp hmember
    have hgiven : given.length ≤ position := hlength.trans_le hposition
    rw [List.getElem?_eq_none hgiven, List.getElem?_eq_none (by rwa [length_keptSpans])]
  | some member =>
    rw [hslots position member hmember, getElem?_keptSpans [] hmember, List.append_nil]

/-- What the walk over an object gives is kept of the members that it met. -/
theorem exists_keptSpans_of_gives {className : String} {start stop : Cursor}
    (h : Scan.Gives (Scan.memberTexts table className) start given stop) :
    ∃ met, given = keptSpans met [] table.members := by
  rw [Scan.memberTexts_eq, Scan.gives_map] at h
  obtain ⟨met, -, hgiven⟩ := h
  exact ⟨met, hgiven.symm.trans (foldl_keep_eq table met)⟩

theorem getElem?_of_repeats {className : String} {start stop : Cursor}
    (hmember : table.get? position = some member) (hrepeats : table.Repeats position member)
    (h : Scan.Gives (Scan.memberTexts table className) start given stop) :
    given[position]? = some none := by
  obtain ⟨met, rfl⟩ := exists_keptSpans_of_gives h
  exact getElem?_keptSpans_eq_none hmember (.inr hrepeats)

end MemberTable

theorem ArgType.exists_of_buildAll {classes : ClassReader} {types : List ArgType}
    {fields : List Field} {stored : List Value} {type : ArgType} {field : Field} {position : Nat}
    (h : buildAll classes types fields = .ok stored) (htype : types[position]? = some type)
    (hfield : fields[position]? = some field) :
    ∃ value, stored[position]? = some value ∧ type.build classes field = .ok value := by
  induction types generalizing fields stored position with
  | nil => cases htype
  | cons head types ih =>
    obtain _ | ⟨first, fields⟩ := fields
    · cases h
    obtain ⟨value, hvalue, h⟩ := bind_eq_ok_iff.mp h
    obtain ⟨rest, hrest, h⟩ := bind_eq_ok_iff.mp h
    cases h
    cases position with
    | zero =>
      cases htype
      cases hfield
      exact ⟨value, rfl, hvalue⟩
    | succ position =>
      rw [List.getElem?_cons_succ] at htype hfield ⊢
      exact ih hrest htype hfield

namespace Schema

variable {schema : Schema} {classes : ClassReader} {context : Context} {start stop : Cursor}
  {given : List (Option Span)} {stored : List Value} {position : Nat} {member : Member}

theorem outcome_readObject_of_missing
    (h : Scan.Gives (Scan.memberTexts schema.table schema.className) start given stop)
    (hmissing : schema.table.missing? given = some member) :
    Scan.outcome (schema.readObject classes context) start
      = (.error (.missingMember schema.className member.name), stop) := by
  have hwalk : Scan.outcome (Scan.memberTexts schema.table schema.className) start
      = (.ok given, stop) := h
  have harguments : schema.arguments classes given context
      = .error (.missingMember schema.className member.name) := by
    rw [arguments, hmissing]
  rw [readObject, Scan.outcome_bind, hwalk]
  dsimp only
  rw [harguments]
  rfl

theorem not_gives_of_repeats (hmember : schema.table.get? position = some member)
    (hrepeats : schema.table.Repeats position member) (hrequired : member.nullable = false) :
    ¬ Scan.Gives (schema.readObject classes context) start stored stop := by
  intro hread
  obtain ⟨given, hgives, hmissing, -⟩ := exists_given_of_readObject hread
  obtain ⟨met, rfl⟩ := MemberTable.exists_keptSpans_of_gives hgives
  have hlacks : schema.table.Lacks met position member := ⟨hmember, hrequired, .inr hrepeats⟩
  obtain ⟨missed, hmissed⟩ :=
    MemberTable.exists_missing?_keptSpans_iff.mpr ⟨position, member, hlacks⟩
  cases hmissing.symm.trans hmissed

theorem exists_absent_of_repeats (hbound : schema.IsBound)
    (hmember : schema.table.get? position = some member)
    (hrepeats : schema.table.Repeats position member) (hnullable : member.nullable = true)
    (h : Scan.Gives (schema.readObject classes context) start stored stop) :
    ∃ wrapper, stored[position]? = some (.absent wrapper) := by
  obtain ⟨given, hgives, -, fields, hfields, hbuild⟩ := exists_given_of_readObject h
  have hentry : (schema.table.members.zip given)[position]? = some (member, none) :=
    List.getElem?_zip_eq_some.mpr ⟨hmember, MemberTable.getElem?_of_repeats hmember hrepeats hgives⟩
  obtain ⟨field, hfield, hnull⟩ := getElem?_of_mapM_eq_ok hfields hentry
  cases hnull
  obtain ⟨argument, hargument, haccepts⟩ := hbound.exists_argument hmember
  rw [hnullable] at haccepts
  obtain ⟨wrapper, content, rfl, -⟩ := ArgType.exists_of_accepts_true haccepts
  obtain ⟨value, hvalue, hbuilt⟩ := ArgType.exists_of_buildAll hbuild hargument hfield
  cases hbuilt
  exact ⟨wrapper, hvalue⟩

end Schema

/-- A walk over an object misses a member exactly if a required one has no entry of its name or
repeats an earlier name, and it misses the first such member. So no object is read where a required
member repeats a name, and an optional one that does stays empty. -/
theorem presence_exact (schema : Schema) :
    (∀ (document : String) (start stop : Cursor) (given : List (Option Span)),
      start.IsOver document →
      Scan.Gives (Scan.memberTexts schema.table schema.className) start given stop →
      (∃ raw rest met, start.ahead = raw ++ rest ∧ IsObjectText start.offset raw rest met) ∧
      ∀ raw rest met, start.ahead = raw ++ rest → IsObjectText start.offset raw rest met →
        ((∃ member, schema.table.missing? given = some member) ↔
          ∃ position member, schema.table.Lacks met position member) ∧
        ∀ position member, schema.table.Lacks met position member →
          (∀ earlier other, schema.table.Lacks met earlier other → position ≤ earlier) →
          schema.table.missing? given = some member ∧ ∀ classes context,
            Scan.outcome (schema.readObject classes context) start
              = (.error (.missingMember schema.className member.name), stop)) ∧
    ∀ position member, schema.table.get? position = some member →
      schema.table.Repeats position member →
      (member.nullable = false →
        (∀ classes context start stored stop,
          ¬ Scan.Gives (schema.readObject classes context) start stored stop) ∧
        ∀ classes text options stored, schema.decode classes text options ≠ .ok stored) ∧
      (member.nullable = true →
        (∀ className start given stop, Scan.Gives (Scan.memberTexts schema.table className) start
            given stop → ∃ slot, given[position]? = some slot ∧
          ∀ classes context, member.decode classes slot context = .ok .null) ∧
        (schema.IsBound → ∀ classes context start stored stop,
          Scan.Gives (schema.readObject classes context) start stored stop →
          ∃ wrapper, stored[position]? = some (.absent wrapper))) := by
  refine ⟨fun document start stop given hstart hgives => ?_, fun position member hmember hrepeats => ?_⟩
  · obtain ⟨hiff, hkept⟩ := memberTexts_exact schema.table schema.className hstart
    refine ⟨hiff.mp ⟨given, stop, hgives⟩, fun raw rest met hahead htext => ?_⟩
    obtain ⟨hlength, hslots, -⟩ := hkept given stop raw rest met hgives hahead htext
    have hgiven : given = keptSpans met [] schema.table.members :=
      MemberTable.eq_keptSpans hlength hslots
    subst hgiven
    refine ⟨MemberTable.exists_missing?_keptSpans_iff, fun position member hlacks hfirst => ?_⟩
    have hmissing := MemberTable.missing?_keptSpans_eq_some_iff.mpr ⟨position, hlacks, hfirst⟩
    exact ⟨hmissing, fun _ _ => Schema.outcome_readObject_of_missing hgives hmissing⟩
  · constructor
    · intro hrequired
      refine ⟨fun _ _ _ _ _ => Schema.not_gives_of_repeats hmember hrepeats hrequired, ?_⟩
      intro classes text options stored hdecode
      obtain ⟨stop, hread⟩ := Schema.exists_gives_of_decode hdecode
      exact Schema.not_gives_of_repeats hmember hrepeats hrequired hread
    · intro hnullable
      refine ⟨fun className start given stop hgives => ?_, fun hbound _ _ _ _ _ hread => ?_⟩
      · have hslot := MemberTable.getElem?_of_repeats hmember hrepeats hgives
        exact ⟨none, hslot, fun _ _ => rfl⟩
      · exact Schema.exists_absent_of_repeats hbound hmember hrepeats hnullable hread

/-- A number and a second member of the same name. -/
def repeatedSchema (second : Member) (argument : ArgType) : Schema where
  className := "Pair"
  table := ⟨[.ofString "v" (.number (.integer .i32) .never), second]⟩
  signature := ⟨.direct, [.scalar (.number (.integer .i32)), argument]⟩

def requiredPair : Schema := repeatedSchema (.ofString "v" .string) (.scalar .text)

def optionalPair : Schema :=
  repeatedSchema (Member.ofString "v" .string).asNullable (.nullable .option (.scalar .text))

/-- Where the second member is required no text is read; where it is not, it stays empty. -/
theorem second_value_is_never_kept :
    (Scan.outcome (requiredPair.readObject noClasses (.root 8))
        (.ofText (Bytes.ofString "\x7b\x7d"))).1
      = .error (.missingMember "Pair" (Bytes.ofString "v")) ∧
    (∀ text options stored, requiredPair.decode noClasses text options ≠ .ok stored) ∧
    ∃ stored stop, Scan.Gives (optionalPair.readObject noClasses (.root 8))
        (.ofText (Bytes.ofString "\x7b\"v\":1\x7d")) stored stop ∧
      ∃ wrapper, stored[1]? = some (.absent wrapper) := by
  have hrepeats : requiredPair.table.Repeats 1 (.ofString "v" .string) ∧
      optionalPair.table.Repeats 1 (Member.ofString "v" .string).asNullable :=
    ⟨⟨0, by decide, _, rfl, rfl⟩, ⟨0, by decide, _, rfl, rfl⟩⟩
  obtain ⟨hwalk, hrequired⟩ := presence_exact requiredPair
  obtain ⟨-, hoptional⟩ := presence_exact optionalPair
  refine ⟨?_, ((hrequired 1 _ rfl hrepeats.1).1 rfl).2 noClasses, ?_⟩
  · have hstart : (Cursor.ofText (Bytes.ofString "\x7b\x7d")).IsOver "\x7b\x7d" := ⟨rfl, rfl⟩
    have htext : IsObjectText 0 _ [] [] := .empty isBlankText_nil isBlankText_nil
    have hlacks : requiredPair.table.Lacks [] 0 _ := ⟨rfl, rfl, .inl (by simp)⟩
    obtain ⟨-, hmissed⟩ := (hwalk _ _ _ _ hstart rfl).2 _ _ _ rfl htext
    have hreported := (hmissed 0 _ hlacks fun _ _ _ => Nat.zero_le _).2 noClasses (.root 8)
    rw [hreported]
    rfl
  · have hread : Scan.Gives (optionalPair.readObject noClasses (.root 8))
        (.ofText (Bytes.ofString "\x7b\"v\":1\x7d")) _ _ := rfl
    have hbound : optionalPair.IsBound := .cons rfl (.cons rfl .nil)
    exact ⟨_, _, hread, ((hoptional 1 _ rfl hrepeats.2).2 rfl).2 hbound _ _ _ _ _ hread⟩

end SchemaJson
