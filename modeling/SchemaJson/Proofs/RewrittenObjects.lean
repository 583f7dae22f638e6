import Mathlib.Logic.Relation
import SchemaJson.Proofs.StreamedObjects

/-! Objects that are decoded alike although their texts differ. Only the last value of every
declared name counts, not where it stands, what stands around it, or which other members there
are. -/

namespace SchemaJson

/-- The text and the shape of the last value of that name. -/
def lastValue (met : List (Bytes × Span)) (name : Bytes) : Option (Bytes × Shape) :=
  (met.reverse.lookup name).map fun span => (span.text, span.shape)

/-- What can be done to the members of an object. Their values stay as they are but move when blanks
around them change; members change places, with those of one name in the same order as before;
and a member comes in that is not declared, or that is followed by another one of its name. -/
inductive MemberTable.Rewrites (table : MemberTable) :
    List (Bytes × Span) → List (Bytes × Span) → Prop
  | respaced {met met' : List (Bytes × Span)} : List.Forall₂ MemberAlike met met' →
      Rewrites table met met'
  | reordered {met met' : List (Bytes × Span)} :
      (∀ name, met'.filter (·.1 == name) = met.filter (·.1 == name)) → Rewrites table met met'
  | undeclared {front back : List (Bytes × Span)} {member : Bytes × Span} :
      table.find? member.1 = none → Rewrites table (front ++ back) (front ++ member :: back)
  | repeated {front back : List (Bytes × Span)} {member : Bytes × Span} :
      member.1 ∈ back.map Prod.fst → Rewrites table (front ++ back) (front ++ member :: back)

section LastValue

variable {met met' front back : List (Bytes × Span)} {member : Bytes × Span} {name : Bytes}

theorem lastValue_append (front back : List (Bytes × Span)) (name : Bytes) :
    lastValue (front ++ back) name = (lastValue back name).or (lastValue front name) := by
  rw [lastValue, List.reverse_append, List.lookup_append, Option.map_or, lastValue, lastValue]

theorem lastValue_cons_of_ne (h : member.1 ≠ name) (back : List (Bytes × Span)) :
    lastValue (member :: back) name = lastValue back name := by
  have hmember : lastValue [member] name = none := by
    simp [lastValue, h.symm]
  rw [← List.singleton_append, lastValue_append, hmember, Option.or_none]

theorem isSome_lastValue (h : name ∈ met.map Prod.fst) : (lastValue met name).isSome = true := by
  obtain ⟨member, hmem, rfl⟩ := List.mem_map.mp h
  rw [lastValue, Option.isSome_map, ← Option.ne_none_iff_isSome, Ne, List.lookup_eq_none_iff]
  intro hnone
  exact absurd (hnone member (List.mem_reverse.mpr hmem)) (by simp)

theorem lookup_filter (met : List (Bytes × Span)) (name : Bytes) :
    (met.filter (·.1 == name)).lookup name = met.lookup name := by
  induction met with
  | nil => rfl
  | cons member met ih =>
    obtain ⟨key, span⟩ := member
    by_cases hkey : key = name
    · simp [hkey]
    · have hne : (name == key) = false := by simpa using fun h => hkey h.symm
      simpa [hkey, List.lookup_cons, hne] using ih

theorem lastValue_filter (met : List (Bytes × Span)) (name : Bytes) :
    lastValue (met.filter (·.1 == name)) name = lastValue met name := by
  rw [lastValue, ← List.filter_reverse, lookup_filter, lastValue]

theorem lastValue_of_alike (h : List.Forall₂ MemberAlike met met') (name : Bytes) :
    lastValue met' name = lastValue met name := by
  have hvalue := rel_lookup name (List.forall₂_reverse_iff.mpr h)
  rw [lastValue, lastValue]
  generalize met.reverse.lookup name = first, met'.reverse.lookup name = second at hvalue ⊢
  cases hvalue with
  | none => rfl
  | some halike => simp only [Option.map_some, halike.text, halike.shape]

theorem rel_lookup_of_lastValue (h : lastValue met' name = lastValue met name) :
    Option.Rel Span.Alike (met.reverse.lookup name) (met'.reverse.lookup name) := by
  rw [lastValue, lastValue] at h
  cases hspan : met.reverse.lookup name with
  | none =>
    rw [hspan, Option.map_none, Option.map_eq_none_iff] at h
    rw [h]
    exact .none
  | some span =>
    rw [hspan, Option.map_some, Option.map_eq_some_iff] at h
    obtain ⟨span', hspan', hvalue⟩ := h
    obtain ⟨htext, hshape⟩ := Prod.mk.inj hvalue
    rw [hspan']
    exact .some ⟨htext, hshape⟩

end LastValue

namespace MemberTable

variable {table : MemberTable} {met met' : List (Bytes × Span)}

theorem Rewrites.swapped {front back : List (Bytes × Span)} {first second : Bytes × Span}
    (h : first.1 ≠ second.1) :
    table.Rewrites (front ++ first :: second :: back) (front ++ second :: first :: back) := by
  refine .reordered fun name => ?_
  rw [List.filter_append, List.filter_append]
  by_cases hfirst : first.1 = name
  · have hsecond : second.1 ≠ name := fun hname => h (hfirst.trans hname.symm)
    simp [hfirst, hsecond]
  · simp [List.filter_cons, hfirst]

/-- A rewriting leaves every declared name its last value. -/
theorem Rewrites.lastValue_eq (h : table.Rewrites met met') {member : Member}
    (hmember : member ∈ table.members) :
    lastValue met' member.name = lastValue met member.name := by
  cases h with
  | respaced halike => exact lastValue_of_alike halike member.name
  | reordered hfilter => rw [← lastValue_filter met', hfilter, lastValue_filter]
  | @undeclared front back entry hfind =>
    have hne : entry.1 ≠ member.name := by
      have hnone := List.findIdx?_eq_none_iff.mp hfind member hmember
      intro hname
      simp [hname] at hnone
    rw [lastValue_append, lastValue_append, lastValue_cons_of_ne hne]
  | @repeated front back entry hrepeated =>
    by_cases hname : entry.1 = member.name
    · rw [hname] at hrepeated
      have hback := isSome_lastValue hrepeated
      have hlast : lastValue (entry :: back) member.name = lastValue back member.name := by
        rw [← List.singleton_append, lastValue_append, Option.or_of_isSome hback]
      rw [lastValue_append, lastValue_append, hlast]
    · rw [lastValue_append, lastValue_append, lastValue_cons_of_ne hname]

theorem lastValue_eq_of_eqvGen (h : Relation.EqvGen table.Rewrites met met') {member : Member}
    (hmember : member ∈ table.members) :
    lastValue met' member.name = lastValue met member.name := by
  induction h with
  | rel _ _ hstep => exact hstep.lastValue_eq hmember
  | refl => rfl
  | symm _ _ _ ih => exact ih.symm
  | trans _ _ _ _ _ ihfirst ihsecond => exact ihsecond.trans ihfirst

end MemberTable

theorem Scan.Alike.finish (allowed : Bool) :
    Alike (fun _ _ => True) (Scan.finish allowed) (Scan.finish allowed) :=
  alike_of_steps (Pairing.Steps.finish allowed)

theorem eq_ok_of_mapError_eq_ok {ε ε' α : Type} {f : ε → ε'} {result : Except ε α} {a : α}
    (h : result.mapError f = .ok a) : result = .ok a := by
  cases result with
  | error => cases h
  | ok => exact congrArg Except.ok (Except.ok.inj h)

theorem InStep.mapError_eq {α β : Type} {first second : Except Error α} {strip : Error → β}
    (h : InStep (fun _ => False) (fun error error' => strip error' = strip error) Eq first second) :
    second.mapError strip = first.mapError strip := by
  cases h with
  | ok hvalue => rw [hvalue]
  | error halike => exact congrArg Except.error halike
  | stopped hstops => exact hstops.elim

/-- The document is an object of these members with that text behind it. -/
def IsObjectDocument (document : String) (met : List (Bytes × Span)) (rest : Bytes) : Prop :=
  ∃ raw, Bytes.ofString document = raw ++ rest ∧ IsObjectText 0 raw rest met

namespace IsObjectDocument

variable {document : String} {met : List (Bytes × Span)} {rest : Bytes}

theorem exists_gives (h : IsObjectDocument document met rest) (table : MemberTable)
    (className : String) : ∃ stop, Scan.Gives (Scan.memberTexts table className)
      (.ofText (Bytes.ofString document)) (keptSpans met [] table.members) stop ∧
      stop.ahead = rest.dropWhile isBlank := by
  obtain ⟨raw, hdocument, hobject⟩ := h
  let start := Cursor.ofText (Bytes.ofString document)
  have hstart : IsObjectText start.offset raw rest met := hobject
  have hahead : start.ahead = raw ++ rest := hdocument
  obtain ⟨stop, hmet, hpasses⟩ := Scan.exists_gives_objectMembers_of_isObjectText className hstart
    hahead (Bytes.isAligned_ofString document)
  refine ⟨stop, ?_, hpasses.ahead_eq ?_⟩
  · rw [Scan.memberTexts_eq, Scan.gives_map]
    exact ⟨met, hmet, foldl_keep_eq table met⟩
  · rw [List.append_assoc, List.takeWhile_append_dropWhile]
    exact hdocument

end IsObjectDocument

theorem Scan.Gives.exists_isObjectDocument {document : String} {className : String}
    {met : List (Bytes × Span)} {stop : Cursor}
    (h : Gives (objectMembers className) (.ofText (Bytes.ofString document)) met stop) :
    ∃ rest, IsObjectDocument document met rest ∧ rest.dropWhile isBlank = stop.ahead := by
  obtain ⟨raw, after, hpasses, hobject, hafter, hunblank⟩ :=
    h.exists_isObjectText (Bytes.isAligned_ofString document)
  refine ⟨after ++ stop.ahead, ⟨raw, ?_, hobject⟩, ?_⟩
  · rw [← List.append_assoc]
    exact hpasses.ahead
  · rw [dropWhile_blanks hafter, ← Cursor.ahead_skipBlanks,
      Cursor.skipBlanks_of_startsUnblank hunblank]

section Decoding

variable {catalog : Catalog} {typeName : String} {schema : Schema}

theorem given_of_eqvGen {met met' : List (Bytes × Span)}
    (h : Relation.EqvGen schema.table.Rewrites met met') (levels : Nat) (context : Context) :
    shiftedDecoding.Given levels context context (keptSpans met [] schema.table.members)
      (keptSpans met' [] schema.table.members) := by
  have hkept := forall₂_keptSpans_of_lookup (fun _ hmember =>
    rel_lookup_of_lastValue (MemberTable.lastValue_eq_of_eqvGen h hmember)) []
  exact hkept.imp fun _ _ hspan => rel_mono hspan fun _ _ halike => ⟨halike, rfl⟩

/-- What the walk over an object accepts is an object of some members, and any object whose members
come from those by rewritings is accepted too and decoded alike. -/
theorem decode_rewritten (catalog : Catalog) (typeName : String) (options : ReadOptions)
    (hschema : catalog.schema typeName = .ok schema) :
    (∀ document given stop, Scan.Gives (Scan.memberTexts schema.table schema.className)
        (.ofText (Bytes.ofString document)) given stop →
      ∃ met rest, IsObjectDocument document met rest) ∧
    ∀ document document' met met' rest rest', IsObjectDocument document met rest →
      IsObjectDocument document' met' rest' → rest'.dropWhile isBlank = rest.dropWhile isBlank →
      Relation.EqvGen schema.table.Rewrites met met' →
      (∃ given stop, Scan.Gives (Scan.memberTexts schema.table schema.className)
        (.ofText (Bytes.ofString document')) given stop) ∧
      (catalog.decode typeName (Bytes.ofString document') options).mapError Error.withoutOffset
        = (catalog.decode typeName (Bytes.ofString document) options).mapError
          Error.withoutOffset := by
  refine ⟨fun document given stop hgives => ?_, ?_⟩
  · rw [Scan.memberTexts_eq, Scan.gives_map] at hgives
    obtain ⟨met, hmet, -⟩ := hgives
    obtain ⟨rest, hdocument, -⟩ := hmet.exists_isObjectDocument
    exact ⟨met, rest, hdocument⟩
  intro document document' met met' rest rest' hdocument hdocument' hrest hrewrites
  obtain ⟨stop, hgives, hstop⟩ := hdocument.exists_gives schema.table schema.className
  obtain ⟨stop', hgives', hstop'⟩ := hdocument'.exists_gives schema.table schema.className
  refine ⟨⟨_, stop', hgives'⟩, ?_⟩
  -- The kept values may differ in their offsets, and those go into errors alone.
  have hahead : stop'.ahead = stop.ahead := by rw [hstop, hstop', hrest]
  have hdecode : InStep (fun _ => False) Error.Alike Eq
      (catalog.decode typeName (Bytes.ofString document) options)
      (catalog.decode typeName (Bytes.ofString document') options) := by
    refine shiftedDecoding.decode_class_in_step typeName fun found hfound => ?_
    obtain rfl := Except.ok.inj (hschema.symm.trans hfound)
    refine Comparison.decode_in_step (shiftedDecoding_reads catalog options.maxDepth) schema ?_ ?_
    · rw [hgives, hgives']
      exact .ok (given_of_eqvGen hrewrites _ _)
    · intro given last given' last' hlast hlast'
      obtain ⟨-, rfl⟩ := hlast.unique hgives
      obtain ⟨-, rfl⟩ := hlast'.unique hgives'
      exact (Scan.Alike.finish options.allowTrailing _ _ hahead).inStep.mono fun _ _ _ => rfl
  exact hdecode.mapError_eq

/-- Blanks, the order of the names, a note that nobody declared and a label before the last one make
no difference to a node. -/
theorem node_decode_rewritten :
    (∃ given stop, Scan.Gives (Scan.memberTexts ⟨nodeClass.members⟩ "Node")
      (.ofText (Bytes.ofString
        " \x7b \"children\" : [] ,\"note\":\x7b\x7d,\"label\":1 , \"label\":\"a\"\x7d "))
      given stop) ∧
    treeCatalog.decode "tree::Node" (Bytes.ofString "\x7b\"label\":\"a\",\"children\":[]\x7d") {}
      = .ok (.record "tree::Node" [.scalar (.text (Bytes.ofString "a")),
        .present .option (.list [])]) ∧
    treeCatalog.decode "tree::Node" (Bytes.ofString
        " \x7b \"children\" : [] ,\"note\":\x7b\x7d,\"label\":1 , \"label\":\"a\"\x7d ") {}
      = .ok (.record "tree::Node" [.scalar (.text (Bytes.ofString "a")),
        .present .option (.list [])]) := by
  let label (offset : Nat) : Bytes × Span :=
    (Bytes.ofString "label", ⟨Bytes.ofString "a", offset, .string⟩)
  let children (offset : Nat) : Bytes × Span :=
    (Bytes.ofString "children", ⟨Bytes.ofString "[]", offset, .array⟩)
  let early : Bytes × Span := (Bytes.ofString "label", ⟨Bytes.ofString "1", 38, .literal⟩)
  let note : Bytes × Span := (Bytes.ofString "note", ⟨Bytes.ofString "\x7b\x7d", 27, .object⟩)
  have hplain : Scan.Gives (Scan.objectMembers "Node") (.ofText (Bytes.ofString
      "\x7b\"label\":\"a\",\"children\":[]\x7d")) [label 10, children 24] _ := rfl
  have hedited : Scan.Gives (Scan.objectMembers "Node") (.ofText (Bytes.ofString
      " \x7b \"children\" : [] ,\"note\":\x7b\x7d,\"label\":1 , \"label\":\"a\"\x7d "))
      [children 16, note, early, label 51] _ := rfl
  obtain ⟨rest, hdocument, hrest⟩ := hplain.exists_isObjectDocument
  obtain ⟨rest', hdocument', hrest'⟩ := hedited.exists_isObjectDocument
  have hne : (label 10).1 ≠ (children 24).1 := by decide
  have hswapped : MemberTable.Rewrites ⟨nodeClass.members⟩ [label 10, children 24]
      [children 24, label 10] := @MemberTable.Rewrites.swapped _ [] [] _ _ hne
  have hrespaced : MemberTable.Rewrites ⟨nodeClass.members⟩ [children 24, label 10]
      [children 16, label 51] := .respaced (.cons ⟨rfl, rfl, rfl⟩ (.cons ⟨rfl, rfl, rfl⟩ .nil))
  have hrepeated : MemberTable.Rewrites ⟨nodeClass.members⟩ [children 16, label 51]
      [children 16, early, label 51] :=
    @MemberTable.Rewrites.repeated _ [children 16] [label 51] early (List.mem_singleton.mpr rfl)
  have hundeclared : MemberTable.Rewrites ⟨nodeClass.members⟩ [children 16, early, label 51]
      [children 16, note, early, label 51] :=
    @MemberTable.Rewrites.undeclared _ [children 16] [early, label 51] note rfl
  have hmoved := (Relation.EqvGen.rel _ _ hswapped).trans _ _ _ (.rel _ _ hrespaced)
  have hadded := (Relation.EqvGen.rel _ _ hrepeated).trans _ _ _ (.rel _ _ hundeclared)
  have hschema : treeCatalog.schema "tree::Node"
      = .ok ⟨"Node", ⟨nodeClass.members⟩, nodeClass.signature⟩ := rfl
  have hnode : treeCatalog.decode "tree::Node" (Bytes.ofString
      "\x7b\"label\":\"a\",\"children\":[]\x7d") {}
      = .ok (.record "tree::Node" [.scalar (.text (Bytes.ofString "a")),
        .present .option (.list [])]) := rfl
  obtain ⟨haccepted, hsame⟩ := (decode_rewritten treeCatalog "tree::Node" {} hschema).2 _ _ _ _ _ _
    hdocument hdocument' (hrest'.trans hrest.symm) (hmoved.trans _ _ _ hadded)
  refine ⟨haccepted, hnode, ?_⟩
  rw [hnode] at hsame
  exact eq_ok_of_mapError_eq_ok hsame

end Decoding

end SchemaJson
