import SchemaJson.Json.Encode
import SchemaJson.Proofs.BoundClasses
import SchemaJson.Proofs.JsonTexts

/-! Typed values, the trees they are written as, and what reading the trees back makes of them. -/

namespace SchemaJson

theorem filterMap_range_getElem? {α : Type} (list : List α) :
    ((List.range list.length).filterMap fun position => list[position]?) = list := by
  induction list with
  | nil => rfl
  | cons a list ih =>
    rw [List.length_cons, List.range_succ_eq_map, List.filterMap_cons, List.filterMap_map]
    simpa using ih

theorem forall_mem_zip_right {α β : Type} {first : List α} {second : List β} {P : β → Prop}
    (hlength : first.length = second.length) :
    (∀ pair ∈ first.zip second, P pair.2) ↔ ∀ b ∈ second, P b := by
  have hsecond : (first.zip second).map Prod.snd = second := List.map_snd_zip hlength.ge
  rw [← List.forall_mem_map, hsecond]

def Bytes.IsText (bytes : Bytes) : Prop := ∃ text : String, bytes = Bytes.ofString text

namespace Scalar

/-- A payload that the type really has. Dates are in a year of four digits. -/
def IsSound : Scalar → Prop
  | text content => content.IsText
  | date instant => instant.isValid = true ∧ 0 ≤ instant.date.year ∧ instant.date.year ≤ 9999
  | content => content.InRange

/-- Only floating-point numbers that are finite are written. -/
def IsFinite : Scalar → Prop
  | float format bits => format.isFinite bits = true
  | _ => True

def numberTree (quoted : Bool) (digits : Bytes) : Tree :=
  if quoted then .string digits else .literal digits

def tree (quoted : Bool) : Scalar → Tree
  | integer _ value => numberTree quoted (decimalInt value)
  | float format bits => numberTree quoted (format.documentLayout.write format bits)
  | bool value => .literal (if value then Bytes.ofString "true" else Bytes.ofString "false")
  | text content => .string (Writer.escape content)
  | date instant => .string instant.write

def normalize : Scalar → Scalar
  | text content => text (Writer.escape content)
  | content => content

end Scalar

namespace Value

inductive HasType (catalog : Catalog) : ArgType → Value → Prop
  | scalar {content : Scalar} : content.IsSound →
      HasType catalog (.scalar content.type) (.scalar content)
  | record {decl : ClassDecl} {typeName : String} {stored : List Value} :
      catalog.find? typeName = some decl → decl.signature.arguments.length = stored.length →
      (∀ entry ∈ decl.signature.arguments.zip stored, HasType catalog entry.1 entry.2) →
      HasType catalog (.record typeName) (.record typeName stored)
  | growable {element : ArgType} {items : List Value} :
      (∀ item ∈ items, HasType catalog element item) →
      HasType catalog (.growable element) (.list items)
  | fixed {element : ArgType} {items : List Value} :
      (∀ item ∈ items, HasType catalog element item) →
      HasType catalog (.fixed element items.length) (.list items)
  | absent (wrapper : Wrapper) (content : ArgType) :
      HasType catalog (.nullable wrapper content) (.absent wrapper)
  | present {content : ArgType} {value : Value} (wrapper : Wrapper) : HasType catalog content value →
      HasType catalog (.nullable wrapper content) (.present wrapper value)

/-- The value nests no more classes and arrays than there are levels, and its numbers are finite. -/
inductive Writable : (levels : Nat) → Value → Prop
  | scalar {content : Scalar} (levels : Nat) : content.IsFinite → Writable levels (.scalar content)
  | absent (levels : Nat) (wrapper : Wrapper) : Writable levels (.absent wrapper)
  | present {levels : Nat} {content : Value} (wrapper : Wrapper) : Writable levels content →
      Writable levels (.present wrapper content)
  | list {levels : Nat} {items : List Value} : (∀ item ∈ items, Writable levels item) →
      Writable (levels + 1) (.list items)
  | record {levels : Nat} {stored : List Value} (typeName : String) :
      (∀ value ∈ stored, Writable levels value) → Writable (levels + 1) (.record typeName stored)

mutual

/-- The tree that a value is written as. An absent member is left out. -/
def tree (catalog : Catalog) : (quoted : Bool) → Value → Tree
  | quoted, .scalar content => content.tree quoted
  | _, .absent _ => .literal (Bytes.ofString "null")
  | quoted, .present _ content => tree catalog quoted content
  | _, .list items => .array (trees catalog items)
  | _, .record typeName stored =>
    .object (memberTrees catalog (((catalog.find? typeName).map ClassDecl.members).getD []) stored)

def trees (catalog : Catalog) : List Value → List Tree
  | [] => []
  | value :: values => tree catalog false value :: trees catalog values

def memberTrees (catalog : Catalog) : List Member → List Value → List (Bytes × Tree)
  | _, [] => []
  | [], _ => []
  | member :: members, value :: values =>
    if value.isAbsent then memberTrees catalog members values
    else (Writer.escape member.name, tree catalog member.tag.isQuotedNumber value)
      :: memberTrees catalog members values

end

mutual

/-- The value with every text in it escaped. -/
def normalize : Value → Value
  | .scalar content => .scalar content.normalize
  | .absent wrapper => .absent wrapper
  | .present wrapper content => .present wrapper (normalize content)
  | .list items => .list (normalizeAll items)
  | .record typeName stored => .record typeName (normalizeAll stored)

def normalizeAll : List Value → List Value
  | [] => []
  | value :: values => normalize value :: normalizeAll values

end

/-- The text stands somewhere in the value. -/
inductive HasText (text : Bytes) : Value → Prop
  | here : HasText text (.scalar (.text text))
  | present {content : Value} (wrapper : Wrapper) : HasText text content →
      HasText text (.present wrapper content)
  | list {items : List Value} {item : Value} : item ∈ items → HasText text item →
      HasText text (.list items)
  | record {stored : List Value} {value : Value} (typeName : String) : value ∈ stored →
      HasText text value → HasText text (.record typeName stored)

theorem writable_scalar {levels : Nat} {content : Scalar} :
    (Value.scalar content).Writable levels ↔ content.IsFinite := by
  constructor
  · rintro ⟨⟩
    assumption
  · exact .scalar levels

theorem writable_present {levels : Nat} {wrapper : Wrapper} {content : Value} :
    (Value.present wrapper content).Writable levels ↔ content.Writable levels := by
  constructor
  · rintro ⟨⟩
    assumption
  · exact .present wrapper

theorem writable_list {levels : Nat} {items : List Value} : (Value.list items).Writable levels ↔
    ∃ inner, levels = inner + 1 ∧ ∀ item ∈ items, item.Writable inner := by
  constructor
  · rintro ⟨⟩
    exact ⟨_, rfl, ‹_›⟩
  · rintro ⟨inner, rfl, hitems⟩
    exact .list hitems

theorem writable_record {levels : Nat} {typeName : String} {stored : List Value} :
    (Value.record typeName stored).Writable levels ↔
      ∃ inner, levels = inner + 1 ∧ ∀ value ∈ stored, value.Writable inner := by
  constructor
  · rintro ⟨⟩
    exact ⟨_, rfl, ‹_›⟩
  · rintro ⟨inner, rfl, hvalues⟩
    exact .record typeName hvalues

variable {catalog : Catalog}

theorem trees_eq_map (catalog : Catalog) (values : List Value) :
    trees catalog values = values.map (tree catalog false) := by
  induction values with
  | nil => rfl
  | cons value values ih => rw [trees, ih, List.map_cons]

theorem normalizeAll_eq_map (values : List Value) : normalizeAll values = values.map normalize := by
  induction values with
  | nil => rfl
  | cons value values ih => rw [normalizeAll, ih, List.map_cons]

theorem tree_record {decl : ClassDecl} {typeName : String}
    (hfind : catalog.find? typeName = some decl) (quoted : Bool) (stored : List Value) :
    (Value.record typeName stored).tree catalog quoted
      = .object (memberTrees catalog decl.members stored) := by
  rw [tree, hfind, Option.map_some, Option.getD_some]

theorem entries_eq_map (catalog : Catalog) (values : List Value) :
    entries catalog values = values.map (entry catalog) := by
  induction values with
  | nil => rfl
  | cons value values ih => rw [entries, ih, List.map_cons]

theorem isAbsent_entry (catalog : Catalog) (value : Value) :
    (value.entry catalog).isAbsent = value.isAbsent := by
  cases value <;> rfl

theorem memberEntries_map {decl : ClassDecl} {typeName : String}
    (hfind : catalog.find? typeName = some decl) (stored : List Value) :
    catalog.memberEntries typeName (stored.map (entry catalog))
      = (decl.memberValues.filterMap fun position => stored[position]?).map (entry catalog) := by
  simp only [Catalog.memberEntries, hfind, List.getElem?_map, List.map_filterMap]

theorem mem_memberTrees {members : List Member} {values : List Value} {named : Bytes × Tree} :
    named ∈ memberTrees catalog members values ↔ ∃ given ∈ members.zip values,
      given.2.isAbsent = false ∧
        named = (Writer.escape given.1.name, given.2.tree catalog given.1.tag.isQuotedNumber) := by
  induction values generalizing members with
  | nil => simp [memberTrees]
  | cons value values ih =>
    cases members with
    | nil => simp [memberTrees]
    | cons member members =>
      cases habsent : value.isAbsent <;> simp [memberTrees, habsent, ih]

mutual

/-- A value whose texts have nothing to escape is left as it is. -/
theorem normalize_eq_self : (value : Value) →
    (∀ text, HasText text value → Writer.escape text = text) → value.normalize = value
  | .scalar (.text content), h => by
    rw [normalize, Scalar.normalize, h content .here]
  | .scalar (.integer ..), _ => rfl
  | .scalar (.float ..), _ => rfl
  | .scalar (.bool _), _ => rfl
  | .scalar (.date _), _ => rfl
  | .absent _, _ => rfl
  | .present wrapper content, h => by
    rw [normalize, normalize_eq_self content fun text htext => h text (.present wrapper htext)]
  | .list items, h => by
    rw [normalize, normalizeAll_eq_self items fun item hitem text htext => h text (.list hitem htext)]
  | .record typeName stored, h => by
    rw [normalize, normalizeAll_eq_self stored
      fun value hvalue text htext => h text (.record typeName hvalue htext)]

theorem normalizeAll_eq_self : (values : List Value) →
    (∀ value ∈ values, ∀ text, HasText text value → Writer.escape text = text) →
    normalizeAll values = values
  | [], _ => rfl
  | value :: values, h => by
    rw [normalizeAll, normalize_eq_self value (h value (by simp)),
      normalizeAll_eq_self values fun other hmem => h other (by simp [hmem])]

end

end Value

/-- Whether the tag declares an array of numbers with quotes, or arrays of such. -/
def Tag.quotesElements : Tag → Bool
  | .array element => element.isQuotedNumber || element.quotesElements
  | _ => false

namespace ClassDecl

/-- The names are distinct texts with nothing to escape, and every member is written from the
argument at its own place. -/
structure IsWellDeclared (decl : ClassDecl) : Prop where
  nodup : (decl.members.map Member.name).Nodup
  isText : ∀ member ∈ decl.members, member.name.IsText
  escape : ∀ member ∈ decl.members, Writer.escape member.name = member.name
  memberValues : decl.memberValues = List.range decl.members.length

end ClassDecl

namespace Catalog

variable {catalog : Catalog}

/-- The class binds and is well declared, and so are all classes below it. -/
def WellDeclaredBelow (catalog : Catalog) (typeName : String) : Prop :=
  ∀ nested, Relation.ReflTransGen catalog.Nests typeName nested →
    ∃ decl schema, catalog.find? nested = some decl ∧ decl.IsWellDeclared ∧ decl.bind = .ok schema

def WellDeclaredTag (catalog : Catalog) (tag : Tag) : Prop :=
  ∀ typeName ∈ tag.typeName?, catalog.WellDeclaredBelow typeName

theorem WellDeclaredBelow.bindsBelow {typeName : String} (h : catalog.WellDeclaredBelow typeName) :
    catalog.BindsBelow typeName := by
  intro nested hnested
  obtain ⟨decl, schema, hfind, -, hbind⟩ := h nested hnested
  exact ⟨schema, by rw [Catalog.schema, hfind]; exact hbind⟩

theorem WellDeclaredTag.bindsTag {tag : Tag} (h : catalog.WellDeclaredTag tag) :
    catalog.BindsTag tag :=
  fun typeName htypeName => (h typeName htypeName).bindsBelow

theorem WellDeclaredBelow.member {typeName : String} {decl : ClassDecl} {member : Member}
    (h : catalog.WellDeclaredBelow typeName) (hfind : catalog.find? typeName = some decl)
    (hmember : member ∈ decl.members) : catalog.WellDeclaredTag member.tag :=
  fun _ hnested below hbelow => h below (.head ⟨decl, hfind, member, hmember, hnested⟩ hbelow)

theorem WellDeclaredBelow.bound {typeName : String} {decl : ClassDecl}
    (h : catalog.WellDeclaredBelow typeName) (hfind : catalog.find? typeName = some decl) :
    decl.IsWellDeclared ∧ catalog.schema typeName
        = .ok ⟨shortName decl.typeName, ⟨decl.members⟩, decl.signature⟩ ∧
      List.Forall₂ (fun member argument => argument.accepts member.tag member.nullable = true)
        decl.members decl.signature.arguments := by
  obtain ⟨decl', schema, hfind', hdecl, hbind⟩ := h typeName .refl
  obtain rfl : decl = decl' := Option.some.inj (hfind.symm.trans hfind')
  obtain ⟨rfl, hbound⟩ := Schema.bind_eq_ok hbind
  have hschema : catalog.schema typeName = decl.bind := by rw [Catalog.schema, hfind]
  exact ⟨hdecl, hschema.trans hbind, hbound⟩

theorem exists_argument_of_mem_zip {members : List Member} {arguments : List ArgType}
    {stored : List Value} {given : Member × Value}
    (hbound : List.Forall₂ (fun member argument => argument.accepts member.tag member.nullable = true)
      members arguments) (h : given ∈ members.zip stored) :
    ∃ argument, (argument, given.2) ∈ arguments.zip stored ∧
      argument.accepts given.1.tag given.1.nullable = true := by
  induction hbound generalizing stored with
  | nil => cases h
  | @cons member argument members arguments haccepts _ ih =>
    cases stored with
    | nil => cases h
    | cons value stored =>
      rcases List.mem_cons.mp h with rfl | h
      · exact ⟨argument, by simp, haccepts⟩
      · obtain ⟨argument, hmem, haccepts⟩ := ih h
        exact ⟨argument, by simp [hmem], haccepts⟩

theorem memberEntries_eq {typeName : String} {decl : ClassDecl} {stored : List Entry}
    (hfind : catalog.find? typeName = some decl) (hdecl : decl.IsWellDeclared)
    (hlength : decl.members.length = stored.length) : catalog.memberEntries typeName stored = stored := by
  simp only [memberEntries, hfind, hdecl.memberValues, hlength]
  exact filterMap_range_getElem? stored

/-- Somewhere in the value a number stands in an array whose elements are declared with quotes. -/
inductive LosesQuotes (catalog : Catalog) : Tag → Value → Prop
  | here {tag : Tag} {items : List Value} {item : Value} : tag.isQuotedNumber = true →
      item ∈ items → LosesQuotes catalog (.array tag) (.list items)
  | element {tag : Tag} {items : List Value} {item : Value} : item ∈ items →
      LosesQuotes catalog tag item → LosesQuotes catalog (.array tag) (.list items)
  | present {tag : Tag} {content : Value} (wrapper : Wrapper) : LosesQuotes catalog tag content →
      LosesQuotes catalog tag (.present wrapper content)
  | member {decl : ClassDecl} {typeName : String} {stored : List Value} {given : Member × Value} :
      catalog.find? typeName = some decl → given ∈ decl.members.zip stored →
      LosesQuotes catalog given.1.tag given.2 →
      LosesQuotes catalog (.record typeName) (.record typeName stored)

/-- No class below declares an array of numbers with quotes. -/
def QuotesNoElements (catalog : Catalog) (typeName : String) : Prop :=
  ∀ nested, Relation.ReflTransGen catalog.Nests typeName nested →
    ∀ decl, catalog.find? nested = some decl → ∀ member ∈ decl.members,
      member.tag.quotesElements = false

/-- Where no array of numbers is declared with quotes, no quotes are lost. -/
theorem not_losesQuotes {tag : Tag} {value : Value} (htag : tag.quotesElements = false)
    (hclasses : ∀ typeName ∈ tag.typeName?, catalog.QuotesNoElements typeName) :
    ¬ catalog.LosesQuotes tag value := by
  intro h
  induction h with
  | here hquoted =>
    rw [Tag.quotesElements, hquoted] at htag
    cases htag
  | element _ _ ih =>
    rw [Tag.quotesElements, Bool.or_eq_false_iff] at htag
    exact ih htag.2 hclasses
  | present _ _ ih => exact ih htag hclasses
  | @member decl typeName stored given hfind hgiven _ ih =>
    have hmember := (List.of_mem_zip hgiven).1
    have hbelow := hclasses typeName rfl
    refine ih (hbelow typeName .refl decl hfind given.1 hmember) fun nested hnested below hreaches => ?_
    exact hbelow below (.head ⟨decl, hfind, given.1, hmember, hnested⟩ hreaches)

theorem not_losesQuotes_list {tag : Tag} {items : List Value} :
    ¬ catalog.LosesQuotes (.array tag) (.list items) ↔
      ∀ item ∈ items, tag.isQuotedNumber = false ∧ ¬ catalog.LosesQuotes tag item := by
  constructor
  · intro h item hitem
    refine ⟨?_, fun hloses => h (.element hitem hloses)⟩
    cases hquoted : tag.isQuotedNumber with
    | false => rfl
    | true => exact absurd (.here hquoted hitem) h
  · intro h hloses
    cases hloses with
    | here hquoted hitem => simp [(h _ hitem).1] at hquoted
    | element hitem hloses => exact (h _ hitem).2 hloses

theorem losesQuotes_present {tag : Tag} {wrapper : Wrapper} {content : Value} :
    catalog.LosesQuotes tag (.present wrapper content) ↔ catalog.LosesQuotes tag content := by
  constructor
  · intro h
    cases h with
    | present _ h => exact h
  · exact .present wrapper

theorem not_losesQuotes_record {decl : ClassDecl} {typeName : String} {stored : List Value}
    (hfind : catalog.find? typeName = some decl) :
    ¬ catalog.LosesQuotes (.record typeName) (.record typeName stored) ↔
      ∀ given ∈ decl.members.zip stored, ¬ catalog.LosesQuotes given.1.tag given.2 := by
  constructor
  · intro h given hgiven hloses
    exact h (.member hfind hgiven hloses)
  · intro h hloses
    cases hloses with
    | member hfind' hgiven hloses =>
      obtain rfl := Option.some.inj (hfind.symm.trans hfind')
      exact h _ hgiven hloses

end Catalog

end SchemaJson
