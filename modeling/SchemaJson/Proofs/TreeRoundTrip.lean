import SchemaJson.Proofs.EscapedText
import SchemaJson.Proofs.FloatText
import SchemaJson.Proofs.TreeReading
import SchemaJson.Proofs.WrittenValues

/-! Reading back the tree that a typed value is written as. Nothing is lost but the quotes of
numbers in arrays. -/

namespace SchemaJson

namespace Scalar

variable {content : Scalar} {tag : Tag} {quoted : Bool} {digits : Bytes}

theorem isBlank_of_isNumeric {byte : UInt8} (h : isNumeric byte = true) : isBlank byte = false := by
  have hplain := (writtenLexicon.of_isNumeric h).2.1
  simp only [isPlain, Bool.and_eq_true, Bool.not_eq_true'] at hplain
  tauto

theorem withoutBlankEnd_of_isNumeric (h : ∀ byte ∈ digits, isNumeric byte = true) :
    Bytes.withoutBlankEnd digits = digits := by
  have hlast : ∀ byte ∈ digits.getLast?, isBlank byte = false :=
    fun byte hmem => isBlank_of_isNumeric (h byte (List.mem_of_getLast? hmem))
  simpa using Bytes.withoutBlankEnd_append isBlankText_nil hlast

theorem scalar?_numberTree {kind : NumberKind} {quoting : Quoting}
    (hread : kind.read digits = some content) (hnumeric : ∀ byte ∈ digits, isNumeric byte = true)
    (hquoted : quoted = true → (Tag.number kind quoting).isQuotedNumber = true) :
    ((numberTree quoted digits).leaf?.bind fun leaf => leaf.scalar? (.number kind quoting))
      = if (Tag.number kind quoting).isQuotedNumber = quoted then some content else none := by
  have hdigits := withoutBlankEnd_of_isNumeric hnumeric
  cases quoted <;> cases quoting <;>
    simp_all [numberTree, Tree.leaf?, Span.scalar?, Quoting.allows, Tag.isQuotedNumber]

/-- What is written of a value without parts is the value, with its text escaped. -/
theorem scalar?_tree (hsound : content.IsSound) (hfinite : content.IsFinite)
    (htag : tag.scalarType? = some content.type)
    (hquoted : quoted = true → tag.isQuotedNumber = true) :
    ((content.tree quoted).leaf?.bind fun leaf => leaf.scalar? tag)
      = if tag.isQuotedNumber = quoted then some content.normalize else none := by
  cases content with
  | integer kind value =>
    obtain ⟨quoting, rfl⟩ : ∃ quoting, tag = .number (.integer kind) quoting := by
      cases tag <;> cases htag
      exact ⟨_, rfl⟩
    have hread : NumberKind.read (.integer kind) (decimalInt value) = some (.integer kind value) := by
      rw [NumberKind.read, IntegerKind.read_decimalInt hsound, Option.map_some]
    exact scalar?_numberTree hread (isNumeric_decimalInt value) hquoted
  | float format bits =>
    obtain ⟨quoting, rfl⟩ : ∃ quoting, tag = .number (.float format) quoting := by
      cases tag <;> cases htag
      exact ⟨_, rfl⟩
    have hread : NumberKind.read (.float format) (format.documentLayout.write format bits)
        = some (.float format bits) := by
      rw [NumberKind.read, FloatFormat.read_write format.documentLayout hsound hfinite, Option.map_some]
    exact scalar?_numberTree hread (FloatLayout.isNumeric_write format.documentLayout format bits) hquoted
  | bool value =>
    obtain rfl : tag = .bool := by
      cases tag <;> cases htag
      rfl
    obtain rfl : quoted = false := by simpa [Tag.isQuotedNumber] using hquoted
    cases value <;> rfl
  | text content =>
    obtain rfl : tag = .string := by
      cases tag <;> cases htag
      rfl
    obtain rfl : quoted = false := by simpa [Tag.isQuotedNumber] using hquoted
    rfl
  | date instant =>
    obtain rfl : tag = .date := by
      cases tag <;> cases htag
      rfl
    obtain rfl : quoted = false := by simpa [Tag.isQuotedNumber] using hquoted
    have hread := Instant.read_write hsound.1 hsound.2.1 hsound.2.2
    simp [tree, Tree.leaf?, Span.scalar?, hread, Tag.isQuotedNumber, normalize]

theorem isNull_numberTree (h : ∀ byte ∈ digits, isNumeric byte = true) :
    (numberTree quoted digits).isNull = false := by
  cases quoted with
  | true => rfl
  | false =>
    have hne : digits ≠ [0x6e, 0x75, 0x6c, 0x6c] := by
      rintro rfl
      exact absurd (h 0x6e (by simp)) (by decide)
    simp [numberTree, Tree.isNull, Tree.leaf?, Span.isNull, hne]

theorem isNull_tree (content : Scalar) (quoted : Bool) : (content.tree quoted).isNull = false := by
  cases content with
  | integer kind value => exact isNull_numberTree (isNumeric_decimalInt value)
  | float format bits =>
    exact isNull_numberTree (FloatLayout.isNumeric_write format.documentLayout format bits)
  | bool value => cases value <;> rfl
  | text content => rfl
  | date instant => rfl

end Scalar

namespace Value

variable {catalog : Catalog} {tag : Tag} {quoted : Bool} {levels : Nat}

theorem HasType.isAbsent_eq_false {type : ArgType} {value : Value} (htype : HasType catalog type value)
    (haccepts : type.accepts tag false = true) : value.isAbsent = false := by
  cases htype with
  | absent => cases (ArgType.accepts_nullable.mp haccepts).1
  | _ => rfl

theorem HasType.isNull_tree {type : ArgType} {value : Value} (htype : HasType catalog type value)
    (haccepts : type.accepts tag false = true) (quoted : Bool) :
    (value.tree catalog quoted).isNull = false := by
  cases htype with
  | scalar => exact Scalar.isNull_tree _ quoted
  | record => rfl
  | growable => rfl
  | fixed => rfl
  | absent => cases (ArgType.accepts_nullable.mp haccepts).1
  | present => cases (ArgType.accepts_nullable.mp haccepts).1

/-- The tree that a member of a value is written as, if it is written. -/
def memberTree (catalog : Catalog) (given : Member × Value) : Option Tree :=
  if given.2.isAbsent then none else some (given.2.tree catalog given.1.tag.isQuotedNumber)

theorem eq_of_name_eq {members : List Member} {values : List Value} {given other : Member × Value}
    (hlength : members.length = values.length) (hnodup : (members.map Member.name).Nodup)
    (hgiven : given ∈ members.zip values) (hother : other ∈ members.zip values)
    (h : given.1.name = other.1.name) : given = other := by
  have hnames : ((members.zip values).map fun given => given.1.name).Nodup := by
    rwa [← List.map_fst_zip (Nat.le_of_eq hlength), List.map_map] at hnodup
  exact List.inj_on_of_nodup_map hnames hgiven hother h

theorem lookup_eq_of_mem_iff {named : List (Bytes × Tree)} {name : Bytes} {found : Option Tree}
    (h : ∀ tree, (name, tree) ∈ named ↔ found = some tree) : named.lookup name = found := by
  cases hlookup : named.lookup name with
  | none =>
    cases found with
    | none => rfl
    | some tree =>
      have hne := List.lookup_eq_none_iff.mp hlookup _ ((h tree).mpr rfl)
      simp at hne
  | some tree =>
    obtain ⟨before, after, rfl, -⟩ := List.lookup_eq_some_iff.mp hlookup
    exact ((h tree).mp (by simp)).symm

/-- Among distinct names with nothing to escape every member has its own tree. -/
theorem lookup_memberTrees {members : List Member} {values : List Value} {given : Member × Value}
    (hlength : members.length = values.length) (hnodup : (members.map Member.name).Nodup)
    (hescape : ∀ member ∈ members, Writer.escape member.name = member.name)
    (hgiven : given ∈ members.zip values) :
    (memberTrees catalog members values).reverse.lookup given.1.name = memberTree catalog given := by
  refine lookup_eq_of_mem_iff fun tree => ?_
  rw [List.mem_reverse, mem_memberTrees]
  constructor
  · rintro ⟨other, hother, habsent, hnamed⟩
    obtain ⟨hname, rfl⟩ := Prod.mk.inj hnamed
    rw [hescape other.1 (List.of_mem_zip hother).1] at hname
    obtain rfl := eq_of_name_eq hlength hnodup hgiven hother hname
    simp [memberTree, habsent]
  · intro htree
    refine ⟨given, hgiven, ?_⟩
    rw [hescape given.1 (List.of_mem_zip hgiven).1]
    cases habsent : given.2.isAbsent <;> simp_all [memberTree]

/-- The members of an object are read back one by one. -/
theorem readArguments_iff {read : ArgType → Tag → Tree → Option Value} {named : List (Bytes × Tree)}
    {used : List Bytes} {members : List Member} {arguments : List ArgType} {values : List Value}
    {keeps : Member × Value → Prop}
    (hbound : List.Forall₂ (fun member argument => argument.accepts member.tag member.nullable = true)
      members arguments) (hlength : arguments.length = values.length)
    (hnodup : (members.map Member.name).Nodup) (hused : ∀ member ∈ members, member.name ∉ used)
    (hlookup : ∀ given ∈ members.zip values,
      named.reverse.lookup given.1.name = memberTree catalog given)
    (hread : ∀ given ∈ members.zip values, ∀ argument, (argument, given.2) ∈ arguments.zip values →
      argument.accepts given.1.tag given.1.nullable = true → ∀ result,
        Tree.readArgument read given.1.tag argument (memberTree catalog given) = some result ↔
          result = given.2.normalize ∧ keeps given)
    (results : List Value) :
    Tree.readArguments read named used members arguments = some results ↔
      results = values.map normalize ∧ ∀ given ∈ members.zip values, keeps given := by
  induction hbound generalizing used values results with
  | nil =>
    obtain rfl := List.length_eq_zero_iff.mp hlength.symm
    simp [Tree.readArguments, eq_comm]
  | @cons member argument members arguments haccepts hbound ih =>
    obtain _ | ⟨value, values⟩ := values
    · cases hlength
    have hfirst := hread (member, value) (by simp) argument (by simp) haccepts
    obtain ⟨hfresh, hnodup'⟩ := List.nodup_cons.mp hnodup
    have hused' : ∀ other ∈ members, other.name ∉ member.name :: used := by
      intro other hother hmem
      rcases List.mem_cons.mp hmem with hname | hmem
      · exact hfresh (List.mem_map.mpr ⟨other, hother, hname⟩)
      · exact hused other (by simp [hother]) hmem
    have hrest := @ih (member.name :: used) values (Nat.succ.inj hlength) hnodup' hused'
      (fun given hmem => hlookup given (by simp [hmem]))
      (fun given hmem argument hargument => hread given (by simp [hmem]) argument (by simp [hargument]))
    have htree : (if used.contains member.name then none else named.reverse.lookup member.name)
        = memberTree catalog (member, value) := by
      rw [if_neg (by simpa using hused member (by simp))]
      exact hlookup (member, value) (by simp)
    have hsteps : Tree.readArguments read named used (member :: members) (argument :: arguments)
        = (Tree.readArgument read member.tag argument (memberTree catalog (member, value))).bind
          fun first => (Tree.readArguments read named (member.name :: used) members arguments).bind
            fun rest => some (first :: rest) := by
      rw [← htree]
      rfl
    simp only [hsteps, Option.bind_eq_some_iff, hfirst, hrest, Option.some.injEq, List.map_cons,
      List.zip_cons_cons, List.forall_mem_cons]
    constructor
    · rintro ⟨_, ⟨rfl, hkeeps⟩, _, ⟨rfl, hkeep⟩, rfl⟩
      exact ⟨rfl, hkeeps, hkeep⟩
    · rintro ⟨rfl, hkeeps, hkeep⟩
      exact ⟨_, ⟨rfl, hkeeps⟩, _, ⟨rfl, hkeep⟩, rfl⟩

theorem mapM_trees_iff {read : Tree → Option Value} {keeps : Value → Prop} {items : List Value}
    (h : ∀ item ∈ items, ∀ result,
      read (item.tree catalog false) = some result ↔ result = item.normalize ∧ keeps item)
    (results : List Value) :
    (trees catalog items).mapM read = some results ↔
      results = items.map normalize ∧ ∀ item ∈ items, keeps item := by
  induction items generalizing results with
  | nil => simp [trees, eq_comm]
  | cons item items ih =>
    have hfirst := h item (by simp)
    have hrest := ih fun other hmem => h other (by simp [hmem])
    rw [trees, List.mapM_cons]
    simp only [Option.bind_eq_bind, Option.pure_def, Option.bind_eq_some_iff, hfirst, hrest,
      Option.some.injEq, List.map_cons, List.forall_mem_cons]
    constructor
    · rintro ⟨_, ⟨rfl, hkeeps⟩, _, ⟨rfl, hkeep⟩, rfl⟩
      exact ⟨rfl, hkeeps, hkeep⟩
    · rintro ⟨rfl, hkeeps, hkeep⟩
      exact ⟨_, ⟨rfl, hkeeps⟩, _, ⟨rfl, hkeep⟩, rfl⟩

/-- What is built of something that is read back in one way only is built in one way only. -/
theorem bind_eq_some_iff {α : Type} {read : Option α} {expected : α} {keeps : Prop}
    (h : ∀ a, read = some a ↔ a = expected ∧ keeps) (build : α → Value) (result : Value) :
    (read.bind fun a => some (build a)) = some result ↔ result = build expected ∧ keeps := by
  simp only [Option.bind_eq_some_iff, h, Option.some.injEq]
  constructor
  · rintro ⟨_, ⟨rfl, hkeeps⟩, rfl⟩
    exact ⟨rfl, hkeeps⟩
  · rintro ⟨rfl, hkeeps⟩
    exact ⟨_, ⟨rfl, hkeeps⟩, rfl⟩

theorem HasType.readArgument_eq {type : ArgType} {value : Value} (htype : HasType catalog type value)
    (haccepts : type.accepts tag false = true) (read : ArgType → Tag → Tree → Option Value)
    (tree : Tree) :
    Tree.readArgument read tag type (if value.isAbsent then none else some tree) = read type tag tree := by
  rw [Tree.readArgument_of_accepts haccepts, htype.isAbsent_eq_false haccepts]
  rfl

theorem mapM_readTree_iff {element : ArgType} {items : List Value}
    (htypes : ∀ item ∈ items, HasType catalog element item)
    (helement : element.accepts tag false = true)
    (hread : ∀ item ∈ items, ∀ result, Tree.readArgument (catalog.readTree levels) tag element
        (if item.isAbsent then none else some (item.tree catalog false)) = some result ↔
      result = item.normalize ∧ tag.isQuotedNumber = false ∧ ¬ catalog.LosesQuotes tag item ∧
        item.Writable levels)
    (results : List Value) :
    (trees catalog items).mapM (catalog.readTree levels element tag) = some results ↔
      results = items.map normalize ∧ ¬ catalog.LosesQuotes (.array tag) (.list items) ∧
        (Value.list items).Writable (levels + 1) := by
  have hkeeps : (¬ catalog.LosesQuotes (.array tag) (.list items) ∧
      (Value.list items).Writable (levels + 1)) ↔ ∀ item ∈ items, tag.isQuotedNumber = false ∧
        ¬ catalog.LosesQuotes tag item ∧ item.Writable levels := by
    simp only [Catalog.not_losesQuotes_list, writable_list, Nat.add_right_cancel_iff,
      exists_eq_left', ← and_assoc, forall₂_and]
  rw [hkeeps]
  refine mapM_trees_iff (fun item hitem result => ?_) results
  have hitem' := hread item hitem result
  rwa [(htypes item hitem).readArgument_eq helement] at hitem'

theorem readTree_record_iff {decl : ClassDecl} {typeName : String} {stored : List Value}
    (hfind : catalog.find? typeName = some decl) (hbelow : catalog.WellDeclaredBelow typeName)
    (hlength : decl.signature.arguments.length = stored.length)
    (hread : ∀ given ∈ decl.members.zip stored, ∀ argument,
      (argument, given.2) ∈ decl.signature.arguments.zip stored →
      argument.accepts given.1.tag given.1.nullable = true → ∀ result,
        Tree.readArgument (catalog.readTree levels) given.1.tag argument (memberTree catalog given)
            = some result ↔
          result = given.2.normalize ∧ ¬ catalog.LosesQuotes given.1.tag given.2 ∧
            given.2.Writable levels)
    (result : Value) :
    catalog.readTree (levels + 1) (.record typeName) (.record typeName)
        ((Value.record typeName stored).tree catalog false) = some result ↔
      result = (Value.record typeName stored).normalize ∧
        ¬ catalog.LosesQuotes (.record typeName) (.record typeName stored) ∧
        (Value.record typeName stored).Writable (levels + 1) := by
  obtain ⟨hdecl, hschema, hbound⟩ := hbelow.bound hfind
  have hmembers : decl.members.length = stored.length := hbound.length_eq.trans hlength
  have hlookup (given : Member × Value) (hgiven : given ∈ decl.members.zip stored) :=
    @lookup_memberTrees catalog _ _ _ hmembers hdecl.nodup hdecl.escape hgiven
  have harguments := @readArguments_iff catalog _ _ [] _ _ _ _ hbound hlength hdecl.nodup (by simp)
    hlookup hread
  have hsteps : catalog.readTree (levels + 1) (.record typeName) (.record typeName)
      (.object (memberTrees catalog decl.members stored))
      = (Tree.readArguments (catalog.readTree levels) (memberTrees catalog decl.members stored) []
        decl.members decl.signature.arguments).bind fun stored => some (.record typeName stored) := by
    rw [Catalog.readTree, Catalog.readRecord, hschema]
    rfl
  have hkeeps : (¬ catalog.LosesQuotes (.record typeName) (.record typeName stored) ∧
      (Value.record typeName stored).Writable (levels + 1)) ↔ ∀ given ∈ decl.members.zip stored,
        ¬ catalog.LosesQuotes given.1.tag given.2 ∧ given.2.Writable levels := by
    simp only [Catalog.not_losesQuotes_record hfind, writable_record, Nat.add_right_cancel_iff,
      exists_eq_left', ← forall_mem_zip_right hmembers, forall₂_and]
  rw [tree_record hfind, hsteps, bind_eq_some_iff harguments (.record typeName), hkeeps, normalize,
    normalizeAll_eq_map]

/-- What is read back of a typed value is the value with its texts escaped, unless a number in it
lost its quotes or there are fewer levels than the value nests. -/
theorem HasType.readArgument_iff {type : ArgType} {value : Value} {isNullable : Bool} {high : Nat}
    (htype : HasType catalog type value) (haccepts : type.accepts tag isNullable = true)
    (hdeclared : catalog.WellDeclaredTag tag) (hwritable : value.Writable high)
    (hquoted : quoted = true ∨ isNullable = true → tag.isQuotedNumber = quoted) (result : Value) :
    Tree.readArgument (catalog.readTree levels) tag type
        (if value.isAbsent then none else some (value.tree catalog quoted)) = some result ↔
      result = value.normalize ∧ tag.isQuotedNumber = quoted ∧ ¬ catalog.LosesQuotes tag value ∧
        value.Writable levels := by
  induction htype generalizing tag isNullable levels high quoted result with
  | @scalar content hsound =>
    obtain ⟨rfl, htag⟩ := ArgType.accepts_scalar.mp haccepts
    have hfinite : content.IsFinite := writable_scalar.mp hwritable
    have hkeeps : ¬ catalog.LosesQuotes tag (.scalar content) := by
      rintro ⟨⟩
    have hread := Scalar.scalar?_tree hsound hfinite htag fun h => (hquoted (.inl h)).trans h
    show catalog.readTree levels (.scalar content.type) tag (content.tree quoted) = some result ↔ _
    rw [Catalog.readTree_scalar, hread]
    split
    next h => simp [normalize, h, hkeeps, hfinite, writable_scalar, eq_comm]
    next h => simp [h]
  | @record decl typeName stored hfind hlength htypes ih =>
    obtain ⟨rfl, rfl⟩ := ArgType.accepts_record.mp haccepts
    obtain rfl : quoted = false := Bool.eq_false_iff.mpr fun h => nomatch (hquoted (.inl h)).trans h
    have hbelow := hdeclared typeName rfl
    obtain ⟨inner, -, hwritable⟩ := writable_record.mp hwritable
    show catalog.readTree levels (.record typeName) (.record typeName)
      ((Value.record typeName stored).tree catalog false) = some result ↔ _
    cases levels with
    | zero => simp [Catalog.readTree, writable_record]
    | succ levels =>
      have hread := readTree_record_iff hfind hbelow hlength
        fun given hgiven argument hargument haccepts result => by
          have hbelow' := hbelow.member hfind (List.of_mem_zip hgiven).1
          have hwritable' := hwritable given.2 (List.of_mem_zip hgiven).2
          -- A direct number has the quotes its member asks for; only elements may lack them.
          have hmember := @ih _ hargument given.1.tag given.1.tag.isQuotedNumber levels
            given.1.nullable inner haccepts hbelow' hwritable' (fun _ => rfl) result
          simpa [memberTree] using hmember
      rw [hread]
      simp [Tag.isQuotedNumber]
  | @growable element items htypes ih =>
    obtain ⟨rfl, declared, rfl, helement⟩ := ArgType.accepts_growable.mp haccepts
    obtain rfl : quoted = false := Bool.eq_false_iff.mpr fun h => nomatch (hquoted (.inl h)).trans h
    obtain ⟨inner, -, hwritable⟩ := writable_list.mp hwritable
    show catalog.readTree levels (.growable element) (.array declared)
      (.array (trees catalog items)) = some result ↔ _
    cases levels with
    | zero => simp [Catalog.readTree, writable_list]
    | succ levels =>
      have hread := @mapM_readTree_iff catalog declared levels _ _ htypes helement
        fun item hitem result => ih item hitem helement hdeclared (hwritable item hitem) (by simp) result
      show ((trees catalog items).mapM (catalog.readTree levels element declared)).bind
        (fun list => some (Value.list list)) = some result ↔ _
      rw [bind_eq_some_iff hread Value.list, normalize, normalizeAll_eq_map]
      simp [Tag.isQuotedNumber]
  | @fixed element items htypes ih =>
    obtain ⟨rfl, declared, rfl, helement⟩ := ArgType.accepts_fixed.mp haccepts
    obtain rfl : quoted = false := Bool.eq_false_iff.mpr fun h => nomatch (hquoted (.inl h)).trans h
    obtain ⟨inner, -, hwritable⟩ := writable_list.mp hwritable
    show catalog.readTree levels (.fixed element items.length) (.array declared)
      (.array (trees catalog items)) = some result ↔ _
    cases levels with
    | zero => simp [Catalog.readTree, writable_list]
    | succ levels =>
      have hread := @mapM_readTree_iff catalog declared levels _ _ htypes helement
        fun item hitem result => ih item hitem helement hdeclared (hwritable item hitem) (by simp) result
      have htake : (trees catalog items).take items.length = trees catalog items := by
        rw [trees_eq_map, List.take_of_length_le (by simp)]
      show (((trees catalog items).take items.length).mapM
        (catalog.readTree levels element declared)).bind (fun list => some (Value.list
          (list ++ List.replicate (items.length - list.length) (element.blank catalog.blank))))
        = some result ↔ _
      rw [htake, bind_eq_some_iff hread, normalize, normalizeAll_eq_map]
      simp [Tag.isQuotedNumber]
  | absent wrapper content =>
    obtain ⟨rfl, -⟩ := ArgType.accepts_nullable.mp haccepts
    have hkeeps : ¬ catalog.LosesQuotes tag (.absent wrapper) := by
      rintro ⟨⟩
    have habsent : (Value.absent wrapper).Writable levels := .absent levels wrapper
    simp [isAbsent, Tree.readArgument, normalize, hquoted, hkeeps, habsent, eq_comm]
  | @present content value wrapper htype ih =>
    obtain ⟨rfl, hcontent⟩ := ArgType.accepts_nullable.mp haccepts
    have hread := @ih tag quoted levels false high hcontent hdeclared
      (writable_present.mp hwritable) fun _ => hquoted (.inr rfl)
    simp only [htype.readArgument_eq hcontent] at hread
    show (if (value.tree catalog quoted).isNull then some (Value.absent wrapper)
      else (catalog.readTree levels content tag (value.tree catalog quoted)).map (.present wrapper))
        = some result ↔ _
    rw [htype.isNull_tree hcontent quoted, if_neg Bool.false_ne_true, Option.map_eq_bind,
      Catalog.losesQuotes_present, writable_present, normalize]
    exact bind_eq_some_iff hread (.present wrapper) result

theorem not_quotesClass_list {items : List Value}
    (h : ∀ item ∈ items, ¬ catalog.QuotesClass tag (item.tree catalog false)) (quoted : Bool) :
    ¬ catalog.QuotesClass (.array tag) ((Value.list items).tree catalog quoted) := by
  rw [tree, trees_eq_map]
  intro hquotes
  cases hquotes with
  | element hitem hquotes =>
    obtain ⟨item, hmem, rfl⟩ := List.mem_map.mp hitem
    exact h item hmem hquotes

/-- No string is written where a class is declared. -/
theorem HasType.not_quotesClass {type : ArgType} {value : Value} {isNullable : Bool}
    (htype : HasType catalog type value) (haccepts : type.accepts tag isNullable = true)
    (hdeclared : catalog.WellDeclaredTag tag) (quoted : Bool) :
    ¬ catalog.QuotesClass tag (value.tree catalog quoted) := by
  induction htype generalizing tag isNullable quoted with
  | scalar =>
    obtain ⟨-, htag⟩ := ArgType.accepts_scalar.mp haccepts
    rw [tree]
    intro h
    generalize Scalar.tree quoted _ = tree at h
    cases h <;> cases htag
  | @record decl typeName stored hfind _ _ ih =>
    obtain ⟨-, rfl⟩ := ArgType.accepts_record.mp haccepts
    have hbelow := hdeclared typeName rfl
    obtain ⟨hdecl, hschema, hbound⟩ := hbelow.bound hfind
    rw [tree_record hfind]
    intro h
    cases h with
    | @member _ schema member _ _ hschema' hmember hnamed h =>
      obtain rfl := Except.ok.inj (hschema.symm.trans hschema')
      obtain ⟨given, hgiven, -, hnamed⟩ := mem_memberTrees.mp hnamed
      obtain ⟨hname, rfl⟩ := Prod.mk.inj hnamed
      have hmember' := (List.of_mem_zip hgiven).1
      rw [hdecl.escape given.1 hmember'] at hname
      obtain rfl := List.inj_on_of_nodup_map hdecl.nodup hmember hmember' hname
      obtain ⟨argument, hargument, haccepts⟩ := Catalog.exists_argument_of_mem_zip hbound hgiven
      exact ih _ hargument haccepts (hbelow.member hfind hmember') _ h
  | growable _ ih =>
    obtain ⟨-, declared, rfl, helement⟩ := ArgType.accepts_growable.mp haccepts
    exact not_quotesClass_list (fun item hitem => ih item hitem helement hdeclared false) quoted
  | fixed _ ih =>
    obtain ⟨-, declared, rfl, helement⟩ := ArgType.accepts_fixed.mp haccepts
    exact not_quotesClass_list (fun item hitem => ih item hitem helement hdeclared false) quoted
  | absent =>
    rw [tree]
    rintro ⟨⟩
  | present wrapper _ ih => exact ih (ArgType.accepts_nullable.mp haccepts).2 hdeclared quoted

end Value

end SchemaJson
