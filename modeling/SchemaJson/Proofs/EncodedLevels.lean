import SchemaJson.Proofs.DecodedLevels
import SchemaJson.Proofs.DepthLimit
import SchemaJson.Proofs.RoundTrip

/-! Writer and reader count levels alike. A text that was written under some limit is read under
another one exactly if its value can be written under that one, and otherwise the reader exceeds
the limit too. -/

namespace SchemaJson

theorem Scalar.IsSound.isProper {content : Scalar} (h : content.IsSound) : content.IsProper := by
  cases content with
  | date instant =>
    have hvalid := h.1
    simp only [Instant.isValid, Bool.and_eq_true, Bool.or_eq_true, decide_eq_true_eq,
      beq_iff_eq] at hvalid
    exact ⟨hvalid.1.2, hvalid.2⟩
  | _ => exact h

namespace Value

variable {catalog : Catalog} {levels : Nat} {value : Value}

theorem HasType.isBuilt {type : ArgType} (h : value.HasType catalog type) :
    value.IsBuilt catalog type := by
  induction h with
  | scalar hsound => exact .scalar hsound.isProper
  | record hfind hlength _ ih => exact .record hfind hlength ih
  | growable _ ih => exact .growable ih
  | fixed _ ih => exact .fixed rfl ih
  | absent wrapper content => exact .absent wrapper content
  | present wrapper _ ih => exact .present wrapper ih

theorem Writable.mono {high : Nat} (h : value.Writable levels) (hle : levels ≤ high) :
    value.Writable high := by
  induction h generalizing high with
  | scalar _ hfinite => exact .scalar high hfinite
  | absent _ wrapper => exact .absent high wrapper
  | present wrapper _ ih => exact .present wrapper (ih hle)
  | list _ ih =>
    obtain ⟨inner, rfl⟩ := Nat.exists_eq_succ_of_ne_zero (by omega : high ≠ 0)
    exact .list fun item hitem => ih item hitem (Nat.le_of_succ_le_succ hle)
  | record typeName _ ih =>
    obtain ⟨inner, rfl⟩ := Nat.exists_eq_succ_of_ne_zero (by omega : high ≠ 0)
    exact .record typeName fun value hvalue => ih value hvalue (Nat.le_of_succ_le_succ hle)

end Value

namespace Catalog

variable {catalog : Catalog} {options : WriteOptions}

theorem WellDeclaredBelow.writesInOrder {typeName : String}
    (h : catalog.WellDeclaredBelow typeName) : catalog.WritesInOrder typeName := by
  intro nested hreaches
  obtain ⟨decl, schema, hfind, hdecl, hbind⟩ := h nested hreaches
  exact ⟨decl, schema, hfind, hbind, hdecl.memberValues⟩

theorem encode_iff_writable {type : ArgType} {value : Value} {tag : Tag}
    (htype : value.HasType catalog type) (haccepts : type.accepts tag false = true)
    (hdeclared : catalog.WellDeclaredTag tag) :
    (∃ text, catalog.encode value options = .ok text) ↔ value.Writable (options.maxDepth + 1) := by
  rw [encode_succeeds_iff]
  exact htype.isBuilt.encodes_iff haccepts fun typeName hname =>
    (hdeclared typeName hname).writesInOrder

/-- A reader that gives back what it may, as far as the value can be written under its limit, and
that a lower limit only cuts off, exceeds the limit where the value cannot be written. -/
theorem read_or_depthExceeded {reading : Nat → Except Error Value} {value normal : Value}
    {lost : Prop} {high : Nat}
    (hreads : ∀ limit result, reading limit = .ok result ↔
      result = normal ∧ ¬ lost ∧ value.Writable (limit + 1))
    (hcut : ∀ limit ≤ high, IsCutOff limit (reading limit) (reading high))
    (hhigh : value.Writable (high + 1)) (limit : Nat) :
    ((∃ result, reading limit = .ok result) ↔ value.Writable (limit + 1) ∧ ¬ lost) ∧
      (¬ lost → ¬ value.Writable (limit + 1) →
        ∃ offset, reading limit = .error (.structural (.depthExceeded limit) offset)) := by
  refine ⟨?_, fun hkeeps hlow => ?_⟩
  · simp only [hreads, exists_eq_left]
    exact and_comm
  · -- Under a higher limit the value, which was written, could be written as well.
    have hle : limit ≤ high := by
      by_contra hgt
      exact hlow (hhigh.mono (by omega))
    have hread : reading high = .ok normal := (hreads high normal).mpr ⟨rfl, hkeeps, hhigh⟩
    rcases hcut limit hle with hsame | hexceeded
    · exact absurd ((hreads limit normal).mp (hsame.trans hread)).2.2 hlow
    · exact hexceeded

end Catalog

/-- Under any limit a text that was written is read exactly if its value could be written under that
limit too, unless a number in it lost the quotes it was declared with; and if it could not, the
reader exceeds the limit. The same holds for arrays. -/
theorem levels_counted_alike (catalog : Catalog) (options : WriteOptions)
    (readOptions : ReadOptions) (limit : Nat) :
    (∀ typeName value text, catalog.WellDeclaredBelow typeName →
      Value.HasType catalog (.record typeName) value → catalog.encode value options = .ok text →
      ((∃ result, catalog.decode typeName text { readOptions with maxDepth := limit }
          = .ok result) ↔
        (∃ again, catalog.encode value { options with maxDepth := limit } = .ok again) ∧
          ¬ catalog.LosesQuotes (.record typeName) value) ∧
      (¬ catalog.LosesQuotes (.record typeName) value →
        (¬ ∃ again, catalog.encode value { options with maxDepth := limit } = .ok again) →
        ∃ offset, catalog.decode typeName text { readOptions with maxDepth := limit }
          = .error (.structural (.depthExceeded limit) offset))) ∧
    ∀ element tag items text, ArgType.elementTag? element = some tag →
      catalog.WellDeclaredTag tag → (∀ item ∈ items, Value.HasType catalog element item) →
      catalog.encodeArray items options = .ok text →
      ((∃ result, catalog.decodeArray element text { readOptions with maxDepth := limit }
          = .ok result) ↔
        (∃ again, catalog.encodeArray items { options with maxDepth := limit } = .ok again) ∧
          ¬ catalog.LosesQuotes (.array tag) (.list items)) ∧
      (¬ catalog.LosesQuotes (.array tag) (.list items) →
        (¬ ∃ again, catalog.encodeArray items { options with maxDepth := limit } = .ok again) →
        ∃ offset, catalog.decodeArray element text { readOptions with maxDepth := limit }
          = .error (.structural (.depthExceeded limit) offset)) := by
  constructor
  · intro typeName value text hdeclared htype hencode
    have haccepts := ArgType.accepts_record_self typeName
    have hdeclaredTag : catalog.WellDeclaredTag (.record typeName) := by
      rintro _ ⟨⟩
      exact hdeclared
    have hhigh := (Catalog.encode_iff_writable htype haccepts hdeclaredTag).mp ⟨text, hencode⟩
    rw [Catalog.encode_iff_writable htype haccepts hdeclaredTag]
    exact Catalog.read_or_depthExceeded
      (fun limit => @Catalog.decode_encode_iff catalog options
        { readOptions with maxDepth := limit } text typeName value hdeclared htype hencode)
      (fun _ hle => isCutOff_decode typeName hle) hhigh limit
  · intro element tag items text htag hdeclared htypes hencode
    have htype : Value.HasType catalog (.growable element) (.list items) := .growable htypes
    have haccepts := ArgType.accepts_growable_of_elementTag? htag
    -- That a limit only cuts arrays off is known of texts with whole characters, like this one.
    obtain ⟨hspells, hhigh⟩ := Catalog.spells_of_encode htype haccepts hdeclared hencode
    simp only [Catalog.encodeArray, Catalog.encode_iff_writable htype haccepts hdeclared]
    exact Catalog.read_or_depthExceeded
      (fun limit => @Catalog.decodeArray_encodeArray_iff catalog options
        { readOptions with maxDepth := limit } text element tag items htag hdeclared htypes hencode)
      (fun _ hle => isCutOff_decodeArray_of_isAligned element hspells.isAligned hle) hhigh limit

/-- A node with an array that stays empty, which is a level all the same. -/
def childlessNode : Value :=
  .record "tree::Node" [.scalar (.text (Bytes.ofString "a")), .present .option (.list [])]

/-- Where nothing may be nested in the document, the writer refuses the empty array and the reader
does too. -/
theorem empty_array_exceeds_limit :
    treeCatalog.encode childlessNode {}
      = .ok (Bytes.ofString "\x7b\"label\":\"a\",\"children\":[]\x7d") ∧
    (¬ ∃ again, treeCatalog.encode childlessNode { maxDepth := 0 } = .ok again) ∧
    ∃ offset, treeCatalog.decode "tree::Node"
        (Bytes.ofString "\x7b\"label\":\"a\",\"children\":[]\x7d") { maxDepth := 0 }
      = .error (.structural (.depthExceeded 0) offset) := by
  have hencode : treeCatalog.encode childlessNode {}
      = .ok (Bytes.ofString "\x7b\"label\":\"a\",\"children\":[]\x7d") := rfl
  have hrefused : treeCatalog.encode childlessNode { maxDepth := 0 }
      = .error (.encode (.depthExceeded 0)) := rfl
  have hlow : ¬ ∃ again, treeCatalog.encode childlessNode { maxDepth := 0 } = .ok again := by
    rintro ⟨again, hagain⟩
    cases hrefused.symm.trans hagain
  have htype : Value.HasType treeCatalog (.record "tree::Node") childlessNode :=
    .record rfl rfl (List.forall_mem_cons.mpr
      ⟨@Value.HasType.scalar treeCatalog (.text (Bytes.ofString "a")) ⟨"a", rfl⟩,
        List.forall_mem_singleton.mpr (.present .option (.growable (by simp)))⟩)
  have hkeeps : ¬ treeCatalog.LosesQuotes (.record "tree::Node") childlessNode := by
    refine Catalog.not_losesQuotes rfl ?_
    rintro _ ⟨⟩ nested hreaches decl hfind
    rw [treeCatalog_reaches hreaches] at hfind
    cases hfind
    decide
  exact ⟨hencode, hlow, ((levels_counted_alike treeCatalog {} {} 0).1 "tree::Node" _ _
    treeCatalog_wellDeclaredBelow htype hencode).2 hkeeps hlow⟩

/-- One score is written under the usual limit, and what was written is not read under it, for no
lack of levels: the element stands there without the quotes it is declared with. -/
theorem bare_score_is_refused :
    scoresCatalog.WellDeclaredBelow "game::Scores" ∧
      Value.HasType scoresCatalog (.record "game::Scores") oneScore ∧
      scoresCatalog.encode oneScore {} = .ok (Bytes.ofString "\x7b\"scores\":[1]\x7d") ∧
      scoresCatalog.decode "game::Scores" (Bytes.ofString "\x7b\"scores\":[1]\x7d") {}
        = .error
          (.invalidValue (Bytes.ofString "scores") "number(i32)" (Bytes.ofString "1") 11) := by
  have htype : Value.HasType scoresCatalog (.record "game::Scores") oneScore :=
    .record rfl rfl (List.forall_mem_singleton.mpr (.growable (List.forall_mem_singleton.mpr
      (@Value.HasType.scalar scoresCatalog (.integer .i32 1) rfl))))
  exact ⟨scoresCatalog_wellDeclaredBelow, htype, toOption_eq_some_iff.mp (by decide +kernel), rfl⟩

end SchemaJson
