import Mathlib.Data.List.Nodup
import SchemaJson.Proofs.MemberPresence

/-! Which names a table reports as repeated. Each member that follows another one of its name is
reported, so the first reports are the names declared more than once, in the order of their second
declarations. Every declaration behind the second reports its name again. -/

namespace SchemaJson

namespace MemberTable

def push (table : MemberTable) (member : Member) : MemberTable := ⟨table.members ++ [member]⟩

/-- How many members are declared with the name. -/
def declarations (table : MemberTable) (name : Bytes) : Nat :=
  (table.members.map Member.name).count name

/-- The member at that position has the name, and exactly one in front of it has it too. -/
structure IsSecond (table : MemberTable) (name : Bytes) (position : Nat) : Prop where
  named : (table.get? position).map Member.name = some name
  once : declarations ⟨table.members.take position⟩ name = 1

def RepeatsBefore (table : MemberTable) (name later : Bytes) : Prop :=
  ∃ second other, table.IsSecond name second ∧ table.IsSecond later other ∧ second < other

/-- The list has each name that is declared more than once, and has it once, in the order of the
second declarations. -/
structure ListsRepeatedOnce (table : MemberTable) (listed : List Bytes) : Prop where
  nodup : listed.Nodup
  mem_iff : ∀ name, name ∈ listed ↔ 2 ≤ table.declarations name
  ordered : listed.Pairwise table.RepeatsBefore

variable {table : MemberTable} {member : Member} {name later : Bytes} {position : Nat}
  {listed : List Bytes}

theorem push_induction {motive : MemberTable → Prop} (table : MemberTable) (empty : motive ⟨[]⟩)
    (push : ∀ table member, motive table → motive (table.push member)) : motive table := by
  obtain ⟨members⟩ := table
  induction members using List.reverseRecOn with
  | nil => exact empty
  | append_singleton members member ih => exact push ⟨members⟩ member ih

theorem declarations_push : (table.push member).declarations name
    = table.declarations name + if member.name = name then 1 else 0 := by
  simp [declarations, push, List.count_append, List.count_singleton]

theorem mem_names_iff : name ∈ table.members.map Member.name ↔ 0 < table.declarations name :=
  List.count_pos_iff.symm

/-! ### What one more member adds to the reports -/

theorem repeatedAfter_concat (seen names : List Bytes) (name : Bytes) :
    repeatedAfter seen (names ++ [name])
      = repeatedAfter seen names ++ if name ∈ seen ∨ name ∈ names then [name] else [] := by
  induction names generalizing seen with
  | nil => by_cases hseen : name ∈ seen <;> simp [repeatedAfter, hseen]
  | cons head names ih =>
    by_cases hseen : head ∈ seen
    · -- A name that was seen is not noted again, so the head is met as a seen one.
      have hmet : (name ∈ seen ∨ name ∈ names) ↔ name ∈ seen ∨ name ∈ head :: names := by
        constructor
        · exact Or.imp_right (List.mem_cons_of_mem head)
        · rintro (hold | hnew)
          · exact .inl hold
          · rcases List.mem_cons.mp hnew with rfl | hlater
            · exact .inl hseen
            · exact .inr hlater
      simp only [List.cons_append, repeatedAfter, List.contains_iff_mem, hseen, if_true, ih, hmet]
    · have hmet : (name ∈ head :: seen ∨ name ∈ names) ↔ name ∈ seen ∨ name ∈ head :: names := by
        simp only [List.mem_cons]
        tauto
      simp only [List.cons_append, repeatedAfter, List.contains_iff_mem, hseen, if_false, ih, hmet]

theorem repeatedNames_push : (table.push member).repeatedNames
    = table.repeatedNames ++ if 0 < table.declarations member.name then [member.name] else [] := by
  have hconcat := repeatedAfter_concat [] (table.members.map Member.name) member.name
  simpa [repeatedNames, push, ← mem_names_iff] using hconcat

theorem count_repeatedNames (table : MemberTable) (name : Bytes) :
    table.repeatedNames.count name = table.declarations name - 1 := by
  induction table using push_induction with
  | empty => rfl
  | push table member ih =>
    rw [repeatedNames_push, declarations_push, List.count_append, ih]
    by_cases hname : member.name = name
    · subst hname
      by_cases hdeclared : 0 < table.declarations member.name
      · rw [if_pos hdeclared, if_pos rfl, List.count_singleton_self]
        omega
      · rw [if_neg hdeclared, if_pos rfl, List.count_nil]
        omega
    · have hnone : (if 0 < table.declarations member.name then [member.name] else []).count name
          = 0 := by
        apply List.count_eq_zero.mpr
        split <;> simp [Ne.symm hname]
      rw [hnone, if_neg hname, Nat.add_zero, Nat.add_zero]

theorem mem_repeatedNames_iff : name ∈ table.repeatedNames ↔ 2 ≤ table.declarations name := by
  rw [← List.count_pos_iff, count_repeatedNames]
  omega

/-! ### The reports by their positions -/

instance : Decidable (table.Repeats position member) := decidable_of_iff _ mem_earlierNames_iff

/-- The members that repeat a name, with their positions. -/
def repetitions (table : MemberTable) : List (Member × Nat) :=
  table.members.zipIdx.filter fun entry => table.Repeats entry.2 entry.1

theorem repeats_push_iff {added : Member} (hposition : position ≤ table.members.length) :
    (table.push added).Repeats position member ↔ table.Repeats position member := by
  have htake : (table.push added).members.take position = table.members.take position :=
    List.take_append_of_le_length hposition
  rw [← mem_earlierNames_iff, ← mem_earlierNames_iff, htake]

theorem repeats_length_iff :
    table.Repeats table.members.length member ↔ 0 < table.declarations member.name := by
  rw [← mem_earlierNames_iff, List.take_length, mem_names_iff]

theorem repetitions_push : (table.push member).repetitions = table.repetitions
    ++ if 0 < table.declarations member.name then [(member, table.members.length)] else [] := by
  have hentries : (table.push member).members.zipIdx
      = table.members.zipIdx ++ [(member, table.members.length)] := by
    simp [push, List.zipIdx_append]
  have hold : table.members.zipIdx.filter (fun entry =>
      (table.push member).Repeats entry.2 entry.1) = table.repetitions := by
    apply List.filter_congr
    intro entry hentry
    have hposition : entry.2 < table.members.length := by
      simpa using List.snd_lt_of_mem_zipIdx hentry
    simp only [repeats_push_iff hposition.le]
  have hadded : (table.push member).Repeats table.members.length member
      ↔ 0 < table.declarations member.name :=
    (repeats_push_iff le_rfl).trans repeats_length_iff
  rw [repetitions, hentries, List.filter_append, hold]
  simp only [List.filter_cons, List.filter_nil, hadded, decide_eq_true_eq]

theorem repeatedNames_eq_map (table : MemberTable) :
    table.repeatedNames = table.repetitions.map fun entry => entry.1.name := by
  induction table using push_induction with
  | empty => rfl
  | push table member ih =>
    rw [repeatedNames_push, repetitions_push, List.map_append, ih]
    split <;> rfl

/-! ### The first reports -/

theorem IsSecond.lt_length (h : table.IsSecond name position) :
    position < table.members.length := by
  by_contra hbehind
  have hnamed := h.named
  rw [get?, List.getElem?_eq_none (by omega)] at hnamed
  cases hnamed

theorem IsSecond.push (h : table.IsSecond name position) :
    (table.push member).IsSecond name position := by
  have hposition := h.lt_length
  constructor
  · rw [get?, MemberTable.push, List.getElem?_append_left hposition]
    exact h.named
  · rw [MemberTable.push, List.take_append_of_le_length hposition.le]
    exact h.once

theorem RepeatsBefore.push (h : table.RepeatsBefore name later) :
    (table.push member).RepeatsBefore name later := by
  obtain ⟨second, other, hsecond, hother, hlt⟩ := h
  exact ⟨second, other, hsecond.push, hother.push, hlt⟩

theorem isSecond_push (hname : table.declarations member.name = 1) :
    (table.push member).IsSecond member.name table.members.length := by
  constructor
  · rw [get?, push, List.getElem?_concat_length]
    rfl
  · rw [push, List.take_left]
    exact hname

theorem exists_isSecond (hname : 2 ≤ table.declarations name) :
    ∃ position, table.IsSecond name position := by
  induction table using push_induction with
  | empty => simp [declarations] at hname
  | push table member ih =>
    by_cases hbefore : 2 ≤ table.declarations name
    · obtain ⟨position, hsecond⟩ := ih hbefore
      exact ⟨position, hsecond.push⟩
    · rw [declarations_push] at hname
      split at hname
      next hsame =>
        subst hsame
        exact ⟨_, isSecond_push (by omega)⟩
      next hother => omega

theorem ListsRepeatedOnce.push_second (h : table.ListsRepeatedOnce listed)
    (hname : table.declarations member.name = 1) :
    (table.push member).ListsRepeatedOnce (listed ++ [member.name]) := by
  have hnew : member.name ∉ listed := by
    intro hlisted
    have htwice := (h.mem_iff _).mp hlisted
    omega
  constructor
  · have hapart : ∀ name ∈ listed, name ≠ member.name :=
      fun name hlisted hsame => hnew (hsame ▸ hlisted)
    simpa [List.nodup_append] using ⟨h.nodup, hapart⟩
  · intro name
    rw [declarations_push, List.mem_append, List.mem_singleton, h.mem_iff]
    by_cases hsame : member.name = name
    · subst hsame
      simp [hname]
    · simp [hsame, Ne.symm hsame]
  · have hold : listed.Pairwise (table.push member).RepeatsBefore :=
      h.ordered.imp RepeatsBefore.push
    refine List.pairwise_append.mpr ⟨hold, List.pairwise_singleton _ _, ?_⟩
    -- The second declaration of the new name is the member that was just declared.
    intro name hlisted later hlater
    obtain ⟨second, hsecond⟩ := exists_isSecond ((h.mem_iff name).mp hlisted)
    rw [List.mem_singleton.mp hlater]
    exact ⟨second, _, hsecond.push, isSecond_push hname, hsecond.lt_length⟩

theorem ListsRepeatedOnce.push_other (h : table.ListsRepeatedOnce listed)
    (hname : table.declarations member.name ≠ 1) :
    (table.push member).ListsRepeatedOnce listed := by
  refine ⟨h.nodup, fun name => ?_, h.ordered.imp RepeatsBefore.push⟩
  rw [h.mem_iff, declarations_push]
  by_cases hsame : member.name = name
  · subst hsame
    rw [if_pos rfl]
    omega
  · rw [if_neg hsame, Nat.add_zero]

theorem eraseDups_repeatedNames_push : (table.push member).repeatedNames.eraseDups
    = table.repeatedNames.eraseDups
      ++ if table.declarations member.name = 1 then [member.name] else [] := by
  rw [repeatedNames_push, List.eraseDups_append]
  congr 1
  by_cases hreported : member.name ∈ table.repeatedNames
  · have htwice := mem_repeatedNames_iff.mp hreported
    rw [if_pos (by omega), if_neg (by omega)]
    simp [List.removeAll, hreported]
  · have honce : table.declarations member.name < 2 := by
      simpa using mt mem_repeatedNames_iff.mpr hreported
    by_cases hdeclared : 0 < table.declarations member.name
    · have hkept : [member.name].removeAll table.repeatedNames = [member.name] := by
        simp [List.removeAll, hreported]
      rw [if_pos hdeclared, if_pos (by omega), hkept]
      rfl
    · rw [if_neg hdeclared, if_neg (by omega)]
      rfl

/-- By induction on the members from the front: the list of first reports grows exactly where a
second declaration is added. -/
theorem listsRepeatedOnce_eraseDups (table : MemberTable) :
    table.ListsRepeatedOnce table.repeatedNames.eraseDups := by
  induction table using push_induction with
  | empty =>
    refine ⟨List.nodup_nil, fun name => ?_, List.Pairwise.nil⟩
    simp [declarations, repeatedNames, repeatedAfter]
  | push table member ih =>
    rw [eraseDups_repeatedNames_push]
    by_cases hsecond : table.declarations member.name = 1
    · rw [if_pos hsecond]
      exact ih.push_second hsecond
    · rw [if_neg hsecond, List.append_nil]
      exact ih.push_other hsecond

end MemberTable

theorem eraseDups_of_nodup {α : Type} [BEq α] [LawfulBEq α] {entries : List α}
    (h : entries.Nodup) : entries.eraseDups = entries := by
  induction entries with
  | nil => rfl
  | cons entry entries ih =>
    obtain ⟨hentry, hentries⟩ := List.nodup_cons.mp h
    have hkept : entries.filter (fun other => !other == entry) = entries := by
      apply List.filter_eq_self.mpr
      intro other hother
      have hne : other ≠ entry := fun hsame => hentry (hsame ▸ hother)
      simpa using hne
    rw [List.eraseDups_cons, hkept, ih hentries]

/-- The reports are the names of all members that repeat a name, in the order of declaration, so a
name comes one time less than it is declared. The first reports list the names that are declared
more than once, in the order of their second declarations. All the reports do so exactly if no name
is declared three times. -/
theorem every_repetition_is_reported (table : MemberTable) :
    table.repeatedNames = table.repetitions.map (fun entry => entry.1.name) ∧
    (∀ name, table.repeatedNames.count name = table.declarations name - 1) ∧
    table.ListsRepeatedOnce table.repeatedNames.eraseDups ∧
    (table.ListsRepeatedOnce table.repeatedNames ↔ ∀ name, table.declarations name ≤ 2) := by
  have hcount := table.count_repeatedNames
  have hfirst := table.listsRepeatedOnce_eraseDups
  refine ⟨table.repeatedNames_eq_map, hcount, hfirst, ?_⟩
  constructor
  · intro hlists name
    have hone := List.nodup_iff_count_le_one.mp hlists.nodup name
    rw [hcount] at hone
    omega
  · intro htwice
    have hnodup : table.repeatedNames.Nodup := by
      apply List.nodup_iff_count_le_one.mpr
      intro name
      have hname := htwice name
      rw [hcount]
      omega
    rwa [eraseDups_of_nodup hnodup] at hfirst

def thriceDeclared : MemberTable := ⟨List.replicate 3 (.ofString "a" .bool)⟩

/-- The third declaration of a name reports it again. -/
theorem third_declaration_reported_again :
    thriceDeclared.repeatedNames = [Bytes.ofString "a", Bytes.ofString "a"] ∧
      ¬ thriceDeclared.ListsRepeatedOnce thriceDeclared.repeatedNames := by
  refine ⟨by decide, fun hlists => ?_⟩
  have hnodup := hlists.nodup
  revert hnodup
  decide

end SchemaJson
