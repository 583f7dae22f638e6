import SchemaJson.Proofs.EntryWalk

/-! Which texts the walk over an object keeps. A declared member has the text of the last member of
its name, and a declaration whose name an earlier one has keeps nothing. -/

namespace SchemaJson

/-- The text kept for a member: that of the last member of its name, and none if an earlier
declaration has the name. -/
def keptSpan (met : List (Bytes × Span)) (used : List Bytes) (name : Bytes) : Option Span :=
  if used.contains name then none else met.reverse.lookup name

def keptSpans (met : List (Bytes × Span)) : (used : List Bytes) → List Member → List (Option Span)
  | _, [] => []
  | used, member :: members =>
    keptSpan met used member.name :: keptSpans met (member.name :: used) members

theorem keptSpans_nil (used : List Bytes) (members : List Member) :
    keptSpans [] used members = List.replicate members.length none := by
  induction members generalizing used with
  | nil => rfl
  | cons member members ih =>
    rw [keptSpans, ih, List.length_cons, List.replicate_succ, keptSpan]
    split <;> rfl

theorem keptSpan_concat_of_ne {met : List (Bytes × Span)} {entry : Bytes × Span}
    {used : List Bytes} {name : Bytes} (h : name ∈ used ∨ name ≠ entry.1) :
    keptSpan (met ++ [entry]) used name = keptSpan met used name := by
  by_cases hused : name ∈ used
  · simp [keptSpan, hused]
  · obtain ⟨key, span⟩ := entry
    have hname : (name == key) = false := by simpa using h.resolve_left hused
    simp [keptSpan, hused, List.lookup_cons, hname]

/-- A further member replaces the text of the first declaration of its name. -/
theorem keptSpans_concat (met : List (Bytes × Span)) (entry : Bytes × Span) (used : List Bytes)
    (members : List Member) :
    keptSpans (met ++ [entry]) used members =
      match if entry.1 ∈ used then none
        else members.findIdx? fun member => member.name == entry.1 with
      | some position => (keptSpans met used members).set position (some entry.2)
      | none => keptSpans met used members := by
  induction members generalizing used with
  | nil => split <;> rfl
  | cons member members ih =>
    simp only [keptSpans, ih]
    by_cases hused : entry.1 ∈ used
    · have hhead : member.name ∈ used ∨ member.name ≠ entry.1 := by
        by_cases hname : member.name = entry.1
        · exact .inl (hname ▸ hused)
        · exact .inr hname
      rw [keptSpan_concat_of_ne hhead, if_pos hused, if_pos (List.mem_cons_of_mem _ hused)]
    · rw [if_neg hused, List.findIdx?_cons]
      by_cases hname : member.name = entry.1
      · have hhead : keptSpan (met ++ [entry]) used member.name = some entry.2 := by
          obtain ⟨key, span⟩ := entry
          simp [keptSpan, hname, hused]
        rw [hhead, if_pos (by simp [hname]), if_pos (by simp [hname])]
        rfl
      · have hrest : ¬ entry.1 ∈ member.name :: used := by
          simpa [hused] using fun h => hname h.symm
        have hne : ¬ (member.name == entry.1) = true := by simpa using hname
        rw [keptSpan_concat_of_ne (.inr hname), if_neg hrest, if_neg hne]
        cases members.findIdx? fun member => member.name == entry.1 <;> rfl

theorem foldl_keep_eq (table : MemberTable) (met : List (Bytes × Span)) :
    met.foldl table.keep (List.replicate table.size none) = keptSpans met [] table.members := by
  induction met using List.reverseRecOn with
  | nil => exact (keptSpans_nil [] table.members).symm
  | append_singleton met entry ih =>
    rw [List.foldl_append, ih, keptSpans_concat, if_neg List.not_mem_nil]
    rfl

theorem keptSpan_congr {met : List (Bytes × Span)} {used other : List Bytes} {name : Bytes}
    (h : name ∈ used ↔ name ∈ other) : keptSpan met used name = keptSpan met other name := by
  by_cases hused : name ∈ used
  · simp [keptSpan, hused, h.mp hused]
  · simp [keptSpan, hused, mt h.mpr hused]

theorem length_keptSpans (met : List (Bytes × Span)) (used : List Bytes) (members : List Member) :
    (keptSpans met used members).length = members.length := by
  induction members generalizing used with
  | nil => rfl
  | cons member members ih => simp [keptSpans, ih]

theorem getElem?_keptSpans {met : List (Bytes × Span)} {members : List Member} {position : Nat}
    {member : Member} (used : List Bytes) (h : members[position]? = some member) :
    (keptSpans met used members)[position]?
      = some (keptSpan met ((members.take position).map Member.name ++ used) member.name) := by
  induction members generalizing used position with
  | nil => simp at h
  | cons head members ih =>
    cases position with
    | zero =>
      have hhead : head = member := by simpa using h
      simp [keptSpans, hhead]
    | succ position =>
      have hrest : members[position]? = some member := by simpa using h
      have hkept := ih (head.name :: used) hrest
      have hused : keptSpan met
          ((members.take position).map Member.name ++ head.name :: used) member.name
          = keptSpan met
            (((head :: members).take (position + 1)).map Member.name ++ used) member.name := by
        apply keptSpan_congr
        simp only [List.take_succ_cons, List.map_cons, List.mem_append, List.mem_cons]
        tauto
      rw [keptSpans, List.getElem?_cons_succ, hkept, hused]

section Rel

variable {α β : Type} {R : α → β → Prop}

theorem rel_lookup {first : List (Bytes × α)} {second : List (Bytes × β)} (name : Bytes)
    (h : List.Forall₂ (fun a b => b.1 = a.1 ∧ R a.2 b.2) first second) :
    Option.Rel R (first.lookup name) (second.lookup name) := by
  induction h with
  | nil => exact .none
  | @cons a b _ _ hhead _ ih =>
    obtain ⟨key, value⟩ := a
    obtain ⟨found, other⟩ := b
    obtain ⟨rfl, hvalue⟩ := hhead
    rw [List.lookup_cons, List.lookup_cons]
    cases name == found with
    | true => exact .some hvalue
    | false => exact ih

end Rel

/-- What is kept depends on the last value of each declared name alone. -/
theorem forall₂_keptSpans_of_lookup {R : Span → Span → Prop} {met met' : List (Bytes × Span)}
    {members : List Member} (h : ∀ member ∈ members,
      Option.Rel R (met.reverse.lookup member.name) (met'.reverse.lookup member.name))
    (used : List Bytes) :
    List.Forall₂ (Option.Rel R) (keptSpans met used members) (keptSpans met' used members) := by
  induction members generalizing used with
  | nil => exact .nil
  | cons member members ih =>
    obtain ⟨hmember, hmembers⟩ := List.forall_mem_cons.mp h
    refine .cons ?_ (ih hmembers _)
    by_cases hused : used.contains member.name = true
    · rw [keptSpan, keptSpan, if_pos hused, if_pos hused]
      exact .none
    · rw [keptSpan, keptSpan, if_neg hused, if_neg hused]
      exact hmember

/-- Members with the same names, met in two places, are kept in the same places. -/
theorem forall₂_keptSpans {R : Span → Span → Prop} {met met' : List (Bytes × Span)}
    (h : List.Forall₂ (fun entry entry' => entry'.1 = entry.1 ∧ R entry.2 entry'.2) met met')
    (used : List Bytes) (members : List Member) :
    List.Forall₂ (Option.Rel R) (keptSpans met used members) (keptSpans met' used members) :=
  forall₂_keptSpans_of_lookup
    (fun member _ => rel_lookup member.name (List.forall₂_reverse_iff.mpr h)) used

end SchemaJson
