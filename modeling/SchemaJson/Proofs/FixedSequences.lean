import SchemaJson.Proofs.NestedSpans

/-! Growable and fixed sequences read the same elements of an array. A fixed one stops where it is
full, so that a failure behind its last place is none of its own, and fills up what no element
reaches. -/

namespace SchemaJson

namespace Sequence

variable {α : Type} {items : List (Except Error α)} {list : List α} {position size : Nat}
  {error : Error}

/-- The item at the position is the first that failed, and the ones in front of it are `list`. -/
structure FailsAt (items : List (Except Error α)) (position : Nat) (list : List α) (error : Error) :
    Prop where
  front : items.take position = list.map .ok
  failure : items[position]? = some (.error error)

theorem FailsAt.length_eq (h : FailsAt items position list error) : list.length = position := by
  have hlt : position < items.length := (List.getElem?_eq_some_iff.mp h.failure).1
  have hlength := congrArg List.length h.front
  simp only [List.length_take, List.length_map] at hlength
  omega

theorem FailsAt.cons (h : FailsAt items position list error) (a : α) :
    FailsAt (.ok a :: items) (position + 1) (a :: list) error := by
  constructor
  · simp [h.front]
  · simp [h.failure]

theorem FailsAt.readAll_eq (h : FailsAt items position list error) :
    readAll items = (position + 1, .error error) := by
  induction items generalizing position list with
  | nil => simpa using h.failure
  | cons item items ih =>
    cases position with
    | zero =>
      have hitem : item = .error error := by simpa using h.failure
      simp [readAll, hitem]
    | succ position =>
      have hfront := h.front
      cases list with
      | nil => simp at hfront
      | cons a list =>
        simp only [List.take_succ_cons, List.map_cons, List.cons.injEq] at hfront
        have hrest := ih ⟨hfront.2, by simpa using h.failure⟩
        simp [readAll, hfront.1, hrest, Except.map]

theorem FailsAt.unique {other : Nat} {front : List α} {found : Error}
    (h : FailsAt items position list error) (h' : FailsAt items other front found) :
    other = position ∧ front = list := by
  have hread := h'.readAll_eq.symm.trans h.readAll_eq
  have hposition : other = position := by simpa using congrArg Prod.fst hread
  subst hposition
  have hfront := h'.front.symm.trans h.front
  exact ⟨rfl, List.map_injective_iff.mpr (fun _ _ hok => Except.ok.inj hok) hfront⟩

theorem exists_failsAt (h : (readAll items).2 = .error error) :
    ∃ position list, FailsAt items position list error := by
  induction items with
  | nil => simp [readAll] at h
  | cons item items ih =>
    cases item with
    | error found =>
      have hfound : found = error := by simpa [readAll] using h
      exact ⟨0, [], by simp, by simp [hfound]⟩
    | ok a =>
      have hrest : (readAll items).2 = .error error := by
        cases hresult : (readAll items).2 with
        | error found => simpa [readAll, hresult, Except.map] using h
        | ok list => simp [readAll, hresult, Except.map] at h
      obtain ⟨position, list, hfails⟩ := ih hrest
      exact ⟨position + 1, a :: list, hfails.cons a⟩

/-- Cutting off items behind the failure leaves it where it is. -/
theorem FailsAt.take (h : FailsAt items position list error) (hsize : position < size) :
    FailsAt (items.take size) position list error := by
  constructor
  · rw [List.take_take, min_eq_left (by omega), h.front]
  · rw [List.getElem?_take_of_lt hsize, h.failure]

theorem FailsAt.take_eq (h : FailsAt items position list error) (hsize : size ≤ position) :
    items.take size = (list.take size).map .ok := by
  rw [List.map_take, ← h.front, List.take_take, min_eq_left hsize]

theorem fixed_of_failsAt (h : FailsAt items position list error) (hsize : position < size)
    (blank : α) : (fixed size blank items).2 = .error error := by
  simp [fixed, (h.take hsize).readAll_eq, Except.map]

theorem fixed_of_take_eq (h : items.take size = list.map .ok) (blank : α) :
    (fixed size blank items).2 = .ok (list ++ List.replicate (size - list.length) blank) := by
  simp [fixed, readAll_eq_ok_iff.mpr h, Except.map]

/-- The places of a fixed sequence, each with its item or the blank one. -/
theorem take_append_replicate (list : List α) (size : Nat) (blank : α) :
    list.take size ++ List.replicate (size - list.length) blank
      = (List.range size).map fun i => list.getD i blank := by
  apply List.ext_getElem
  · simp only [List.length_append, List.length_take, List.length_replicate, List.length_map,
      List.length_range]
    omega
  · intro i _ hi
    have hsize : i < size := by simpa using hi
    by_cases hlist : i < list.length
    · have htake : i < (list.take size).length := by
        simp only [List.length_take]
        omega
      rw [List.getElem_append_left htake]
      simp [hlist]
    · have htake : (list.take size).length ≤ i := by
        simp only [List.length_take]
        omega
      rw [List.getElem_append_right htake]
      simp [hlist]

theorem fixed_of_readAll (h : (readAll items).2 = .ok list) (size : Nat) (blank : α) :
    (fixed size blank items).2 = .ok ((List.range size).map fun i => list.getD i blank) := by
  have htake : items.take size = (list.take size).map .ok := by
    rw [readAll_eq_ok_iff.mp h, List.map_take]
  have hlength : size - (list.take size).length = size - list.length := by
    simp only [List.length_take]
    omega
  rw [fixed_of_take_eq htake, hlength, take_append_replicate]

end Sequence

/-- What the elements of an array are built to, up to the first that cannot be decoded. -/
def ArrayView.built (classes : ClassReader) (element : ArgType) (view : ArrayView) :
    List (Except Error Value) :=
  (view.fields classes).map fun item => item.bind (element.build classes)

namespace ArgType

variable (classes : ClassReader) (element : ArgType) (view : ArrayView)

theorem build_growable : (growable element).build classes (.array view)
    = (Sequence.readAll (view.built classes element)).2.map .list := rfl

theorem build_fixed (size : Nat) : (fixed element size).build classes (.array view)
    = (Sequence.fixed size (element.blank classes.blank) (view.built classes element)).2.map .list := rfl

/-- If a growable sequence is built, a fixed one has its items in their places and blank ones in
the others. If it fails at an element, a fixed sequence that has a place for the element fails
alike, and one that has none is built from the elements in front of it. -/
theorem fixed_reads_what_growable_reads :
    (∀ value, (growable element).build classes (.array view) = .ok value → ∃ items,
      value = .list items ∧ ∀ size, (fixed element size).build classes (.array view)
        = .ok (.list ((List.range size).map fun i => items.getD i (element.blank classes.blank)))) ∧
    (∀ error, (growable element).build classes (.array view) = .error error → ∃ position items,
      Sequence.FailsAt (view.built classes element) position items error ∧ ∀ size,
        (position < size → (fixed element size).build classes (.array view) = .error error) ∧
        (size ≤ position → (fixed element size).build classes (.array view)
          = .ok (.list (items.take size)))) := by
  simp only [build_growable, build_fixed]
  constructor
  · intro value hvalue
    obtain ⟨items, hitems, rfl⟩ := map_eq_ok_iff.mp hvalue
    refine ⟨items, rfl, fun size => ?_⟩
    rw [Sequence.fixed_of_readAll hitems]
    rfl
  · intro error herror
    have hread : (Sequence.readAll (view.built classes element)).2 = .error error := by
      cases hresult : (Sequence.readAll (view.built classes element)).2 with
      | error found => simpa [hresult, Except.map] using herror
      | ok items => simp [hresult, Except.map] at herror
    obtain ⟨position, items, hfails⟩ := Sequence.exists_failsAt hread
    refine ⟨position, items, hfails, fun size => ⟨fun hsize => ?_, fun hsize => ?_⟩⟩
    · rw [Sequence.fixed_of_failsAt hfails hsize]
      rfl
    · have hlength : size - (items.take size).length = 0 := by
        have hitems := hfails.length_eq
        simp only [List.length_take]
        omega
      rw [Sequence.fixed_of_take_eq (hfails.take_eq hsize), hlength, List.replicate_zero,
        List.append_nil]
      rfl

/-- One truth value fills the first of three places. Of `[true,f,"x"]` two places can be filled, and
a third one meets the text that is no truth value. -/
theorem flags_read_up_to_size :
    (fixed (.scalar .bool) 3).build noClasses (.array (flagArray "[true]"))
      = .ok (.list [.scalar (.bool true), .scalar (.bool false), .scalar (.bool false)]) ∧
    ∃ error, (growable (.scalar .bool)).build noClasses (.array (flagArray "[true,f,\"x\"]"))
        = .error error ∧
      (fixed (.scalar .bool) 3).build noClasses (.array (flagArray "[true,f,\"x\"]")) = .error error ∧
      (fixed (.scalar .bool) 2).build noClasses (.array (flagArray "[true,f,\"x\"]"))
        = .ok (.list [.scalar (.bool true), .scalar (.bool false)]) := by
  have hone := fixed_reads_what_growable_reads noClasses (.scalar .bool) (flagArray "[true]")
  have hthree := fixed_reads_what_growable_reads noClasses (.scalar .bool) (flagArray "[true,f,\"x\"]")
  obtain ⟨items, hitems, hfixed⟩ := hone.1 (.list [.scalar (.bool true)]) rfl
  obtain ⟨position, front, hfails, hsizes⟩ := hthree.2 _ rfl
  cases hitems
  have hthird : Sequence.FailsAt ((flagArray "[true,f,\"x\"]").built noClasses (.scalar .bool)) 2
      [.scalar (.bool true), .scalar (.bool false)] _ := ⟨rfl, rfl⟩
  obtain ⟨rfl, rfl⟩ := hthird.unique hfails
  exact ⟨hfixed 3, _, rfl, (hsizes 3).1 (by decide), (hsizes 2).2 (by decide)⟩

end ArgType

end SchemaJson
