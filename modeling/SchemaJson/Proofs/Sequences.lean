import Mathlib.Data.List.Forall2
import SchemaJson.Json.Build

/-! Sequences that are built from elements which may have failed. Whatever goes through has met
no failure. -/

namespace SchemaJson

variable {α β γ : Type}

theorem bind_eq_ok_iff {result : Except Error α} {next : α → Except Error β} {b : β} :
    (result >>= next) = .ok b ↔ ∃ a, result = .ok a ∧ next a = .ok b := by
  cases result with
  | error error =>
    constructor
    · intro h
      cases h
    · rintro ⟨a, h, -⟩
      cases h
  | ok a =>
    constructor
    · exact fun h => ⟨a, rfl, h⟩
    · rintro ⟨a, h, hnext⟩
      cases h
      exact hnext

theorem map_eq_ok_iff {result : Except Error α} {f : α → β} {b : β} :
    result.map f = .ok b ↔ ∃ a, result = .ok a ∧ f a = b := by
  cases result <;> simp [Except.map]

/-- Each result of a walk that went through is the result of one of the steps. -/
theorem mem_of_mapM_eq_ok {f : α → Except Error β} {items : List α} {results : List β}
    (h : items.mapM f = .ok results) : ∀ b ∈ results, ∃ a ∈ items, f a = .ok b := by
  induction items generalizing results with
  | nil =>
    cases h
    simp
  | cons item items ih =>
    rw [List.mapM_cons] at h
    obtain ⟨first, hfirst, h⟩ := bind_eq_ok_iff.mp h
    obtain ⟨rest, hrest, h⟩ := bind_eq_ok_iff.mp h
    cases h
    refine List.forall_mem_cons.mpr ⟨⟨item, by simp, hfirst⟩, fun b hb => ?_⟩
    obtain ⟨a, ha, hab⟩ := ih hrest b hb
    exact ⟨a, by simp [ha], hab⟩

theorem getElem?_of_mapM_eq_ok {f : α → Except Error β} {items : List α} {results : List β}
    {position : Nat} {a : α} (h : items.mapM f = .ok results) (ha : items[position]? = some a) :
    ∃ b, results[position]? = some b ∧ f a = .ok b := by
  induction items generalizing results position with
  | nil => cases ha
  | cons item items ih =>
    rw [List.mapM_cons] at h
    obtain ⟨first, hfirst, h⟩ := bind_eq_ok_iff.mp h
    obtain ⟨rest, hrest, h⟩ := bind_eq_ok_iff.mp h
    cases h
    cases position with
    | zero =>
      cases ha
      exact ⟨first, rfl, hfirst⟩
    | succ position =>
      rw [List.getElem?_cons_succ] at ha ⊢
      exact ih hrest ha

namespace Sequence

theorem readAll_eq_ok_iff {items : List (Except Error α)} {list : List α} :
    (readAll items).2 = .ok list ↔ items = list.map .ok := by
  induction items generalizing list with
  | nil => cases list <;> simp [readAll]
  | cons item items ih =>
    cases item with
    | error error => cases list <;> simp [readAll]
    | ok a =>
      simp only [readAll]
      cases hrest : (readAll items).2 with
      | error error =>
        cases list with
        | nil => simp [Except.map]
        | cons b list =>
          have hne : items ≠ list.map .ok := fun h => by
            rw [← ih, hrest] at h
            cases h
          simp [Except.map, hne]
      | ok found =>
        have hfound (list : List α) : found = list ↔ items = list.map .ok := by
          rw [← ih, hrest, Except.ok.injEq]
        cases list with
        | nil => simp [Except.map]
        | cons b list => simp [Except.map, ← hfound]

theorem ok_mem_of_readAll {items : List (Except Error α)} {list : List α} {a : α}
    (h : (readAll items).2 = .ok list) (ha : a ∈ list) : .ok a ∈ items := by
  rw [readAll_eq_ok_iff.mp h]
  exact List.mem_map_of_mem ha

end Sequence

namespace ArrayView

theorem untilError_eq_map_ok_iff {items : List (Except Error α)} {list : List α} :
    untilError items = list.map .ok ↔ items = list.map .ok := by
  induction items generalizing list with
  | nil => rfl
  | cons item items ih =>
    cases item with
    | error error =>
      cases list <;> simp [untilError]
    | ok a =>
      cases list with
      | nil => simp [untilError]
      | cons b list => simp [untilError, ih]

end ArrayView

/-- What goes through after a further step has gone through before it. -/
theorem exists_of_map_bind_eq_map_ok {items : List (Except Error α)} {f : α → Except Error β}
    {list : List β} (h : items.map (·.bind f) = list.map .ok) :
    ∃ found : List α, items = found.map .ok ∧ found.map f = list.map .ok := by
  induction items generalizing list with
  | nil => exact ⟨[], rfl, h⟩
  | cons item items ih =>
    cases list with
    | nil => cases h
    | cons b list =>
      obtain ⟨hhead, htail⟩ := List.cons.inj h
      obtain ⟨found, rfl, hfound⟩ := ih htail
      cases item with
      | error error => cases hhead
      | ok a => exact ⟨a :: found, rfl, by rw [List.map_cons, List.map_cons, hfound, ← hhead]; rfl⟩

theorem toOption_bind (result : Except Error α) (next : α → Except Error β) :
    (result >>= next).toOption = result.toOption >>= fun a => (next a).toOption := by
  cases result <;> rfl

theorem toOption_map (result : Except Error α) (f : α → β) :
    (result.map f).toOption = result.toOption.map f := by
  cases result <;> rfl

theorem toOption_eq_some_iff {result : Except Error α} {a : α} :
    result.toOption = some a ↔ result = .ok a := by
  cases result <;> simp [Except.toOption]

theorem toOption_eq_none {result : Except Error α} (h : ∀ a, result ≠ .ok a) :
    result.toOption = none := by
  cases result with
  | error error => rfl
  | ok a => exact absurd rfl (h a)

/-- Reading a list element by element goes as far as its elements do. -/
theorem toOption_readAll (read : γ → Except Error α) (build : α → Except Error β)
    (list : List γ) :
    (Sequence.readAll ((ArrayView.untilError (list.map read)).map (·.bind build))).2.toOption
      = list.mapM fun c => ((read c).bind build).toOption := by
  induction list with
  | nil => rfl
  | cons c list ih =>
    rw [List.map_cons, List.mapM_cons]
    cases hread : read c with
    | error error => rfl
    | ok a =>
      have hhead : (Except.ok a : Except Error α).bind build = build a := rfl
      rw [ArrayView.untilError, List.map_cons, hhead]
      cases hbuild : build a with
      | error error => rfl
      | ok b =>
        show ((Sequence.readAll _).2.map (b :: ·)).toOption = _
        rw [toOption_map, ih]
        cases list.mapM fun c => ((read c).bind build).toOption <;> rfl

theorem take_untilError (n : Nat) (items : List (Except Error α)) :
    (ArrayView.untilError items).take n = ArrayView.untilError (items.take n) := by
  induction items generalizing n with
  | nil => simp [ArrayView.untilError]
  | cons item items ih =>
    cases n with
    | zero => simp [ArrayView.untilError]
    | succ n => cases item <;> simp [ArrayView.untilError, ih]

theorem mapM_congr_of_forall₂ {f : α → Option γ} {g : β → Option γ} {first : List α}
    {second : List β} (h : List.Forall₂ (fun a b => f a = g b) first second) :
    first.mapM f = second.mapM g := by
  induction h with
  | nil => rfl
  | cons hhead _ ih => rw [List.mapM_cons, List.mapM_cons, hhead, ih]

end SchemaJson
