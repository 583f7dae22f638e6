import Mathlib.Algebra.BigOperators.Group.List.Basic
import Mathlib.Algebra.GroupWithZero.Nat
import SchemaJson.Date.Calendar

/-! The calendar counts days in both directions alike: the date of a day counts back to the day,
and has a month and a day that the calendar knows. -/

namespace SchemaJson

namespace Calendar

theorem yearOf_spec (day : Int) :
    yearStart (yearOf day) ≤ day ∧ day < yearStart (yearOf day + 1) := by
  -- The mean length of a year is a little above the days from one start to the next.
  have hguess : yearStart (400 * day / 146097 - 1) ≤ day ∧
      day < yearStart (400 * day / 146097 + 2) := by
    simp only [yearStart]
    omega
  simp only [yearOf]
  split
  next h => exact ⟨hguess.1, by rwa [sub_add_cancel]⟩
  next h =>
    split
    next hlate => exact ⟨hlate, by rw [add_assoc]; exact hguess.2⟩
    next hearly => exact ⟨by omega, by omega⟩

theorem yearStart_succ (year : Int) :
    yearStart (year + 1) = yearStart year + (if isLeap year then 366 else 365) := by
  have hleap : isLeap year = true ↔ year % 4 = 0 ∧ (year % 100 ≠ 0 ∨ year % 400 = 0) := by
    simp [isLeap]
  simp only [yearStart]
  split
  next h =>
    have hyear := hleap.mp h
    omega
  next h =>
    have hyear := mt hleap.mpr h
    omega

theorem monthAndDay_spec {month days : Nat} {lengths : List Nat} (h : days < lengths.sum) :
    ∃ passed length day, lengths[passed]? = some length ∧
      monthAndDay month lengths days = (month + passed, day + 1) ∧ day < length ∧
      (lengths.take passed).sum + day = days := by
  induction lengths generalizing month days with
  | nil => simp at h
  | cons length lengths ih =>
    rw [monthAndDay]
    by_cases hdays : days < length
    · rw [if_pos hdays]
      exact ⟨0, length, days, rfl, rfl, hdays, by simp⟩
    · rw [if_neg hdays]
      rw [List.sum_cons] at h
      obtain ⟨passed, found, day, hfound, heq, hday, hsum⟩ := @ih (month + 1) (days - length) (by omega)
      refine ⟨passed + 1, found, day, hfound, ?_, hday, ?_⟩
      · rw [heq]
        congr 1
        omega
      · rw [List.take_succ_cons, List.sum_cons]
        omega

/-- A place in a list of lengths is known from the total in front of it. -/
theorem place_unique {lengths : List Nat} {passed passed' length length' day day' : Nat}
    (hlength : lengths[passed]? = some length) (hday : day < length)
    (hlength' : lengths[passed']? = some length') (hday' : day' < length')
    (h : (lengths.take passed).sum + day = (lengths.take passed').sum + day') :
    passed = passed' ∧ day = day' := by
  induction lengths generalizing passed passed' with
  | nil => simp at hlength
  | cons first lengths ih =>
    cases passed with
    | zero =>
      cases passed' with
      | zero => exact ⟨rfl, by simpa using h⟩
      | succ passed' =>
        obtain rfl : first = length := by simpa using hlength
        simp only [List.take_zero, List.sum_nil, List.take_succ_cons, List.sum_cons] at h
        omega
    | succ passed =>
      cases passed' with
      | zero =>
        obtain rfl : first = length' := by simpa using hlength'
        simp only [List.take_zero, List.sum_nil, List.take_succ_cons, List.sum_cons] at h
        omega
      | succ passed' =>
        simp only [List.take_succ_cons, List.sum_cons] at h
        obtain ⟨hpassed, hsame⟩ := ih (by simpa using hlength) (by simpa using hlength') (by omega)
        exact ⟨congrArg Nat.succ hpassed, hsame⟩

theorem sum_take_lt {lengths : List Nat} {passed length day : Nat}
    (hlength : lengths[passed]? = some length) (hday : day < length) :
    (lengths.take passed).sum + day < lengths.sum := by
  obtain ⟨hpassed, rfl⟩ := List.getElem?_eq_some_iff.mp hlength
  rw [← List.sum_take_add_sum_drop lengths passed, List.drop_eq_getElem_cons hpassed, List.sum_cons]
  omega

theorem yearStart_le {year later : Int} (h : year < later) :
    yearStart (year + 1) ≤ yearStart later := by
  simp only [yearStart]
  omega

theorem yearOf_eq {day year : Int} (hlow : yearStart year ≤ day) (hhigh : day < yearStart (year + 1)) :
    yearOf day = year := by
  obtain ⟨hlow', hhigh'⟩ := yearOf_spec day
  by_contra hne
  rcases Int.lt_or_gt_of_ne hne with hlt | hgt
  · have hle := yearStart_le hlt
    omega
  · have hle := yearStart_le hgt
    omega

theorem sum_monthLengths (leap : Bool) :
    (monthLengths leap).sum = if leap then 366 else 365 := by
  cases leap <;> rfl

end Calendar

namespace CalendarDate

open Calendar

/-- The date of a day, as the place of the day in its year. -/
theorem ofDays_spec (days : Int) :
    ∃ passed length day, (monthLengths (isLeap (ofDays days).year))[passed]? = some length ∧
      (ofDays days).month = passed + 1 ∧ (ofDays days).day = day + 1 ∧ day < length ∧
      yearStart (ofDays days).year + ((monthLengths (isLeap (ofDays days).year)).take passed).sum + day
        = days + epochDay := by
  obtain ⟨hlow, hhigh⟩ := yearOf_spec (days + epochDay)
  have hyear : (ofDays days).year = yearOf (days + epochDay) := rfl
  rw [hyear]
  generalize hstart : yearOf (days + epochDay) = year at *
  rw [yearStart_succ] at hhigh
  have hsum := sum_monthLengths (isLeap year)
  have hlt : (days + epochDay - yearStart year).toNat < (monthLengths (isLeap year)).sum := by
    split at hhigh <;> split at hsum <;> omega
  obtain ⟨passed, length, day, hlength, hspec, hday, htotal⟩ := @monthAndDay_spec 1 _ _ hlt
  refine ⟨passed, length, day, hlength, ?_, ?_, hday, ?_⟩
  · simp only [ofDays, hstart, hspec]
    omega
  · simp only [ofDays, hstart, hspec]
  · omega

/-- The date of a day counts back to the day. -/
theorem toDays_ofDays (days : Int) : (ofDays days).toDays = days := by
  obtain ⟨passed, length, day, -, hmonth, hday, -, htotal⟩ := ofDays_spec days
  have hfold (lengths : List Nat) : lengths.foldl (· + ·) 0 = lengths.sum :=
    (List.sum_eq_foldl).symm
  simp only [toDays, hmonth, hday, Nat.add_sub_cancel, hfold]
  generalize ((monthLengths (isLeap (ofDays days).year)).take passed).sum = before at *
  omega

/-- The calendar has the month, and the month has the day. -/
def IsOnCalendar (date : CalendarDate) : Prop :=
  1 ≤ date.month ∧ 1 ≤ date.day ∧
    ∃ length, (monthLengths (isLeap date.year))[date.month - 1]? = some length ∧ date.day ≤ length

theorem isOnCalendar_ofDays (days : Int) : (ofDays days).IsOnCalendar := by
  obtain ⟨passed, length, day, hlength, hmonth, hday, hlt, -⟩ := ofDays_spec days
  rw [IsOnCalendar, hmonth, hday]
  exact ⟨by omega, by omega, length, by rwa [Nat.add_sub_cancel], hlt⟩

/-- No other date counts the same days. -/
theorem IsOnCalendar.ofDays_toDays {date : CalendarDate} (h : date.IsOnCalendar) :
    ofDays date.toDays = date := by
  obtain ⟨hmonth, hday, length, hlength, hlast⟩ := h
  have hdays : date.toDays + epochDay = yearStart date.year
      + ((monthLengths (isLeap date.year)).take (date.month - 1)).sum + (date.day - 1 : Nat) := by
    simp only [toDays, ← List.sum_eq_foldl]
    omega
  have hfits := sum_take_lt hlength (show date.day - 1 < length by omega)
  rw [sum_monthLengths] at hfits
  have hyear : (ofDays date.toDays).year = date.year := by
    show yearOf (date.toDays + epochDay) = date.year
    refine yearOf_eq (by omega) ?_
    rw [yearStart_succ]
    split
    next h =>
      rw [if_pos h] at hfits
      omega
    next h =>
      rw [if_neg h] at hfits
      omega
  obtain ⟨passed, length', day, hlength', hmonth', hday', hlt, htotal⟩ := ofDays_spec date.toDays
  rw [hyear] at hlength' htotal
  obtain ⟨hpassed, hsame⟩ := place_unique hlength' hlt hlength (show date.day - 1 < length by omega)
    (by omega)
  have hmonths : (ofDays date.toDays).month = date.month := by omega
  have hdaysOfMonth : (ofDays date.toDays).day = date.day := by omega
  generalize ofDays date.toDays = found at *
  obtain ⟨year, month, day⟩ := date
  cases hyear
  cases hmonths
  cases hdaysOfMonth
  rfl

theorem isValid_ofDays {days : Int} (hlow : leastYear ≤ (ofDays days).year)
    (hhigh : (ofDays days).year ≤ greatestYear) : (ofDays days).isValid = true := by
  obtain ⟨passed, length, day, hlength, hmonth, hday, hlt, -⟩ := ofDays_spec days
  have hpassed : passed < 12 := (List.getElem?_eq_some_iff.mp hlength).1
  simp only [isValid, hlow, hhigh, hmonth, hday, Nat.add_sub_cancel, hlength, Option.getD_some]
  simp
  omega

theorem length_le_of_monthLengths {leap : Bool} {length : Nat} (h : length ∈ monthLengths leap) :
    length ≤ 31 := by
  revert h
  cases leap <;> revert length <;> simp [monthLengths]

theorem ofDays_lt (days : Int) : (ofDays days).month < 100 ∧ (ofDays days).day < 100 := by
  obtain ⟨passed, length, day, hlength, hmonth, hday, hlt, -⟩ := ofDays_spec days
  have hpassed : passed < 12 := (List.getElem?_eq_some_iff.mp hlength).1
  have hshort := length_le_of_monthLengths (List.mem_of_getElem? hlength)
  omega

end CalendarDate

end SchemaJson
