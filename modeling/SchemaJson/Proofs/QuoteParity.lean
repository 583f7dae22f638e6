import Mathlib.Algebra.Group.Nat.Even
import SchemaJson.Json.Scan

/-! Where a string ends, told from the bytes around a quote alone: the first quote that an even number
of backslashes stands in front of. -/

namespace SchemaJson

/-- How many backslashes stand directly in front of the index. -/
def backslashesBefore (text : Bytes) (index : Nat) : Nat :=
  ((text.take index).reverse.takeWhile (· == Ascii.backslash)).length

/-- The byte is a quote, and the backslashes in front of it pair up. -/
structure IsBareQuote (text : Bytes) (index : Nat) : Prop where
  quote : text[index]? = some Ascii.quote
  even : Even (backslashesBefore text index)

theorem backslashesBefore_succ {text : Bytes} {index : Nat} {byte : UInt8}
    (h : text[index]? = some byte) : backslashesBefore text (index + 1)
      = if byte = Ascii.backslash then backslashesBefore text index + 1 else 0 := by
  have htake : (text.take (index + 1)).reverse = byte :: (text.take index).reverse := by
    rw [List.take_add_one, h, List.reverse_append]
    rfl
  rw [backslashesBefore, htake]
  split
  next hbackslash =>
    rw [List.takeWhile_cons_of_pos (by simpa using hbackslash)]
    rfl
  next hother =>
    rw [List.takeWhile_cons_of_neg (by simpa using hother)]
    rfl

/-- The index is that of the first bare quote from a place on, or there is none from there on. -/
def IsFirstBareQuote (text : Bytes) (place : Nat) : Option Nat → Prop
  | some index => place ≤ index ∧ IsBareQuote text index ∧
      ∀ other, place ≤ other → other < index → ¬ IsBareQuote text other
  | none => ∀ other, place ≤ other → ¬ IsBareQuote text other

theorem IsFirstBareQuote.of_succ {text : Bytes} {place : Nat} {found : Option Nat}
    (h : IsFirstBareQuote text (place + 1) found) (hplace : ¬ IsBareQuote text place) :
    IsFirstBareQuote text place found := by
  have hsplit {other : Nat} (hother : place ≤ other) : other = place ∨ place + 1 ≤ other := by omega
  cases found with
  | none =>
    intro other hother
    rcases hsplit hother with rfl | hnext
    · exact hplace
    · exact h other hnext
  | some index =>
    obtain ⟨hindex, hbare, hfirst⟩ := h
    refine ⟨Nat.le_of_succ_le hindex, hbare, fun other hother hlt => ?_⟩
    rcases hsplit hother with rfl | hnext
    · exact hplace
    · exact hfirst other hnext hlt

/-- By induction on the bytes ahead. A byte counts as escaped exactly where an odd number of
backslashes stands in front of it, which each step keeps. -/
theorem isFirstBareQuote_unescapedQuoteFrom {text ahead : Bytes} {place : Nat} {escaped : Bool}
    (hahead : text.drop place = ahead)
    (hescaped : escaped = true ↔ ¬ Even (backslashesBefore text place)) :
    IsFirstBareQuote text place (unescapedQuoteFrom escaped place ahead) := by
  induction ahead generalizing place escaped with
  | nil =>
    intro other hother hbare
    have hlength : text.length ≤ other := Nat.le_trans (List.drop_eq_nil_iff.mp hahead) hother
    have hquote := hbare.quote
    rw [List.getElem?_eq_none hlength] at hquote
    cases hquote
  | cons byte ahead ih =>
    have hbyte : text[place]? = some byte := by
      rw [← List.head?_drop, hahead]
      rfl
    have hnext : text.drop (place + 1) = ahead := by
      rw [← List.drop_drop, hahead]
      rfl
    have hrun := backslashesBefore_succ hbyte
    cases escaped with
    | true =>
      have hodd := hescaped.mp rfl
      refine .of_succ (ih hnext ?_) fun hbare => hodd hbare.even
      rw [hrun]
      split_ifs
      · simpa [Nat.even_add_one] using hodd
      · simp
    | false =>
      have heven : Even (backslashesBefore text place) := by simpa using hescaped
      rw [unescapedQuoteFrom]
      split
      next hquote =>
        refine ⟨le_rfl, ⟨hquote ▸ hbyte, heven⟩, fun other hother hlt => ?_⟩
        exact absurd hother (Nat.not_le_of_lt hlt)
      next hquote =>
        refine .of_succ (ih hnext ?_) fun hbare => hquote ?_
        · rw [hrun, beq_iff_eq]
          split_ifs with hbackslash
          · simpa [hbackslash, Nat.even_add_one] using heven
          · simp [hbackslash]
        · exact Option.some.inj (hbyte.symm.trans hbare.quote)

/-- The search for the end of a string finds the first quote that stands behind an even number of
backslashes, and nothing exactly where there is no such quote. -/
theorem unescapedQuote?_is_first_bare_quote (text : Bytes) :
    (∀ index, unescapedQuote? text = some index ↔
      IsBareQuote text index ∧ ∀ other < index, ¬ IsBareQuote text other) ∧
    (unescapedQuote? text = none ↔ ∀ index, ¬ IsBareQuote text index) := by
  have hfirst : IsFirstBareQuote text 0 (unescapedQuote? text) :=
    isFirstBareQuote_unescapedQuoteFrom List.drop_zero (by simp [backslashesBefore])
  rcases hfound : unescapedQuote? text with _ | found
  · rw [hfound] at hfirst
    have hnone (index : Nat) : ¬ IsBareQuote text index := hfirst index (Nat.zero_le index)
    exact ⟨fun index => ⟨nofun, fun hbare => absurd hbare.1 (hnone index)⟩, fun _ => hnone,
      fun _ => rfl⟩
  · rw [hfound] at hfirst
    obtain ⟨-, hbare, hleast⟩ := hfirst
    refine ⟨fun index => ⟨?_, ?_⟩, nofun, fun hnone => absurd hbare (hnone found)⟩
    · rintro ⟨⟩
      exact ⟨hbare, fun other hlt => hleast other (Nat.zero_le other) hlt⟩
    · rintro ⟨hother, hnone⟩
      rcases Nat.lt_trichotomy index found with hlt | rfl | hlt
      · exact absurd hother (hleast index (Nat.zero_le index) hlt)
      · rfl
      · exact absurd hbare (hnone found hlt)

/-- An escaped quote is passed over, and a quote behind a pair of backslashes is not. -/
theorem quote_behind_pair_found :
    IsBareQuote (Bytes.ofString "\\\"\\\\\"") 4 ∧
      ∀ other < 4, ¬ IsBareQuote (Bytes.ofString "\\\"\\\\\"") other :=
  ((unescapedQuote?_is_first_bare_quote _).1 4).mp (by decide)

end SchemaJson
