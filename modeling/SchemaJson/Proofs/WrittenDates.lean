import SchemaJson.Proofs.EscapedText
import SchemaJson.Proofs.ReadScalars

/-! Which moments are read back from what is written of them. A year of four digits is written plainly
and read back with its offset, and a leap second has a text of its own behind the last second of a
minute only. Any other year is written with a sign, which the form with an offset does not allow, and
the forms without one leave the offset over. -/

namespace SchemaJson

def IsAsciiText (text : Bytes) : Prop := ∀ byte ∈ text, isAscii byte = true

namespace Text

theorem firstChar?_of_isAscii {byte : UInt8} (h : isAscii byte = true) (rest : Bytes) :
    Bytes.firstChar? (byte :: rest) = some (Char.ofNat byte.toNat) := by
  have hbits : ∀ bits : BitVec 8, isAscii ⟨bits⟩ = true →
      [(⟨bits⟩ : UInt8)] = String.utf8EncodeChar (Char.ofNat (⟨bits⟩ : UInt8).toNat) := by
    decide
  have hencode := hbits byte.toBitVec h
  have htake : (byte :: rest).take 4
      = String.utf8EncodeChar (Char.ofNat byte.toNat) ++ rest.take 3 := by
    rw [← hencode]
    simp
  rw [Bytes.firstChar?, htake, List.toByteArray_append]
  exact ByteArray.utf8DecodeChar?_utf8EncodeChar_append

/-- Every byte that is dropped from the front of an ASCII text is a white space of its own. -/
theorem dropWhiteSpace_of_isAsciiText {text : Bytes} (h : IsAsciiText text) :
    dropWhiteSpace text = text.dropWhile fun byte => isWhiteSpace (Char.ofNat byte.toNat) := by
  induction text with
  | nil => rfl
  | cons byte rest ih =>
    obtain ⟨hbyte, hrest⟩ := List.forall_mem_cons.mp h
    have hsize : (Char.ofNat byte.toNat).utf8Size = 1 := by
      have hbits : ∀ bits : BitVec 8, isAscii ⟨bits⟩ = true →
          (Char.ofNat (⟨bits⟩ : UInt8).toNat).utf8Size = 1 := by
        decide
      exact hbits byte.toBitVec hbyte
    have hdrop : dropWhiteSpace (byte :: rest) =
        if isWhiteSpace (Char.ofNat byte.toNat) then dropWhiteSpace rest else byte :: rest := by
      simp only [dropWhiteSpace, dropWhiteSpaceFrom, firstChar?_of_isAscii hbyte, hsize, Nat.sub_self]
    rw [hdrop, List.dropWhile_cons, ih hrest]

end Text

namespace Reader

variable {α β : Type} {byte : UInt8}

/-- What the reader takes from the front of an ASCII text has no such byte. -/
def Spares (byte : UInt8) (reader : Reader α) : Prop :=
  ∀ text a rest, IsAsciiText text → reader text = some (a, rest) →
    ∃ taken, text = taken ++ rest ∧ byte ∉ taken

theorem Spares.bind {reader : Reader α} {next : α → Reader β} (h : reader.Spares byte)
    (hnext : ∀ a, (next a).Spares byte) : (reader >>= next).Spares byte := by
  intro text b rest hascii hread
  obtain ⟨a, middle, hfirst, hsecond⟩ := bind_eq_some.mp hread
  obtain ⟨taken, rfl, htaken⟩ := h text a middle hascii hfirst
  have hmiddle : IsAsciiText middle := fun other hmem => hascii other (by simp [hmem])
  obtain ⟨more, rfl, hmore⟩ := hnext a middle b rest hmiddle hsecond
  exact ⟨taken ++ more, by simp, by simp [htaken, hmore]⟩

theorem Spares.pure (a : α) : (Pure.pure a : Reader α).Spares byte := by
  intro text b rest _ hread
  have heq := pure_eq_some.mp hread
  exact ⟨[], by simp [(Prod.mk.inj heq).2], by simp⟩

theorem Spares.map {reader : Reader α} (h : reader.Spares byte) (f : α → β) :
    (f <$> reader).Spares byte := by
  rw [map_eq_pure_bind]
  exact h.bind fun a => .pure (f a)

theorem Spares.failure : (Alternative.failure : Reader α).Spares byte := by
  intro text a rest _ hread
  cases hread

/-- A reader that looks ahead before it reads spares what each of its cases does. -/
theorem Spares.of_eq {reader : Reader α}
    (h : ∀ text, ∃ other : Reader α, other.Spares byte ∧ reader text = other text) :
    reader.Spares byte := by
  intro text a rest hascii hread
  obtain ⟨other, hother, heq⟩ := h text
  exact hother text a rest hascii (heq ▸ hread)

theorem Spares.one {mark : UInt8} (h : mark ≠ byte) : (one mark).Spares byte := by
  intro text a rest _ hread
  cases text with
  | nil => simp [Reader.one] at hread
  | cons first text =>
    by_cases hfirst : first = mark
    · simp only [Reader.one, hfirst, if_true, Option.some.injEq, Prod.mk.injEq, true_and] at hread
      exact ⟨[mark], by simp [hfirst, hread], by simpa using h.symm⟩
    · simp [Reader.one, hfirst] at hread

theorem notMem_of_isDigit {digits : Bytes} (hbyte : isDigit byte = false)
    (h : ∀ digit ∈ digits, isDigit digit = true) : byte ∉ digits := by
  intro hmem
  have hdigit := h byte hmem
  simp [hbyte] at hdigit

theorem Spares.number (hbyte : isDigit byte = false) (least most : Nat) :
    (number least most).Spares byte := by
  intro text n rest _ hread
  have hdigits : ∀ digit ∈ (text.take most).takeWhile isDigit, isDigit digit = true :=
    fun digit hmem => List.mem_takeWhile_imp hmem
  have hfront : (text.take most).takeWhile isDigit <+: text :=
    (List.takeWhile_prefix _).trans (List.take_prefix _ _)
  simp only [Reader.number] at hread
  generalize (text.take most).takeWhile isDigit = digits at hread hdigits hfront
  obtain ⟨behind, rfl⟩ := hfront
  split at hread
  · simp only [Option.some.injEq, Prod.mk.injEq, List.drop_left] at hread
    exact ⟨digits, by rw [hread.2], notMem_of_isDigit hbyte hdigits⟩
  · simp at hread

theorem Spares.fraction (hbyte : isDigit byte = false) (hpoint : Ascii.point ≠ byte) :
    fraction.Spares byte := by
  intro text n rest _ hread
  cases text with
  | nil =>
    simp only [Reader.fraction, Option.some.injEq, Prod.mk.injEq] at hread
    exact ⟨[], by simp [hread.2], by simp⟩
  | cons first text =>
    by_cases hfirst : first = Ascii.point
    · have hdigits : ∀ digit ∈ text.takeWhile isDigit, isDigit digit = true :=
        fun digit hmem => List.mem_takeWhile_imp hmem
      have hspared := notMem_of_isDigit hbyte hdigits
      simp only [Reader.fraction, hfirst, if_true, nanos] at hread
      split at hread
      · simp at hread
      · simp only [Option.some.injEq, Prod.mk.injEq] at hread
        refine ⟨Ascii.point :: text.takeWhile isDigit, ?_, by simp [hpoint.symm, hspared]⟩
        rw [hfirst, ← hread.2, List.cons_append, List.takeWhile_append_dropWhile]
    · simp only [Reader.fraction, hfirst, if_false, Option.some.injEq, Prod.mk.injEq] at hread
      exact ⟨[], by simp [hread.2], by simp⟩

theorem Spares.whiteSpace (hbyte : Text.isWhiteSpace (Char.ofNat byte.toNat) = false) :
    whiteSpace.Spares byte := by
  intro text u rest hascii hread
  simp only [Reader.whiteSpace, Option.some.injEq, Prod.mk.injEq,
    Text.dropWhiteSpace_of_isAsciiText hascii] at hread
  refine ⟨text.takeWhile fun byte => Text.isWhiteSpace (Char.ofNat byte.toNat), ?_, ?_⟩
  · rw [← hread.2, List.takeWhile_append_dropWhile]
  · intro hmem
    have hspace := List.mem_takeWhile_imp hmem
    simp [hbyte] at hspace

/-- Text that is left over keeps a reader from having read all of it. -/
theorem Spares.all_eq_none {reader : Reader α} (h : reader.Spares byte) {text : Bytes}
    (hascii : IsAsciiText text) (hmem : byte ∈ text) : reader.all text = none := by
  by_contra hread
  obtain ⟨a, hall⟩ := Option.ne_none_iff_exists'.mp hread
  obtain ⟨taken, htext, htaken⟩ := h text a [] hascii (all_eq_some.mp hall)
  rw [htext, List.append_nil] at hmem
  exact htaken hmem

end Reader

namespace Instant

open Reader

/-- The mark of universal time, which the forms without an offset never take. -/
def universalMark : UInt8 := 0x5a

theorem spares_spacedNumber (most : Nat) : (spacedNumber most).Spares universalMark :=
  (Spares.whiteSpace rfl).bind fun _ => .number rfl 1 most

theorem spares_spacedYear : spacedYear.Spares universalMark := by
  refine (Spares.whiteSpace rfl).bind fun _ => Spares.of_eq fun text => ?_
  have hnumber (most : Nat) (f : Nat → Int) : (f <$> number 1 most).Spares universalMark :=
    (Spares.number rfl 1 most).map f
  have hsigned (mark : UInt8) (hmark : mark ≠ universalMark) (most : Nat) (f : Nat → Int) :
      (one mark >>= fun _ => f <$> number 1 most).Spares universalMark :=
    (Spares.one hmark).bind fun _ => hnumber most f
  cases text with
  | nil => exact ⟨failure, Spares.failure, rfl⟩
  | cons first text =>
    by_cases hminus : first = Ascii.minus
    · subst hminus
      exact ⟨_, hsigned Ascii.minus (by decide) text.length fun n => -(n : Int), rfl⟩
    · by_cases hplus : first = Ascii.plus
      · subst hplus
        exact ⟨_, hsigned Ascii.plus (by decide) text.length fun n => (n : Int), rfl⟩
      · refine ⟨_, hnumber 4 fun n => (n : Int), ?_⟩
        show (if first = Ascii.minus then _ else if first = Ascii.plus then _ else _ : Reader Int) _ = _
        rw [if_neg hminus, if_neg hplus]
        rfl

theorem spares_spacedDate : spacedDate.Spares universalMark :=
  spares_spacedYear.bind fun _ => (Spares.one (by decide)).bind fun _ =>
    (spares_spacedNumber 2).bind fun _ => (Spares.one (by decide)).bind fun _ =>
    (spares_spacedNumber 2).bind fun _ => .pure _

theorem spares_spacedTime {middle : Reader Unit} (h : middle.Spares universalMark) :
    (spacedTime middle).Spares universalMark :=
  spares_spacedDate.bind fun _ => h.bind fun _ => (spares_spacedNumber 2).bind fun _ =>
    (Spares.one (by decide)).bind fun _ => (spares_spacedNumber 2).bind fun _ =>
    (Spares.one (by decide)).bind fun _ => (spares_spacedNumber 2).bind fun _ =>
    (Spares.fraction rfl (by decide)).bind fun _ => .pure _

theorem readUniversal_eq_none {middle : Reader Unit} (h : middle.Spares universalMark) {text : Bytes}
    (hascii : IsAsciiText text) (hmark : universalMark ∈ text) : readUniversal middle text = none := by
  have hall := (spares_spacedTime h).all_eq_none hascii hmark
  simp [readUniversal, hall]

theorem readDay_eq_none {text : Bytes} (hascii : IsAsciiText text) (hmark : universalMark ∈ text) :
    readDay text = none := by
  have hall := spares_spacedDate.all_eq_none hascii hmark
  simp [readDay, hall]

/-- The form with an offset starts with a digit. -/
theorem readWithOffset_eq_none {first : UInt8} {text : Bytes} (h : isDigit first = false) :
    readWithOffset (first :: text) = none := by
  have hyear : number 4 4 (first :: text) = none := by simp [number, h]
  have hwhole : withOffset (first :: text) = none := by
    show (number 4 4 (first :: text)).bind _ = none
    rw [hyear]
    rfl
  simp [readWithOffset, Reader.all, hwhole]

theorem exists_sign_of_write {instant : Instant}
    (h : ¬ (0 ≤ instant.date.year ∧ instant.date.year ≤ 9999)) :
    ∃ sign text, instant.write = sign :: text ∧ isDigit sign = false := by
  have hyear : ∃ sign digits, writeYear instant.date.year = sign :: digits ∧ isDigit sign = false := by
    rw [writeYear, if_neg h]
    by_cases hnegative : instant.date.year < 0
    · exact ⟨Ascii.minus, _, by rw [if_pos hnegative], rfl⟩
    · exact ⟨Ascii.plus, _, by rw [if_neg hnegative], rfl⟩
  obtain ⟨sign, digits, hdigits, hsign⟩ := hyear
  have hfront : writeYear instant.date.year <+: instant.write := by simp [write]
  obtain ⟨behind, hbehind⟩ := hfront
  exact ⟨sign, digits ++ behind, by rw [← hbehind, hdigits, List.cons_append], hsign⟩

theorem universalMark_mem_write (instant : Instant) : universalMark ∈ instant.write := by
  simp [write, universalMark]

theorem isAsciiText_write (instant : Instant) : IsAsciiText instant.write :=
  fun byte hmem => (isUnescaped_write instant byte hmem).2

/-- A moment in any other year is written in none of the forms that are read. -/
theorem read_write_eq_none {instant : Instant}
    (h : ¬ (0 ≤ instant.date.year ∧ instant.date.year ≤ 9999)) : read instant.write = none := by
  have hascii := isAsciiText_write instant
  have hmark := universalMark_mem_write instant
  have hoffset : readWithOffset instant.write = none := by
    obtain ⟨sign, text, htext, hsign⟩ := exists_sign_of_write h
    rw [htext]
    exact readWithOffset_eq_none hsign
  have hletter : (one 0x54).Spares universalMark := Spares.one (by decide)
  have hnaive := readUniversal_eq_none hletter hascii hmark
  have hspaced := readUniversal_eq_none (Spares.whiteSpace rfl) hascii hmark
  have hday := readDay_eq_none hascii hmark
  simp [read, hoffset, hnaive, hspaced, hday]

/-- A leap second in the middle of a minute is written as the second after. -/
theorem leap_inside_minute_not_read_back :
    let leap : Instant := ⟨4, 1333333333⟩
    leap.write = Bytes.ofString "1970-01-01T00:00:05.333333333Z" ∧
      read leap.write = some ⟨5, 333333333⟩ ∧
      ¬ (read leap.write = some leap ↔ 0 ≤ leap.date.year ∧ leap.date.year ≤ 9999) := by
  decide +kernel

/-- A moment is read back as it was written exactly if its year has four digits and a leap second
stands behind the last second of its minute. Behind any other second it is read as the second after
that, and what is written of a moment in any other year is not read at all. -/
theorem written_moment_read_back_iff {instant : Instant}
    (hnanos : instant.nanos < 2 * nanosPerSecond) :
    (read instant.write = some instant ↔ (0 ≤ instant.date.year ∧ instant.date.year ≤ 9999) ∧
      (nanosPerSecond ≤ instant.nanos → instant.secondOfDay % 60 = 59)) ∧
    (0 ≤ instant.date.year ∧ instant.date.year ≤ 9999 → nanosPerSecond ≤ instant.nanos →
      instant.secondOfDay % 60 ≠ 59 →
      read instant.write = some ⟨instant.seconds + 1, instant.nanos - nanosPerSecond⟩) ∧
    (¬ (0 ≤ instant.date.year ∧ instant.date.year ≤ 9999) → read instant.write = none) := by
  refine ⟨⟨fun hread => ?_, fun ⟨hyear, hleap⟩ => ?_⟩, fun hyear hlate hlast => ?_,
    read_write_eq_none⟩
  · have hyear : 0 ≤ instant.date.year ∧ instant.date.year ≤ 9999 := by
      by_contra hyear
      rw [read_write_eq_none hyear] at hread
      cases hread
    rw [read_write_eq_settled hnanos hyear.1 hyear.2, Option.some.injEq, settled_eq_iff] at hread
    exact ⟨hyear, hread⟩
  · rw [read_write_eq_settled hnanos hyear.1 hyear.2, settled_eq_iff.mpr hleap]
  · rw [read_write_eq_settled hnanos hyear.1 hyear.2, settled, if_neg (by omega)]

/-- Half a second into the leap second of June 1972, a third of a second into one that no clock
showed, and the first moment of the year 10000. -/
theorem leap_seconds_read_back :
    (⟨78796799, 1500000000⟩ : Instant).write = Bytes.ofString "1972-06-30T23:59:60.500Z" ∧
    read (⟨78796799, 1500000000⟩ : Instant).write = some ⟨78796799, 1500000000⟩ ∧
    (⟨-1, 1333333333⟩ : Instant).write = Bytes.ofString "1969-12-31T23:59:60.333333333Z" ∧
    read (⟨-1, 1333333333⟩ : Instant).write = some ⟨-1, 1333333333⟩ ∧
    (⟨-2, 1333333333⟩ : Instant).write = Bytes.ofString "1969-12-31T23:59:59.333333333Z" ∧
    read (⟨-2, 1333333333⟩ : Instant).write = some ⟨-1, 333333333⟩ ∧
    (⟨253402300800, 0⟩ : Instant).write = Bytes.ofString "+10000-01-01T00:00:00Z" ∧
    read (⟨253402300800, 0⟩ : Instant).write = none := by
  have hleap := @written_moment_read_back_iff ⟨78796799, 1500000000⟩ (by decide)
  have hlast := @written_moment_read_back_iff ⟨-1, 1333333333⟩ (by decide)
  have hinside := @written_moment_read_back_iff ⟨-2, 1333333333⟩ (by decide)
  have hlate := @written_moment_read_back_iff ⟨253402300800, 0⟩ (by decide)
  exact ⟨by decide +kernel, hleap.1.mpr (by decide +kernel), by decide +kernel,
    hlast.1.mpr (by decide +kernel), by decide +kernel,
    hinside.2.1 (by decide +kernel) (by decide +kernel) (by decide +kernel), by decide +kernel,
    hlate.2.2 (by decide +kernel)⟩

end Instant

end SchemaJson
