import SchemaJson.Date.Text
import SchemaJson.Proofs.CalendarDays
import SchemaJson.Proofs.DecimalText

/-! Dates read back. A moment in a year of four digits is written with all digits of every number,
and the first of the readers takes it apart again. -/

namespace SchemaJson

theorem length_decimal_le {n width : Nat} (hwidth : 0 < width) (h : n < 10 ^ width) :
    (decimal n).length ≤ width := by
  induction width generalizing n with
  | zero => omega
  | succ width ih =>
    rw [decimal]
    split
    next => simp
    next hlarge =>
      have hrest : n / 10 < 10 ^ width := by
        rw [pow_succ] at h
        omega
      have hsome : 0 < width := by
        cases width with
        | zero => simp at h; omega
        | succ width => exact Nat.succ_pos width
      have hlength := ih hsome hrest
      simp only [List.length_append, List.length_cons, List.length_nil]
      omega

namespace Instant

theorem isDigit_padded (width n : Nat) : ∀ byte ∈ padded width n, isDigit byte = true := by
  intro byte hmem
  rcases List.mem_append.mp hmem with hmem | hmem
  · rw [List.eq_of_mem_replicate hmem]
    rfl
  · exact (isDigitText_decimal n).2 byte hmem

theorem length_padded {width n : Nat} (hwidth : 0 < width) (h : n < 10 ^ width) :
    (padded width n).length = width := by
  have hlength := length_decimal_le hwidth h
  simp only [padded, List.length_append, List.length_replicate]
  omega

theorem digitsValue_padded (width n : Nat) : digitsValue (padded width n) = n := by
  rw [padded, digitsValue_append, digitsValue_zeros, digitsValue_decimal, Nat.zero_mul, Nat.zero_add]

end Instant

namespace Reader

variable {α β : Type}

theorem bind_eq {reader : Reader α} {next : α → Reader β} {text rest : Bytes} {a : α}
    (h : reader text = some (a, rest)) : (reader >>= next) text = next a rest := by
  show (reader text).bind _ = _
  rw [h]
  rfl

theorem number_padded {width n : Nat} (hwidth : 0 < width) (h : n < 10 ^ width) (rest : Bytes) :
    number width width (Instant.padded width n ++ rest) = some (n, rest) := by
  have hlength := Instant.length_padded hwidth h
  have hdigits := Instant.isDigit_padded width n
  have hvalue := Instant.digitsValue_padded width n
  generalize Instant.padded width n = digits at *
  subst hlength
  simp only [number, List.take_left', List.takeWhile_eq_self_iff.mpr hdigits, hvalue]
  rw [if_pos le_rfl, List.drop_left]

theorem one_cons (byte : UInt8) (rest : Bytes) : one byte (byte :: rest) = some ((), rest) :=
  if_pos rfl

theorem nanos_append {digits rest : Bytes} (hne : digits ≠ []) (hlength : digits.length ≤ 9)
    (hdigits : ∀ byte ∈ digits, isDigit byte = true) (hrest : ∀ byte ∈ rest.head?, isDigit byte = false) :
    nanos (digits ++ rest) = some (digitsValue digits * 10 ^ (9 - digits.length), rest) := by
  have hstop (count : Nat) : (rest.take count).takeWhile isDigit = [] := by
    cases rest with
    | nil => simp
    | cons byte rest => cases count <;> simp [hrest byte rfl]
  have htake : ((digits ++ rest).take 9).takeWhile isDigit = digits := by
    rw [List.take_append, List.take_of_length_le hlength, List.takeWhile_append_of_pos hdigits, hstop,
      List.append_nil]
  have hdrop : (digits ++ rest).dropWhile isDigit = rest := by
    rw [List.dropWhile_append_of_pos hdigits]
    cases rest with
    | nil => rfl
    | cons byte rest => simp [hrest byte rfl]
  simp only [nanos, htake, hdrop, Nat.pow_eq]
  rw [if_neg hne]

theorem fraction_writeFraction {nanos : Nat} (h : nanos < 10 ^ 9) :
    fraction (Instant.writeFraction nanos ++ [0x5a]) = some (nanos, [0x5a]) := by
  have hpoint (width n : Nat) (hwidth : 0 < width) (hmost : width ≤ 9) (hn : n < 10 ^ width) :
      fraction (Ascii.point :: Instant.padded width n ++ [0x5a])
        = some (n * 10 ^ (9 - width), [0x5a]) := by
    have hlength := Instant.length_padded hwidth hn
    have hread := @nanos_append (Instant.padded width n) [0x5a]
      (List.length_pos_iff.mp (hwidth.trans_eq hlength.symm)) (hlength.trans_le hmost)
      (Instant.isDigit_padded width n) (by simp [isDigit])
    rw [hlength, Instant.digitsValue_padded] at hread
    exact hread
  rw [Instant.writeFraction]
  split
  next hzero =>
    rw [hzero]
    rfl
  next =>
    split
    next hmillis =>
      rw [hpoint 3 _ (by decide) (by decide) (by omega)]
      congr 2
      omega
    next =>
      split
      next hmicros =>
        rw [hpoint 6 _ (by decide) (by decide) (by omega)]
        congr 2
        omega
      next =>
        rw [hpoint 9 _ (by decide) (by decide) h]
        congr 2
        omega

end Reader

namespace Instant

theorem nanos_of_isValid {instant : Instant} (h : instant.isValid = true) :
    instant.nanos < 2 * nanosPerSecond ∧
      (instant.nanos < nanosPerSecond ∨ instant.secondOfDay % 60 = 59) := by
  simp only [isValid, Bool.and_eq_true, Bool.or_eq_true, decide_eq_true_eq, beq_iff_eq] at h
  exact ⟨h.1.2, h.2⟩

theorem secondOfDay_lt (instant : Instant) : instant.secondOfDay < 86400 := by
  simp only [secondOfDay, secondsPerDay]
  omega

/-- The time of day that is written of a moment. -/
def civil (instant : Instant) : CivilTime :=
  let leap := nanosPerSecond ≤ instant.nanos
  ⟨instant.date, instant.secondOfDay / 3600, instant.secondOfDay / 60 % 60,
    instant.secondOfDay % 60 + if leap then 1 else 0,
    if leap then instant.nanos - nanosPerSecond else instant.nanos⟩

/-- What is written of a moment in a year of four digits is taken apart again. -/
theorem withOffset_write {instant : Instant} (hrange : instant.nanos < 2 * nanosPerSecond)
    (hlow : 0 ≤ instant.date.year) (hhigh : instant.date.year ≤ 9999) :
    withOffset.all instant.write = some (instant.civil, 0) := by
  obtain ⟨year, hyear⟩ := Int.eq_ofNat_of_zero_le hlow
  obtain ⟨hmonth, hday⟩ : instant.date.month < 100 ∧ instant.date.day < 100 :=
    CalendarDate.ofDays_lt (instant.seconds / secondsPerDay)
  have htime := instant.secondOfDay_lt
  have hnanos : instant.civil.nanos < 10 ^ 9 := by
    have hbillion : nanosPerSecond = 10 ^ 9 := rfl
    simp only [civil]
    split <;> omega
  have hsecond : instant.civil.second < 100 := by
    simp only [civil]
    split <;> omega
  have hwrite : instant.write = padded 4 year ++ Ascii.minus :: padded 2 instant.date.month
      ++ Ascii.minus :: padded 2 instant.date.day ++ 0x54 :: padded 2 (instant.secondOfDay / 3600)
      ++ Ascii.colon :: padded 2 (instant.secondOfDay / 60 % 60)
      ++ Ascii.colon :: padded 2 instant.civil.second ++ writeFraction instant.civil.nanos ++ [0x5a] := by
    have hyearText : writeYear instant.date.year = padded 4 year := by
      rw [writeYear, if_pos ⟨hlow, hhigh⟩, hyear, Int.toNat_natCast]
    rw [← hyearText]
    rfl
  have hmiddle (rest : Bytes) : Reader.oneOf [0x54, 0x74, Ascii.space] (0x54 :: rest) = some ((), rest) :=
    rfl
  have hread : withOffset instant.write = some ((instant.civil, 0), []) := by
    rw [hwrite, withOffset]
    simp only [List.append_assoc, List.cons_append]
    rw [Reader.bind_eq (Reader.number_padded (by decide) (by omega) _),
      Reader.bind_eq (Reader.one_cons _ _), Reader.bind_eq (Reader.number_padded (by decide) hmonth _),
      Reader.bind_eq (Reader.one_cons _ _), Reader.bind_eq (Reader.number_padded (by decide) hday _),
      Reader.bind_eq (hmiddle _), Reader.bind_eq (Reader.number_padded (by decide) (by omega) _),
      Reader.bind_eq (Reader.one_cons _ _), Reader.bind_eq (Reader.number_padded (by decide) (by omega) _),
      Reader.bind_eq (Reader.one_cons _ _), Reader.bind_eq (Reader.number_padded (by decide) hsecond _),
      Reader.bind_eq (Reader.fraction_writeFraction hnanos)]
    rw [← hyear]
    rfl
  rw [Reader.all, hread]

theorem isValid_civil {instant : Instant} (hlow : Calendar.leastYear ≤ instant.date.year)
    (hhigh : instant.date.year ≤ Calendar.greatestYear) : instant.civil.isValid = true := by
  have htime := instant.secondOfDay_lt
  have hdate : instant.civil.date.isValid = true := CalendarDate.isValid_ofDays hlow hhigh
  have hhour : instant.civil.hour ≤ 23 := by
    simp only [civil]
    omega
  have hminute : instant.civil.minute ≤ 59 := by
    simp only [civil]
    omega
  have hsecond : instant.civil.second ≤ 60 := by
    simp only [civil]
    split <;> omega
  simp [CivilTime.isValid, hdate, hhour, hminute, hsecond]

/-- The moment at which clocks show what they show now. A leap second behind the last second of a
minute has a time of its own; behind any other second it is shown as the second after. -/
def settled (instant : Instant) : Instant :=
  if instant.nanos < nanosPerSecond ∨ instant.secondOfDay % 60 = 59 then instant
  else ⟨instant.seconds + 1, instant.nanos - nanosPerSecond⟩

theorem settled_eq_iff {instant : Instant} : instant.settled = instant ↔
    (nanosPerSecond ≤ instant.nanos → instant.secondOfDay % 60 = 59) := by
  by_cases hsettled : instant.nanos < nanosPerSecond ∨ instant.secondOfDay % 60 = 59
  · rw [settled, if_pos hsettled]
    exact iff_of_true rfl fun hlate => hsettled.resolve_left (not_lt.mpr hlate)
  · rw [settled, if_neg hsettled]
    refine iff_of_false (fun hsame => ?_) fun hleap => hsettled ?_
    · have hseconds : instant.seconds + 1 = instant.seconds := congrArg Instant.seconds hsame
      omega
    · exact (lt_or_ge instant.nanos nanosPerSecond).imp_right hleap

theorem settled_of_isValid {instant : Instant} (h : instant.isValid = true) :
    instant.settled = instant :=
  if_pos (nanos_of_isValid h).2

theorem toInstant_civil (instant : Instant) : instant.civil.toInstant 0 = instant.settled := by
  have hday : instant.civil.date.toDays = instant.seconds / secondsPerDay :=
    CalendarDate.toDays_ofDays _
  have hsplit : (instant.seconds / secondsPerDay) * secondsPerDay + instant.secondOfDay
      = instant.seconds := by
    simp only [secondOfDay, secondsPerDay]
    omega
  have hseconds : instant.secondOfDay / 3600 * 3600 + instant.secondOfDay / 60 % 60 * 60
      + instant.secondOfDay % 60 = instant.secondOfDay := by omega
  have hmoment (seconds : Int) (nanos : Nat) (hs : seconds = instant.seconds)
      (hn : nanos = instant.nanos) : (⟨seconds, nanos⟩ : Instant) = instant := by
    rw [hs, hn]
  have hhour : instant.civil.hour = instant.secondOfDay / 3600 := rfl
  have hminute : instant.civil.minute = instant.secondOfDay / 60 % 60 := rfl
  simp only [CivilTime.toInstant, hday, hhour, hminute]
  by_cases hlate : nanosPerSecond ≤ instant.nanos
  · obtain ⟨nanos, hpast⟩ := Nat.exists_eq_add_of_le hlate
    have hsecond : instant.civil.second = instant.secondOfDay % 60 + 1 := by
      simp only [civil, if_pos hlate]
    have hnanos : instant.civil.nanos = nanos := by
      simp only [civil, if_pos hlate]
      omega
    simp only [hsecond, hnanos]
    by_cases hlast : instant.secondOfDay % 60 = 59
    · -- The clock shows a sixtieth second and its nanoseconds start again.
      have hsettled : instant.settled = instant := by rw [settled, if_pos (.inr hlast)]
      simp only [hsettled, hlast, Nat.reduceAdd, beq_self_eq_true, if_true]
      exact hmoment _ _ (by omega) (by omega)
    · have hsettled : instant.settled = ⟨instant.seconds + 1, nanos⟩ := by
        rw [settled, if_neg (by omega), hpast, Nat.add_sub_cancel_left]
      have hnotLeap : (instant.secondOfDay % 60 + 1 == 60) = false := by
        rw [beq_eq_false_iff_ne]
        omega
      simp only [hsettled, hnotLeap, Bool.false_eq_true, if_false, Nat.add_zero, mk.injEq, and_true]
      omega
  · have hsecond : instant.civil.second = instant.secondOfDay % 60 := by
      simp only [civil, if_neg hlate, Nat.add_zero]
    have hnanos : instant.civil.nanos = instant.nanos := by simp only [civil, if_neg hlate]
    have hsettled : instant.settled = instant := by rw [settled, if_pos (.inl (not_le.mp hlate))]
    have hnotLeap : (instant.secondOfDay % 60 == 60) = false := by
      rw [beq_eq_false_iff_ne]
      omega
    simp only [hsettled, hsecond, hnanos, hnotLeap, Bool.false_eq_true, if_false, Nat.add_zero]
    exact hmoment _ _ (by omega) rfl

/-- What is written in a year of four digits is read as the moment that clocks show. -/
theorem read_write_eq_settled {instant : Instant} (hrange : instant.nanos < 2 * nanosPerSecond)
    (hlow : 0 ≤ instant.date.year) (hhigh : instant.date.year ≤ 9999) :
    read instant.write = some instant.settled := by
  have hvalid := @isValid_civil instant (le_trans (by decide) hlow) (le_trans hhigh (by decide))
  have hoffset : readWithOffset instant.write = some instant.settled := by
    rw [readWithOffset, withOffset_write hrange hlow hhigh, ← toInstant_civil]
    exact if_pos hvalid
  rw [read, hoffset]
  rfl

/-- A moment in a year of four digits is read as it was written. -/
theorem read_write {instant : Instant} (hvalid : instant.isValid = true)
    (hlow : 0 ≤ instant.date.year) (hhigh : instant.date.year ≤ 9999) :
    read instant.write = some instant := by
  rw [read_write_eq_settled (nanos_of_isValid hvalid).1 hlow hhigh, settled_of_isValid hvalid]

end Instant

end SchemaJson
