import SchemaJson.Number.Decimal
import SchemaJson.Proofs.DecimalText
import SchemaJson.Proofs.FloatNearest

/-! Text of floating-point numbers reads back. The digits that are chosen round to the bits, every
layout places them so that they are read with the same value, and so do zeros and signs. -/

namespace SchemaJson

def ShortDecimal.toRat (number : ShortDecimal) : ℚ := number.digits * 10 ^ number.exponent

def DecimalNumber.toRat (number : DecimalNumber) : ℚ := digitsValue number.digits * 10 ^ number.exponent

theorem ShortDecimal.quotient_eq (number : ShortDecimal) :
    (number.quotient.1 : ℚ) / number.quotient.2 = number.toRat := by
  obtain ⟨digits, exponent⟩ := number
  cases exponent with
  | ofNat n => simp [quotient, toRat]
  | negSucc n => simp [quotient, toRat, zpow_negSucc, div_eq_mul_inv]

theorem ShortDecimal.quotient_den_pos (number : ShortDecimal) : 0 < number.quotient.2 := by
  obtain ⟨digits, exponent⟩ := number
  cases exponent with
  | ofNat n => exact Nat.one_pos
  | negSucc n => exact Nat.pow_pos (by decide)

theorem ShortDecimal.quotient_num_pos {number : ShortDecimal} (h : 0 < number.digits) :
    0 < number.quotient.1 := by
  obtain ⟨digits, exponent⟩ := number
  cases exponent with
  | ofNat n => exact Nat.mul_pos h (Nat.pow_pos (by decide))
  | negSucc n => exact h

/-- The digits are not zero and round to the bits. -/
def ShortDecimal.Rounds (format : FloatFormat) (bits : Nat) (number : ShortDecimal) : Prop :=
  0 < number.digits ∧ format.nearest? number.toRat = some bits

theorem ShortDecimal.readsAs_iff {format : FloatFormat} {bits : Nat} {number : ShortDecimal} :
    number.readsAs format bits = true ↔ number.Rounds format bits := by
  simp only [readsAs, Bool.and_eq_true, bne_iff_ne, beq_iff_eq, Rounds, ← Nat.pos_iff_ne_zero]
  refine and_congr_right fun hdigits => ?_
  rw [format.ofQuotient_eq (quotient_num_pos hdigits) number.quotient_den_pos, number.quotient_eq]

theorem BinaryValue.exact_toRat (value : BinaryValue) : value.exact.toRat = value.toRat := by
  obtain ⟨mantissa, scale⟩ := value
  cases scale with
  | ofNat n => simp [exact, ShortDecimal.toRat, toRat]
  | negSucc n =>
    have hten : (10 : ℚ) = 2 * 5 := by norm_num
    simp only [exact, ShortDecimal.toRat, toRat, zpow_negSucc, Nat.pow_eq, hten, mul_pow]
    push_cast
    field_simp

theorem BinaryValue.exact_digits_pos {value : BinaryValue} (h : 0 < value.mantissa) :
    0 < value.exact.digits := by
  obtain ⟨mantissa, scale⟩ := value
  cases scale with
  | ofNat n => exact Nat.mul_pos h (Nat.pow_pos (by decide))
  | negSucc n => exact Nat.mul_pos h (Nat.pow_pos (by decide))

namespace FloatFormat

theorem onGrid?_rounds {format : FloatFormat} {tie : Tie} {bits : Nat} {exponent : Int}
    {number : ShortDecimal} (h : format.onGrid? tie bits exponent = some number) :
    number.Rounds format bits := by
  have hcandidates (first second : ShortDecimal)
      (hfound : (if first.readsAs format bits then some first
        else if second.readsAs format bits then some second else none) = some number) :
      number.Rounds format bits := by
    split at hfound
    next hfirst =>
      cases hfound
      exact ShortDecimal.readsAs_iff.mp hfirst
    next =>
      split at hfound
      next hsecond =>
        cases hfound
        exact ShortDecimal.readsAs_iff.mp hsecond
      next => cases hfound
  exact hcandidates _ _ h

theorem coarsest?_rounds {format : FloatFormat} {tie : Tie} {bits count : Nat} {exponent : Int}
    {number : ShortDecimal} (h : format.coarsest? tie bits count exponent = some number) :
    number.Rounds format bits := by
  induction count generalizing exponent with
  | zero => cases h
  | succ count ih =>
    rw [coarsest?] at h
    split at h
    next hgrid =>
      cases h
      exact onGrid?_rounds hgrid
    next => exact ih h

/-- The digits chosen for positive finite bits round to them. -/
theorem shortest_rounds {format : FloatFormat} (tie : Tie) {bits : Nat} (hpos : 0 < bits)
    (hbits : bits < 2 ^ (format.bits - 1)) (hfinite : format.isFinite bits = true) :
    (format.shortest tie bits).Rounds format bits := by
  rw [shortest]
  cases hgrid : format.coarsest? tie bits 20 (format.ceilingExponent bits) with
  | some number => exact coarsest?_rounds hgrid
  | none =>
    -- Where no short digits were found, all digits of the exact value are written.
    have hexact : format.nearest? (format.magnitude bits).exact.toRat = some bits := by
      rw [BinaryValue.exact_toRat, nearest?_magnitude hpos hbits hfinite]
    exact ⟨BinaryValue.exact_digits_pos (mantissa_magnitude_pos hpos hbits), hexact⟩

end FloatFormat

namespace DecimalNumber

theorem powerOfTen_pos (k : Int) : (0 : ℚ) < 10 ^ k := zpow_pos (by norm_num) k

theorem toRat_pos {number : DecimalNumber} (h : 0 < digitsValue number.digits) : 0 < number.toRat :=
  mul_pos (by exact_mod_cast h) (powerOfTen_pos _)

theorem two_zpow_le {k : Int} {n : Nat} (h : k ≤ 3 * n) : (2 : ℚ) ^ k ≤ 10 ^ (n : Int) := by
  have hthree : ((3 * n : Nat) : Int) = 3 * n := by push_cast; rfl
  calc (2 : ℚ) ^ k ≤ 2 ^ ((3 * n : Nat) : Int) := zpow_le_zpow_right₀ (by norm_num) (hthree ▸ h)
    _ = (2 ^ 3) ^ n := by rw [zpow_natCast, pow_mul]
    _ ≤ 10 ^ n := pow_le_pow_left₀ (by norm_num) (by norm_num) n
    _ = 10 ^ (n : Int) := (zpow_natCast 10 n).symm

theorem neg_reach_le {format : FloatFormat} {number : DecimalNumber} {bits : Nat}
    (hdigits : ∀ byte ∈ number.digits, isDigit byte = true) (hvalue : 0 < digitsValue number.digits)
    (hpos : 0 < bits) (h : format.nearest? number.toRat = some bits) :
    -(reach : Int) ≤ number.exponent + number.digits.length := by
  by_contra hsmall
  have hlow := (FloatFormat.bounds_of_nearest? (toRat_pos hvalue) hpos h).1
  have hleast : (10 : ℚ) ^ (-(reach : Int)) ≤ 2 ^ (format.leastScale - 1) := by
    have hscale : -(format.leastScale - 1) ≤ 3 * (reach : Int) := by
      cases format <;> decide
    have hinv := inv_anti₀ (powerOfTwo_pos _) (two_zpow_le hscale)
    rwa [← zpow_neg, ← zpow_neg, neg_neg] at hinv
  have hlt : number.toRat < 10 ^ (-(reach : Int)) := by
    calc number.toRat < 10 ^ (number.digits.length : Int) * 10 ^ number.exponent := by
          refine mul_lt_mul_of_pos_right ?_ (powerOfTen_pos _)
          rw [zpow_natCast]
          exact_mod_cast digitsValue_lt hdigits
      _ = 10 ^ (number.digits.length + number.exponent) := (zpow_add₀ (by norm_num) _ _).symm
      _ ≤ 10 ^ (-(reach : Int)) := zpow_le_zpow_right₀ (by norm_num) (by omega)
  exact absurd (hlow.trans_lt hlt) (not_lt.mpr hleast)

theorem exponent_le_reach {format : FloatFormat} {number : DecimalNumber} {bits : Nat}
    (hvalue : 0 < digitsValue number.digits) (hpos : 0 < bits)
    (h : format.nearest? number.toRat = some bits) : number.exponent ≤ reach := by
  by_contra hlarge
  have hhigh := (FloatFormat.bounds_of_nearest? (toRat_pos hvalue) hpos h).2
  have hgreatest : (2 : ℚ) ^ (format.leastScale + format.precision + format.topExponent)
      ≤ 10 ^ (reach : Int) :=
    two_zpow_le (by cases format <;> decide)
  have hge : (10 : ℚ) ^ (reach : Int) ≤ number.toRat := by
    calc (10 : ℚ) ^ (reach : Int) ≤ 10 ^ number.exponent :=
          zpow_le_zpow_right₀ (by norm_num) (by omega)
      _ ≤ number.toRat := by
        refine le_mul_of_one_le_left (powerOfTen_pos _).le ?_
        exact_mod_cast hvalue
  exact absurd (hge.trans_lt hhigh) (not_lt.mpr hgreatest)

/-- Decimal digits are read as the bits that their value rounds to. -/
theorem magnitudeBits_eq {format : FloatFormat} {number : DecimalNumber} {bits : Nat}
    (hdigits : ∀ byte ∈ number.digits, isDigit byte = true) (hvalue : 0 < digitsValue number.digits)
    (hpos : 0 < bits) (h : format.nearest? number.toRat = some bits) :
    number.magnitudeBits format = some bits := by
  have hlow := neg_reach_le hdigits hvalue hpos h
  have hhigh := exponent_le_reach hvalue hpos h
  obtain ⟨negative, digits, exponent⟩ := number
  change 0 < digitsValue digits at hvalue
  simp only [magnitudeBits]
  rw [if_neg hvalue.ne', if_neg (not_lt.mpr hlow), ← h]
  cases exponent with
  | ofNat n =>
    have hn : ¬ reach < n := by
      simp only [Int.ofNat_eq_natCast, Nat.cast_le] at hhigh
      omega
    have hnum : 0 < digitsValue digits * Nat.pow 10 n := Nat.mul_pos hvalue (Nat.pow_pos (by decide))
    dsimp only
    rw [if_neg hn, format.ofQuotient_eq hnum Nat.one_pos]
    simp [toRat]
  | negSucc n =>
    have hden : 0 < Nat.pow 10 (n + 1) := Nat.pow_pos (by decide)
    dsimp only
    rw [format.ofQuotient_eq hvalue hden]
    simp [toRat, zpow_negSucc, div_eq_mul_inv]

/-- The text does not go on with a digit. -/
def StartsNoDigit (text : Bytes) : Prop := ∀ byte ∈ text.head?, isDigit byte = false

theorem startsNoDigit_cons {byte : UInt8} (h : isDigit byte = false) (text : Bytes) :
    StartsNoDigit (byte :: text) := by
  intro head hhead
  cases hhead
  exact h

theorem startsNoDigit_nil : StartsNoDigit [] := by
  intro head hhead
  cases hhead

theorem StartsNoDigit.takeWhile_append {digits rest : Bytes} (h : StartsNoDigit rest)
    (hdigits : ∀ byte ∈ digits, isDigit byte = true) :
    (digits ++ rest).takeWhile isDigit = digits ∧ (digits ++ rest).dropWhile isDigit = rest := by
  have hrest : rest.takeWhile isDigit = [] ∧ rest.dropWhile isDigit = rest := by
    cases rest with
    | nil => exact ⟨rfl, rfl⟩
    | cons byte rest => simp [h byte rfl]
  rw [List.takeWhile_append_of_pos hdigits, List.dropWhile_append_of_pos hdigits, hrest.1, hrest.2]
  exact ⟨List.append_nil digits, rfl⟩

theorem read_eq {text whole decimals rest tail : Bytes} {negative : Bool} {power : Int}
    (hsign : sign text = (negative, whole ++ rest)) (hwhole : IsDigitText whole)
    (hrest : StartsNoDigit rest) (hfraction : fraction rest = (decimals, tail))
    (hpower : exponentOf tail = some power) :
    read text = some ⟨negative, whole ++ decimals, power - decimals.length⟩ := by
  obtain ⟨htake, hdrop⟩ := hrest.takeWhile_append hwhole.2
  have hne : whole ++ decimals ≠ [] := by simp [hwhole.1]
  simp only [read, hsign, htake, hdrop, hfraction, hpower]
  simp [hne]

theorem fraction_point {decimals tail : Bytes} (hdecimals : ∀ byte ∈ decimals, isDigit byte = true)
    (htail : StartsNoDigit tail) :
    fraction (Ascii.point :: decimals ++ tail) = (decimals, tail) := by
  obtain ⟨htake, hdrop⟩ := htail.takeWhile_append hdecimals
  simp [fraction, htake, hdrop]

theorem sign_of_isDigitText {text rest : Bytes} (h : IsDigitText text) :
    sign (text ++ rest) = (false, text ++ rest) := by
  obtain ⟨byte, tail, rfl, hbyte⟩ := h.exists_cons
  have hminus : (byte == Ascii.minus) = false := by simpa using isDigit_ne hbyte rfl
  have hplus : (byte == Ascii.plus) = false := by simpa using isDigit_ne hbyte rfl
  simp [sign, hminus, hplus]

theorem exponentOf_decimalInt (power : Int) : exponentOf (0x65 :: decimalInt power) = some power := by
  have hread (k : Nat) (negative : Bool) (text : Bytes) (hsign : sign text = (negative, decimal k)) :
      exponentOf (0x65 :: text) = some (if negative then -(k : Int) else k) := by
    have hdigits := isDigitText_decimal k
    have hall : (decimal k).all isDigit = true := List.all_eq_true.mpr hdigits.2
    simp only [exponentOf, hsign, digitsValue_decimal]
    simp [hdigits.1, hall]
  cases power with
  | ofNat k =>
    have hsign : sign (decimal k ++ []) = (false, decimal k ++ []) :=
      sign_of_isDigitText (isDigitText_decimal k)
    rw [List.append_nil] at hsign
    exact hread k false _ hsign
  | negSucc k => exact hread (k + 1) true _ rfl

end DecimalNumber

namespace FloatLayout

/-- The text in front of a number, if the number is negative. -/
def signed (negative : Bool) (text : Bytes) : Bytes :=
  if negative then Ascii.minus :: text else text

/-- The text reads as the number, whichever sign is put in front of it. -/
def ReadsAs (text : Bytes) (value : ℚ) : Prop :=
  ∀ negative, ∃ number, DecimalNumber.read (signed negative text) = some number ∧
    number.negative = negative ∧ (∀ byte ∈ number.digits, isDigit byte = true) ∧
    number.toRat = value

theorem readsAs_of_parts {whole decimals rest tail : Bytes} {power : Int} {value : ℚ}
    (hwhole : IsDigitText whole) (hdecimals : ∀ byte ∈ decimals, isDigit byte = true)
    (hrest : DecimalNumber.StartsNoDigit rest)
    (hfraction : DecimalNumber.fraction rest = (decimals, tail))
    (hpower : DecimalNumber.exponentOf tail = some power)
    (hvalue : digitsValue (whole ++ decimals) * (10 : ℚ) ^ (power - decimals.length) = value) :
    ReadsAs (whole ++ rest) value := by
  intro negative
  have hsign : DecimalNumber.sign (signed negative (whole ++ rest)) = (negative, whole ++ rest) := by
    cases negative with
    | true => rfl
    | false => exact DecimalNumber.sign_of_isDigitText hwhole
  refine ⟨_, DecimalNumber.read_eq hsign hwhole hrest hfraction hpower, rfl, ?_, hvalue⟩
  intro byte hmem
  rcases List.mem_append.mp hmem with hmem | hmem
  · exact hwhole.2 byte hmem
  · exact hdecimals byte hmem

theorem readsAs_point {whole decimals : Bytes} (hwhole : IsDigitText whole)
    (hdecimals : ∀ byte ∈ decimals, isDigit byte = true) :
    ReadsAs (whole ++ Ascii.point :: decimals)
      (digitsValue (whole ++ decimals) * 10 ^ (-(decimals.length : Int))) := by
  have hfraction := DecimalNumber.fraction_point hdecimals DecimalNumber.startsNoDigit_nil
  rw [List.append_nil] at hfraction
  exact readsAs_of_parts hwhole hdecimals (DecimalNumber.startsNoDigit_cons rfl decimals) hfraction rfl
    (by rw [zero_sub])

theorem isDigit_zeros (count : Int) : ∀ byte ∈ zeros count, isDigit byte = true := by
  intro byte hmem
  rw [List.eq_of_mem_replicate hmem]
  rfl

theorem readsAs_scientific {digits : Bytes} (hdigits : IsDigitText digits) (exponent : Int) :
    ReadsAs (scientific digits (digits.length + exponent - 1)) (digitsValue digits * 10 ^ exponent) := by
  obtain ⟨digit, rest, rfl, hdigit⟩ := hdigits.exists_cons
  have hwhole : IsDigitText [digit] := ⟨by simp, by simpa using hdigit⟩
  have hletter (text : Bytes) : DecimalNumber.StartsNoDigit (0x65 :: text) :=
    DecimalNumber.startsNoDigit_cons rfl text
  cases rest with
  | nil =>
    refine readsAs_of_parts hwhole (show ∀ byte ∈ [], _ by simp) (hletter _) rfl
      (DecimalNumber.exponentOf_decimalInt _) ?_
    simp
  | cons second rest =>
    have hrest : ∀ byte ∈ second :: rest, isDigit byte = true := fun byte hmem =>
      hdigits.2 byte (List.mem_cons_of_mem _ hmem)
    have hpoint : DecimalNumber.StartsNoDigit (Ascii.point :: (second :: rest)
        ++ 0x65 :: decimalInt ((digit :: second :: rest).length + exponent - 1)) :=
      DecimalNumber.startsNoDigit_cons rfl _
    show ReadsAs ([digit] ++ (Ascii.point :: (second :: rest) ++ 0x65 :: decimalInt _)) _
    refine readsAs_of_parts hwhole hrest hpoint
      (DecimalNumber.fraction_point hrest (hletter _)) (DecimalNumber.exponentOf_decimalInt _) ?_
    rw [List.singleton_append]
    congr 2
    simp only [List.length_cons]
    push_cast
    ring

theorem digitsValue_append_zeros (digits : Bytes) (n : Nat) :
    digitsValue (digits ++ List.replicate n 0x30) = digitsValue digits * 10 ^ n := by
  rw [digitsValue_append, digitsValue_zeros, List.length_replicate, Nat.add_zero]

theorem readsAs_whole {digits : Bytes} (hdigits : IsDigitText digits) (n : Nat) :
    ReadsAs (digits ++ zeros n ++ [Ascii.point, 0x30]) (digitsValue digits * 10 ^ (n : Int)) := by
  have hwhole : IsDigitText (digits ++ zeros n) := by
    refine ⟨by simp [hdigits.1], fun byte hmem => ?_⟩
    rcases List.mem_append.mp hmem with hmem | hmem
    · exact hdigits.2 byte hmem
    · exact isDigit_zeros n byte hmem
  have hread := readsAs_point hwhole (show ∀ byte ∈ [0x30], isDigit byte = true by simp [isDigit])
  have hvalue : digitsValue (digits ++ zeros n ++ [0x30]) = digitsValue digits * 10 ^ (n + 1) := by
    rw [← digitsValue_append_zeros, List.replicate_succ', ← List.append_assoc]
    rfl
  rw [hvalue] at hread
  convert hread using 1
  push_cast
  rw [pow_succ, mul_assoc, mul_assoc]
  simp

theorem readsAs_split {digits : Bytes} (hdigits : IsDigitText digits) {n : Nat} (hpos : 0 < n)
    (hn : n ≤ digits.length) :
    ReadsAs (digits.take n ++ Ascii.point :: digits.drop n)
      (digitsValue digits * 10 ^ ((n : Int) - digits.length)) := by
  have hwhole : IsDigitText (digits.take n) := by
    refine ⟨?_, fun byte hmem => hdigits.2 byte (List.mem_of_mem_take hmem)⟩
    rw [← List.length_pos_iff, List.length_take]
    omega
  have hdecimals : ∀ byte ∈ digits.drop n, isDigit byte = true := fun byte hmem =>
    hdigits.2 byte (List.mem_of_mem_drop hmem)
  have hread := readsAs_point hwhole hdecimals
  have hplaces : -((digits.drop n).length : Int) = n - digits.length := by
    rw [List.length_drop]
    omega
  rwa [List.take_append_drop, hplaces] at hread

theorem readsAs_decimals {digits : Bytes} (hdigits : IsDigitText digits) (n : Nat) :
    ReadsAs (0x30 :: Ascii.point :: zeros n ++ digits)
      (digitsValue digits * 10 ^ (-((n : Int) + digits.length))) := by
  have hzero : IsDigitText [0x30] := ⟨by simp, by simp [isDigit]⟩
  have hdecimals : ∀ byte ∈ zeros n ++ digits, isDigit byte = true := by
    intro byte hmem
    rcases List.mem_append.mp hmem with hmem | hmem
    · exact isDigit_zeros n byte hmem
    · exact hdigits.2 byte hmem
  have hread := readsAs_point hzero hdecimals
  have hvalue : digitsValue ([0x30] ++ (zeros n ++ digits)) = digitsValue digits := by
    have hnothing : digitsValue ([0x30] ++ zeros n) = 0 := by
      rw [zeros, digitsValue_append, digitsValue_zeros]
      simp [digitsValue, digitValue]
    rw [← List.append_assoc, digitsValue_append, hnothing, Nat.zero_mul, Nat.zero_add]
  have hplaces : ((zeros n ++ digits).length : Int) = n + digits.length := by
    simp only [List.length_append, zeros, List.length_replicate, Int.toNat_natCast, Nat.cast_add]
  rw [hvalue, hplaces] at hread
  exact hread

/-- Wherever the point is placed, the text has the value of the digits. -/
theorem readsAs_place (layout : FloatLayout) {digits : Bytes} (hdigits : IsDigitText digits)
    (exponent : Int) : ReadsAs (layout.place digits exponent) (digitsValue digits * 10 ^ exponent) := by
  simp only [place]
  split
  next h =>
    obtain ⟨n, rfl⟩ := Int.eq_ofNat_of_zero_le h.1
    exact readsAs_whole hdigits n
  next hwhole =>
    split
    next h =>
      obtain ⟨n, hn⟩ := Int.eq_ofNat_of_zero_le h.1.le
      obtain rfl : exponent = n - digits.length := by omega
      rw [hn, Int.toNat_natCast]
      exact readsAs_split hdigits (by omega) (by omega)
    next =>
      split
      next h =>
        obtain ⟨n, hn⟩ := Int.eq_ofNat_of_zero_le (Int.neg_nonneg.mpr h.1)
        obtain rfl : exponent = -((n : Int) + digits.length) := by omega
        rw [hn]
        exact readsAs_decimals hdigits n
      next => exact readsAs_scientific hdigits exponent

end FloatLayout

namespace FloatFormat

theorem signBit_add_mod {format : FloatFormat} {bits : Nat} (h : bits < 2 ^ format.bits) :
    format.signBit (format.isNegative bits) + bits % 2 ^ (format.bits - 1) = bits := by
  have hdouble : 2 ^ format.bits = 2 * 2 ^ (format.bits - 1) := by
    cases format <;> rfl
  have hhalf : bits / 2 ^ (format.bits - 1) < 2 := Nat.div_lt_of_lt_mul (by omega)
  have hsplit := Nat.div_add_mod bits (2 ^ (format.bits - 1))
  rw [signBit, isNegative, Nat.testBit_eq_decide_div_mod_eq, Nat.mod_eq_of_lt hhalf, Nat.pow_eq]
  generalize bits / 2 ^ (format.bits - 1) = high at *
  obtain rfl | rfl : high = 0 ∨ high = 1 := by omega
  · simpa using hsplit
  · simpa using hsplit

theorem isFinite_mod (format : FloatFormat) (bits : Nat) :
    format.isFinite (bits % 2 ^ (format.bits - 1)) = format.isFinite bits := by
  have hwidth : 2 ^ (format.bits - 1) = 2 ^ (format.precision - 1) * (format.topExponent + 1) := by
    cases format <;> rfl
  simp only [isFinite, exponentField, Nat.pow_eq, hwidth, Nat.mod_mul_right_div_self, Nat.mod_mod]

/-- What is written for finite bits is read as the same bits. -/
theorem read_write {format : FloatFormat} (layout : FloatLayout) {bits : Nat}
    (hbits : bits < 2 ^ format.bits) (hfinite : format.isFinite bits = true) :
    format.read (layout.write format bits) = some bits := by
  have hsplit := signBit_add_mod hbits
  rw [← isFinite_mod] at hfinite
  have hrange : bits % 2 ^ (format.bits - 1) < 2 ^ (format.bits - 1) :=
    Nat.mod_lt _ (Nat.pow_pos (by decide))
  have hwrite : layout.write format bits = FloatLayout.signed (format.isNegative bits)
      (if bits % 2 ^ (format.bits - 1) = 0 then [0x30, Ascii.point, 0x30]
        else layout.place (decimal (format.shortest layout.tie (bits % 2 ^ (format.bits - 1))).digits)
          (format.shortest layout.tie (bits % 2 ^ (format.bits - 1))).exponent) := rfl
  rw [hwrite]
  generalize bits % 2 ^ (format.bits - 1) = magnitude at *
  by_cases hzero : magnitude = 0
  · rw [if_pos hzero, ← hsplit, hzero]
    cases format.isNegative bits <;> cases format <;> rfl
  · rw [if_neg hzero]
    have hpos : 0 < magnitude := Nat.pos_of_ne_zero hzero
    obtain ⟨hdigits, hrounds⟩ := shortest_rounds layout.tie hpos hrange hfinite
    obtain ⟨number, hread, hnegative, hnumber, hvalue⟩ := layout.readsAs_place
      (isDigitText_decimal (format.shortest layout.tie magnitude).digits)
      (format.shortest layout.tie magnitude).exponent (format.isNegative bits)
    rw [digitsValue_decimal] at hvalue
    have htoRat : number.toRat = (format.shortest layout.tie magnitude).toRat := hvalue
    have hnonzero : 0 < digitsValue number.digits := by
      refine Nat.pos_of_ne_zero fun hnone => ?_
      have hshort : 0 < (format.shortest layout.tie magnitude).toRat :=
        mul_pos (by exact_mod_cast hdigits) (DecimalNumber.powerOfTen_pos _)
      rw [← htoRat, DecimalNumber.toRat, hnone] at hshort
      simp at hshort
    have hmagnitude := DecimalNumber.magnitudeBits_eq hnumber hnonzero hpos (htoRat ▸ hrounds)
    simp only [read, hread, Option.bind_eq_bind, Option.bind_some, hmagnitude, hnegative]
    exact congrArg some hsplit

end FloatFormat

theorem FloatLayout.isNumeric_place (layout : FloatLayout) {digits : Bytes}
    (hdigits : ∀ byte ∈ digits, isDigit byte = true) (exponent : Int) :
    ∀ byte ∈ layout.place digits exponent, isNumeric byte = true := by
  have hnumeric : ∀ byte ∈ digits, isNumeric byte = true := fun byte hmem =>
    isNumeric_of_isDigit (hdigits byte hmem)
  have hzeros (count : Int) : ∀ byte ∈ zeros count, isNumeric byte = true := fun byte hmem =>
    isNumeric_of_isDigit (isDigit_zeros count byte hmem)
  have hpoint : isNumeric Ascii.point = true := rfl
  simp only [place]
  split
  · simp only [List.forall_mem_append, List.forall_mem_cons]
    exact ⟨⟨hnumeric, hzeros _⟩, hpoint, rfl, by simp⟩
  · split
    · simp only [List.forall_mem_append, List.forall_mem_cons]
      exact ⟨fun byte hmem => hnumeric byte (List.mem_of_mem_take hmem), hpoint,
        fun byte hmem => hnumeric byte (List.mem_of_mem_drop hmem)⟩
    · split
      · simp only [List.forall_mem_append, List.forall_mem_cons, List.cons_append]
        exact ⟨rfl, hpoint, hzeros _, hnumeric⟩
      · have hpower := isNumeric_decimalInt (digits.length + exponent - 1)
        cases digits with
        | nil => simp [scientific]
        | cons digit rest =>
          have hdigit := hnumeric digit (by simp)
          cases rest with
          | nil =>
            simp only [scientific, List.forall_mem_cons]
            exact ⟨hdigit, rfl, hpower⟩
          | cons second rest =>
            simp only [scientific, List.forall_mem_append, List.forall_mem_cons, List.cons_append]
            exact ⟨hdigit, hpoint, hnumeric second (by simp),
              fun byte hmem => hnumeric byte (by simp [hmem]), rfl, hpower⟩

theorem FloatLayout.isNumeric_write (layout : FloatLayout) (format : FloatFormat) (bits : Nat) :
    ∀ byte ∈ layout.write format bits, isNumeric byte = true := by
  have hunsigned : ∀ byte ∈ (if bits % Nat.pow 2 (format.bits - 1) = 0 then [0x30, Ascii.point, 0x30]
      else layout.place (decimal (format.shortest layout.tie (bits % Nat.pow 2 (format.bits - 1))).digits)
        (format.shortest layout.tie (bits % Nat.pow 2 (format.bits - 1))).exponent),
      isNumeric byte = true := by
    split
    · exact List.all_eq_true.mp rfl
    · exact layout.isNumeric_place (isDigitText_decimal _).2 _
  simp only [write]
  split
  · exact List.forall_mem_cons.mpr ⟨rfl, hunsigned⟩
  · exact hunsigned

end SchemaJson
