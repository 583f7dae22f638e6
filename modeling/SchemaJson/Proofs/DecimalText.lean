import Mathlib.Data.List.TakeWhile
import Mathlib.Tactic.Ring
import SchemaJson.Number.Integer

/-! Decimal text reads back. The digits of a number have its value, and the text of an integer is
read as the integer by every kind that holds it. -/

namespace SchemaJson

/-- One digit or more. -/
def IsDigitText (text : Bytes) : Prop := text ≠ [] ∧ ∀ byte ∈ text, isDigit byte = true

theorem toNat_digitByte {digit : Nat} (h : digit < 10) : (digitByte digit).toNat = 0x30 + digit := by
  rw [digitByte, UInt8.toNat_ofNat']
  omega

theorem isDigit_digitByte {digit : Nat} (h : digit < 10) : isDigit (digitByte digit) = true := by
  have hbyte := toNat_digitByte h
  simp only [isDigit, Bool.and_eq_true, decide_eq_true_eq, UInt8.le_iff_toNat_le, hbyte]
  constructor
  · show 48 ≤ 48 + digit
    omega
  · show 48 + digit ≤ 57
    omega

theorem digitValue_digitByte {digit : Nat} (h : digit < 10) : digitValue (digitByte digit) = digit := by
  rw [digitValue, toNat_digitByte h]
  omega

theorem digitValue_lt {byte : UInt8} (h : isDigit byte = true) : digitValue byte < 10 := by
  simp only [isDigit, Bool.and_eq_true, decide_eq_true_eq, UInt8.le_iff_toNat_le] at h
  have hhigh : byte.toNat ≤ 57 := h.2
  rw [digitValue]
  omega

theorem foldl_digits (text : Bytes) (start : Nat) :
    text.foldl (fun value byte => 10 * value + digitValue byte) start
      = start * 10 ^ text.length + digitsValue text := by
  induction text generalizing start with
  | nil => simp [digitsValue]
  | cons byte text ih =>
    rw [digitsValue, List.foldl_cons, List.foldl_cons, ih, ih (10 * 0 + digitValue byte),
      List.length_cons, pow_succ]
    ring

theorem digitsValue_append (first second : Bytes) :
    digitsValue (first ++ second)
      = digitsValue first * 10 ^ second.length + digitsValue second := by
  rw [digitsValue, List.foldl_append, foldl_digits]
  rfl

theorem digitsValue_lt {text : Bytes} (h : ∀ byte ∈ text, isDigit byte = true) :
    digitsValue text < 10 ^ text.length := by
  induction text with
  | nil => simp [digitsValue]
  | cons byte text ih =>
    have hrest := ih fun other hmem => h other (by simp [hmem])
    have hbyte := digitValue_lt (h byte (by simp))
    have hsplit := digitsValue_append [byte] text
    have hone : digitsValue [byte] = digitValue byte := by simp [digitsValue]
    rw [List.singleton_append, hone] at hsplit
    calc digitsValue (byte :: text) = digitValue byte * 10 ^ text.length + digitsValue text := hsplit
      _ < (digitValue byte + 1) * 10 ^ text.length := by rw [Nat.succ_mul]; omega
      _ ≤ 10 * 10 ^ text.length := Nat.mul_le_mul_right _ hbyte
      _ = 10 ^ (byte :: text).length := by rw [List.length_cons, pow_succ, Nat.mul_comm]

theorem digitsValue_zeros (count : Nat) : digitsValue (List.replicate count 0x30) = 0 := by
  induction count with
  | zero => rfl
  | succ count ih =>
    rw [List.replicate_succ', digitsValue_append, ih]
    simp [digitsValue, digitValue]

theorem isDigitText_decimal (n : Nat) : IsDigitText (decimal n) := by
  induction n using Nat.strong_induction_on with
  | _ n ih =>
    rw [decimal]
    split
    next h => exact ⟨by simp, by simp [isDigit_digitByte h]⟩
    next h =>
      have hrest := ih (n / 10) (by omega)
      refine ⟨by simp, fun byte hmem => ?_⟩
      rcases List.mem_append.mp hmem with hmem | hmem
      · exact hrest.2 byte hmem
      · rw [List.mem_singleton.mp hmem]
        exact isDigit_digitByte (by omega)

theorem digitsValue_decimal (n : Nat) : digitsValue (decimal n) = n := by
  induction n using Nat.strong_induction_on with
  | _ n ih =>
    rw [decimal]
    split
    next h => simp [digitsValue, digitValue_digitByte h]
    next h =>
      have hlast : digitsValue [digitByte (n % 10)] = n % 10 := by
        simp [digitsValue, digitValue_digitByte (show n % 10 < 10 by omega)]
      rw [digitsValue_append, ih (n / 10) (by omega), hlast]
      simp only [List.length_cons, List.length_nil]
      omega

theorem isDigit_ne {byte other : UInt8} (h : isDigit byte = true) (hother : isDigit other = false) :
    byte ≠ other := by
  rintro rfl
  rw [h] at hother
  cases hother

theorem IsDigitText.exists_cons {text : Bytes} (h : IsDigitText text) :
    ∃ byte rest, text = byte :: rest ∧ isDigit byte = true := by
  cases text with
  | nil => exact absurd rfl h.1
  | cons byte rest => exact ⟨byte, rest, rfl, h.2 byte (by simp)⟩

theorem IsDigitText.takeWhile_eq {text : Bytes} (h : IsDigitText text) :
    text.takeWhile isDigit = text :=
  List.takeWhile_eq_self_iff.mpr h.2

namespace SignedPrefix

/-- Whether a minus sign is written, the length of the sign, and what follows it. -/
def sign : Bytes → Bool × Nat × Bytes
  | [] => (false, 0, [])
  | byte :: rest =>
    if byte == Ascii.minus then (true, 1, rest)
    else if byte == Ascii.plus then (false, 1, rest)
    else (false, 0, byte :: rest)

def wrapped (digits : Bytes) : Int64 :=
  digits.foldl (fun value byte => value * 10 + Int64.ofNat (digitValue byte)) 0

end SignedPrefix

/-- Past the place of a sign, the digits up to any other byte are taken. -/
theorem SignedReader.run_eq {reader : SignedReader} {text : Bytes}
    (h : reader.taken = 0 → ∀ byte ∈ text.head?, byte ≠ Ascii.minus ∧ byte ≠ Ascii.plus) :
    reader.run text = { reader with
      word := (text.takeWhile isDigit).foldl
        (fun value byte => value * 10 + Int64.ofNat (digitValue byte)) reader.word
      taken := reader.taken + (text.takeWhile isDigit).length
      digits := reader.digits + (text.takeWhile isDigit).length } := by
  induction text generalizing reader with
  | nil => rfl
  | cons byte rest ih =>
    rw [run, step]
    by_cases hdigit : isDigit byte = true
    · rw [if_pos hdigit, List.takeWhile_cons_of_pos hdigit]
      dsimp only
      rw [ih fun hzero => absurd hzero (Nat.succ_ne_zero _)]
      simp only [List.foldl_cons, List.length_cons, Nat.add_assoc, Nat.add_comm 1]
    · have hstop : (if byte = Ascii.minus then
            if reader.taken = 0 then some { reader with negative := true, taken := 1 } else none
          else if byte = Ascii.plus then
            if reader.taken = 0 then some { reader with taken := 1 } else none
          else none) = none := by
        have hsign (hzero : reader.taken = 0) := h hzero byte rfl
        split_ifs with hminus hzero hplus hzero
        · exact absurd hminus (hsign hzero).1
        · rfl
        · exact absurd hplus (hsign hzero).2
        · rfl
        · rfl
      rw [if_neg hdigit, List.takeWhile_cons_of_neg hdigit, hstop]
      rfl

/-- A sign, if there is one, and the digits behind it are read. -/
theorem SignedPrefix.read_eq (text : Bytes) : read text =
    { value := if (sign text).1 then -wrapped ((sign text).2.2.takeWhile isDigit)
        else wrapped ((sign text).2.2.takeWhile isDigit)
      length := (sign text).2.1 + ((sign text).2.2.takeWhile isDigit).length
      digits := ((sign text).2.2.takeWhile isDigit).length } := by
  have hplain (front : Bytes)
      (hfront : ∀ byte ∈ front.head?, byte ≠ Ascii.minus ∧ byte ≠ Ascii.plus) :
      SignedReader.start.run front = ⟨wrapped (front.takeWhile isDigit),
        0 + (front.takeWhile isDigit).length, false, 0 + (front.takeWhile isDigit).length⟩ :=
    SignedReader.run_eq fun _ => hfront
  have hbehind (negative : Bool) (front : Bytes) :
      SignedReader.run ⟨0, 1, negative, 0⟩ front = ⟨wrapped (front.takeWhile isDigit),
        1 + (front.takeWhile isDigit).length, negative, 0 + (front.takeWhile isDigit).length⟩ :=
    SignedReader.run_eq fun hzero => absurd hzero Nat.one_ne_zero
  cases text with
  | nil => rfl
  | cons byte rest =>
    by_cases hminus : byte = Ascii.minus
    · subst hminus
      have hrun : SignedReader.start.run (Ascii.minus :: rest)
          = SignedReader.run ⟨0, 1, true, 0⟩ rest := rfl
      rw [read, hrun, hbehind, Nat.zero_add]
      rfl
    by_cases hplus : byte = Ascii.plus
    · subst hplus
      have hrun : SignedReader.start.run (Ascii.plus :: rest)
          = SignedReader.run ⟨0, 1, false, 0⟩ rest := rfl
      rw [read, hrun, hbehind, Nat.zero_add]
      rfl
    · have hsign : sign (byte :: rest) = (false, 0, byte :: rest) := by
        simp [sign, hminus, hplus]
      rw [read, hsign, hplain _ (by simp [hminus, hplus]), Nat.zero_add]

theorem SignedPrefix.wrapped_eq (digits : Bytes) : wrapped digits = Int64.ofInt (digitsValue digits) := by
  have hfold (start : Nat) : digits.foldl
      (fun value byte => value * 10 + Int64.ofNat (digitValue byte)) (Int64.ofInt start)
      = Int64.ofInt (digits.foldl (fun value byte => 10 * value + digitValue byte) start : Nat) := by
    induction digits generalizing start with
    | nil => rfl
    | cons byte digits ih =>
      have hstep : Int64.ofInt start * 10 + Int64.ofNat (digitValue byte)
          = Int64.ofInt (10 * start + digitValue byte : Nat) := by
        rw [Nat.cast_add, Nat.cast_mul, Int64.ofInt_add, Int64.ofInt_mul, Int64.mul_comm]
        rfl
      rw [List.foldl_cons, List.foldl_cons, hstep, ih]
  exact hfold 0

theorem readSigned_of_sign {text digits : Bytes} {negative : Bool} {length : Nat}
    (hsign : SignedPrefix.sign text = (negative, length, digits)) (hdigits : IsDigitText digits)
    (hlength : length + digits.length = text.length) :
    readSigned text = some (if negative then -Int64.ofInt (digitsValue digits)
      else Int64.ofInt (digitsValue digits)) := by
  have hsome : 0 < digits.length := List.length_pos_iff.mpr hdigits.1
  simp only [readSigned, SignedPrefix.read_eq, hsign, hdigits.takeWhile_eq, SignedPrefix.wrapped_eq]
  rw [if_pos ⟨hsome, hlength⟩]

theorem readSigned_decimalInt {n : Int} (hlow : -2 ^ 63 ≤ n) (hhigh : n < 2 ^ 63) :
    (readSigned (decimalInt n)).map Int64.toInt = some n := by
  have hword : readSigned (decimalInt n) = some (Int64.ofInt n) := by
    cases n with
    | ofNat k =>
      obtain ⟨byte, rest, hdecimal, hbyte⟩ := (isDigitText_decimal k).exists_cons
      have hsign : SignedPrefix.sign (decimal k) = (false, 0, decimal k) := by
        have hminus : (byte == Ascii.minus) = false := by simpa using isDigit_ne hbyte rfl
        have hplus : (byte == Ascii.plus) = false := by simpa using isDigit_ne hbyte rfl
        simp [hdecimal, SignedPrefix.sign, hminus, hplus]
      rw [decimalInt, readSigned_of_sign hsign (isDigitText_decimal k) (Nat.zero_add _),
        digitsValue_decimal]
      rfl
    | negSucc k =>
      have hsign : SignedPrefix.sign (Ascii.minus :: decimal (k + 1)) = (true, 1, decimal (k + 1)) := by
        simp [SignedPrefix.sign]
      rw [decimalInt, readSigned_of_sign hsign (isDigitText_decimal (k + 1))
        (by rw [List.length_cons, Nat.add_comm]), digitsValue_decimal, if_pos rfl, ← Int64.ofInt_neg]
      rfl
  rw [hword, Option.map_some, Int64.toInt_ofInt_of_le hlow hhigh]

theorem readUnsigned_decimal {n : Nat} (h : n < UInt64.size) : readUnsigned (decimal n) = some n := by
  have hdigits := isDigitText_decimal n
  obtain ⟨byte, rest, hdecimal, hbyte⟩ := hdigits.exists_cons
  have hplus : withoutPlus (decimal n) = decimal n := by
    rw [hdecimal, withoutPlus, if_neg (by simpa using isDigit_ne hbyte rfl)]
  have hall : (decimal n).all isDigit = true := List.all_eq_true.mpr hdigits.2
  simp only [readUnsigned, hplus, digitsValue_decimal]
  rw [if_pos ⟨hdigits.1, hall, h⟩]

/-- Every kind reads the text of the integers it holds. -/
theorem IntegerKind.read_decimalInt {kind : IntegerKind} {n : Int} (h : kind.holds n = true) :
    kind.read (decimalInt n) = some n := by
  have hbounds := h
  simp only [holds, Bool.and_eq_true, decide_eq_true_eq] at hbounds
  cases hsigned : kind.isSigned with
  | true =>
    have hword : -2 ^ 63 ≤ kind.least ∧ kind.greatest < 2 ^ 63 := by
      cases kind <;> first | decide | cases hsigned
    have hread := readSigned_decimalInt (hword.1.trans hbounds.1) (hbounds.2.trans_lt hword.2)
    simp [read, hsigned, hread, h]
  | false =>
    have hword : kind.least = 0 ∧ kind.greatest < 2 ^ 64 := by
      cases kind <;> first | decide | cases hsigned
    obtain ⟨k, rfl⟩ := Int.eq_ofNat_of_zero_le (hword.1 ▸ hbounds.1)
    have hsize : k < UInt64.size := by
      have hlt := hbounds.2.trans_lt hword.2
      exact_mod_cast hlt
    have hread : readUnsigned (decimalInt k) = some k := readUnsigned_decimal hsize
    simp [read, hsigned, hread, h]

/-- The bytes that numbers are written with. -/
def isNumeric (byte : UInt8) : Bool :=
  isDigit byte || byte == Ascii.minus || byte == Ascii.point || byte == 0x65

theorem isNumeric_of_isDigit {byte : UInt8} (h : isDigit byte = true) : isNumeric byte = true := by
  simp [isNumeric, h]

theorem isNumeric_decimalInt (n : Int) : ∀ byte ∈ decimalInt n, isNumeric byte = true := by
  cases n with
  | ofNat k => exact fun byte hmem => isNumeric_of_isDigit ((isDigitText_decimal k).2 byte hmem)
  | negSucc k =>
    intro byte hmem
    rcases List.mem_cons.mp hmem with rfl | hmem
    · rfl
    · exact isNumeric_of_isDigit ((isDigitText_decimal (k + 1)).2 byte hmem)

end SchemaJson
