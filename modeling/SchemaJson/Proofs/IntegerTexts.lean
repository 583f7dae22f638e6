import Mathlib.Data.List.Induction
import Mathlib.Data.Nat.Digits.Defs
import SchemaJson.Json.Decode
import SchemaJson.Proofs.DecimalText

/-! Which texts are read as integers. A kind reads exactly the digits with a sign it has whose
number, taken into the word of the kind, lies in its range. -/

namespace SchemaJson

/-- The number that digits write in base ten, the last of them being the lowest. -/
def numeral (digits : Bytes) : Nat := Nat.ofDigits 10 (digits.reverse.map digitValue)

/-- The text is one digit or more behind at most one sign, a minus only where that is allowed, and
writes the number. -/
inductive WritesInteger (allowsMinus : Bool) : Bytes → Int → Prop
  | plain {digits : Bytes} : IsDigitText digits → WritesInteger allowsMinus digits (numeral digits)
  | plus {digits : Bytes} : IsDigitText digits →
      WritesInteger allowsMinus (Ascii.plus :: digits) (numeral digits)
  | minus {digits : Bytes} : allowsMinus = true → IsDigitText digits →
      WritesInteger allowsMinus (Ascii.minus :: digits) (-numeral digits)

/-- The number as the word of the kind has it. A signed word wraps around; an unsigned number that
does not fit its word is in the range of no kind. -/
def IntegerKind.inWord (kind : IntegerKind) (n : Int) : Int :=
  if kind.isSigned then n.bmod (2 ^ 64) else n

theorem numeral_eq (digits : Bytes) : numeral digits = digitsValue digits := by
  induction digits using List.reverseRecOn with
  | nil => rfl
  | append_singleton digits byte ih =>
    have hlast : digitsValue [byte] = digitValue byte := by simp [digitsValue]
    have hsplit := digitsValue_append digits [byte]
    rw [hlast, ← ih, List.length_singleton, pow_one] at hsplit
    rw [hsplit, numeral, List.reverse_append, List.reverse_singleton, List.singleton_append,
      List.map_cons, Nat.ofDigits_cons, numeral]
    omega

theorem sign_of_isDigitText {digits : Bytes} (h : IsDigitText digits) :
    SignedPrefix.sign digits = (false, 0, digits) := by
  obtain ⟨byte, rest, rfl, hbyte⟩ := h.exists_cons
  have hminus : (byte == Ascii.minus) = false := by simpa using isDigit_ne hbyte rfl
  have hplus : (byte == Ascii.plus) = false := by simpa using isDigit_ne hbyte rfl
  simp [SignedPrefix.sign, hminus, hplus]

theorem writesInteger_of_sign {text : Bytes} (h : IsDigitText (SignedPrefix.sign text).2.2) :
    WritesInteger true text (if (SignedPrefix.sign text).1
      then -(numeral (SignedPrefix.sign text).2.2 : Int)
      else numeral (SignedPrefix.sign text).2.2) := by
  cases text with
  | nil => exact absurd rfl h.1
  | cons byte rest =>
    by_cases hminus : byte = Ascii.minus
    · subst hminus
      exact .minus rfl h
    · by_cases hplus : byte = Ascii.plus
      · subst hplus
        exact .plus h
      · have hsign : SignedPrefix.sign (byte :: rest) = (false, 0, byte :: rest) := by
          simp [SignedPrefix.sign, hminus, hplus]
        rw [hsign] at h ⊢
        exact .plain h

theorem length_of_sign (text : Bytes) :
    (SignedPrefix.sign text).2.1 + (SignedPrefix.sign text).2.2.length = text.length := by
  cases text with
  | nil => rfl
  | cons byte rest =>
    simp only [SignedPrefix.sign]
    split_ifs
    · exact Nat.add_comm 1 _
    · exact Nat.add_comm 1 _
    · exact Nat.zero_add _

/-- A text is read whole where nothing but digits stands behind its sign. -/
theorem readSigned_of_isDigitText {text : Bytes}
    (h : IsDigitText (SignedPrefix.sign text).2.2) : readSigned text =
      some (if (SignedPrefix.sign text).1 then -Int64.ofInt (numeral (SignedPrefix.sign text).2.2)
        else Int64.ofInt (numeral (SignedPrefix.sign text).2.2)) := by
  rw [numeral_eq]
  exact readSigned_of_sign rfl h (length_of_sign text)

theorem isDigitText_of_readSigned {text : Bytes} {word : Int64} (h : readSigned text = some word) :
    IsDigitText (SignedPrefix.sign text).2.2 := by
  have hlength := length_of_sign text
  simp only [readSigned, SignedPrefix.read_eq] at h
  obtain ⟨⟨hsome, hall⟩, -⟩ := Option.ite_none_right_eq_some.mp h
  -- As many digits as bytes behind the sign leave no room for any other byte.
  have hdigits : ((SignedPrefix.sign text).2.2.takeWhile isDigit).length
      = (SignedPrefix.sign text).2.2.length := Nat.add_left_cancel (hall.trans hlength.symm)
  have htake := (List.takeWhile_prefix isDigit).eq_of_length hdigits
  rw [htake] at hsome
  exact ⟨List.ne_nil_of_length_pos hsome, List.takeWhile_eq_self_iff.mp htake⟩

theorem toInt_signedWord (negative : Bool) (n : Nat) :
    (if negative then -Int64.ofInt n else Int64.ofInt n).toInt
      = (if negative then -(n : Int) else n).bmod (2 ^ 64) := by
  cases negative with
  | true =>
    rw [if_pos rfl, if_pos rfl, ← Int64.ofInt_neg]
    exact Int64.toInt_ofInt
  | false => exact Int64.toInt_ofInt

theorem isDigitText_sign_of_writesInteger {text : Bytes} {n : Int} (h : WritesInteger true text n) :
    IsDigitText (SignedPrefix.sign text).2.2 := by
  cases h with
  | plain hdigits =>
    rw [sign_of_isDigitText hdigits]
    exact hdigits
  | plus hdigits => exact hdigits
  | minus _ hdigits => exact hdigits

/-- No text writes two numbers, for no sign is a digit. -/
theorem WritesInteger.unique {allowsMinus : Bool} {text : Bytes} {m n : Int}
    (hm : WritesInteger allowsMinus text m) (hn : WritesInteger allowsMinus text n) : m = n := by
  have hsign {sign : UInt8} {digits : Bytes} (h : IsDigitText (sign :: digits))
      (hdigit : isDigit sign = false) : False := by
    rw [h.2 sign (by simp)] at hdigit
    cases hdigit
  cases hm with
  | plain hdigits =>
    cases hn with
    | plain => rfl
    | plus => exact (hsign hdigits rfl).elim
    | minus => exact (hsign hdigits rfl).elim
  | plus =>
    cases hn with
    | plain hdigits => exact (hsign hdigits rfl).elim
    | plus => rfl
  | minus =>
    cases hn with
    | plain hdigits => exact (hsign hdigits rfl).elim
    | minus => rfl

theorem readSigned_eq_some_iff {text : Bytes} {n : Int} :
    (readSigned text).map Int64.toInt = some n ↔
      ∃ m, WritesInteger true text m ∧ n = m.bmod (2 ^ 64) := by
  constructor
  · intro h
    obtain ⟨word, hword, rfl⟩ := Option.map_eq_some_iff.mp h
    have hdigits := isDigitText_of_readSigned hword
    rw [readSigned_of_isDigitText hdigits] at hword
    obtain rfl := Option.some.inj hword
    exact ⟨_, writesInteger_of_sign hdigits, toInt_signedWord _ _⟩
  · rintro ⟨m, hwrites, rfl⟩
    have hdigits := isDigitText_sign_of_writesInteger hwrites
    rw [readSigned_of_isDigitText hdigits, Option.map_some, toInt_signedWord,
      hwrites.unique (writesInteger_of_sign hdigits)]

theorem withoutPlus_of_isDigitText {digits : Bytes} (h : IsDigitText digits) :
    withoutPlus digits = digits := by
  obtain ⟨byte, rest, rfl, hbyte⟩ := h.exists_cons
  rw [withoutPlus, if_neg (by simpa using isDigit_ne hbyte rfl)]

theorem writesInteger_withoutPlus {text : Bytes} (h : IsDigitText (withoutPlus text)) :
    WritesInteger false text (numeral (withoutPlus text)) := by
  cases text with
  | nil => exact absurd rfl h.1
  | cons byte rest =>
    simp only [withoutPlus] at h ⊢
    split_ifs at h ⊢ with hplus
    · rw [beq_iff_eq.mp hplus]
      exact .plus h
    · exact .plain h

theorem readUnsigned_eq_some_iff {text : Bytes} {n : Nat} :
    readUnsigned text = some n ↔ WritesInteger false text n ∧ n < 2 ^ 64 := by
  have hread : readUnsigned text = some n ↔ IsDigitText (withoutPlus text) ∧
      numeral (withoutPlus text) < 2 ^ 64 ∧ numeral (withoutPlus text) = n := by
    rw [readUnsigned, numeral_eq, Option.ite_none_right_eq_some, Option.some.injEq]
    constructor
    · rintro ⟨⟨hsome, hall, hsize⟩, hn⟩
      exact ⟨⟨hsome, List.all_eq_true.mp hall⟩, hsize, hn⟩
    · rintro ⟨hdigits, hsize, hn⟩
      exact ⟨⟨hdigits.1, List.all_eq_true.mpr hdigits.2, hsize⟩, hn⟩
  rw [hread]
  constructor
  · rintro ⟨hdigits, hsize, rfl⟩
    exact ⟨writesInteger_withoutPlus hdigits, hsize⟩
  · rintro ⟨hwrites, hsize⟩
    generalize hnumber : (n : Int) = m at hwrites
    cases hwrites with
    | plain hdigits =>
      obtain rfl := Int.ofNat.inj hnumber
      rw [withoutPlus_of_isDigitText hdigits]
      exact ⟨hdigits, hsize, rfl⟩
    | plus hdigits =>
      obtain rfl := Int.ofNat.inj hnumber
      exact ⟨hdigits, hsize, rfl⟩
    | minus hallows => cases hallows

theorem WritesInteger.nonneg {text : Bytes} {n : Int} (h : WritesInteger false text n) : 0 ≤ n := by
  cases h with
  | plain => exact Int.natCast_nonneg _
  | plus => exact Int.natCast_nonneg _
  | minus hallows => cases hallows

namespace IntegerKind

theorem greatest_lt_of_unsigned {kind : IntegerKind} (h : kind.isSigned = false) :
    kind.greatest < 2 ^ 64 := by
  cases kind with
  | u8 | u16 | u32 | u64 => decide
  | i8 | i16 | i32 | i64 => cases h

theorem read_eq_some_iff {kind : IntegerKind} {text : Bytes} {n : Int} :
    kind.read text = some n ↔
      ∃ m, WritesInteger kind.isSigned text m ∧ kind.holds n = true ∧ n = kind.inWord m := by
  have hrange (found : Option Int) : (found.bind fun m => if kind.holds m then some m else none)
      = some n ↔ found = some n ∧ kind.holds n = true := by
    rw [Option.bind_eq_some_iff]
    constructor
    · rintro ⟨m, hm, h⟩
      obtain ⟨hholds, hsome⟩ := Option.ite_none_right_eq_some.mp h
      obtain rfl := Option.some.inj hsome
      exact ⟨hm, hholds⟩
    · rintro ⟨hn, hholds⟩
      exact ⟨n, hn, if_pos hholds⟩
  cases hsigned : kind.isSigned with
  | true =>
    simp only [read, inWord, hsigned, if_true, Option.bind_eq_bind, hrange, readSigned_eq_some_iff]
    constructor
    · rintro ⟨⟨m, hwrites, hword⟩, hholds⟩
      exact ⟨m, hwrites, hholds, hword⟩
    · rintro ⟨m, hwrites, hholds, hword⟩
      exact ⟨⟨m, hwrites, hword⟩, hholds⟩
  | false =>
    simp only [read, inWord, hsigned, Bool.false_eq_true, if_false, Option.bind_eq_bind, hrange,
      Option.map_eq_some_iff, readUnsigned_eq_some_iff]
    constructor
    · rintro ⟨⟨k, ⟨hwrites, -⟩, rfl⟩, hholds⟩
      exact ⟨_, hwrites, hholds, rfl⟩
    · rintro ⟨m, hwrites, hholds, rfl⟩
      obtain ⟨k, rfl⟩ := Int.eq_ofNat_of_zero_le hwrites.nonneg
      have hbounds := hholds
      simp only [holds, Bool.and_eq_true, decide_eq_true_eq] at hbounds
      have hword := greatest_lt_of_unsigned hsigned
      exact ⟨⟨k, ⟨hwrites, by omega⟩, rfl⟩, hholds⟩

end IntegerKind

/-- An integer kind reads exactly the texts that write a number whose word it holds. The word is the
number itself for every unsigned kind, and for a signed one where the number is in 64 bits. -/
theorem NumberKind.read_integer_iff (kind : IntegerKind) (text : Bytes) :
    (∀ content, (NumberKind.integer kind).read text = some content ↔
      ∃ n, WritesInteger kind.isSigned text n ∧ kind.holds (kind.inWord n) = true ∧
        content = .integer kind (kind.inWord n)) ∧
    ∀ n, WritesInteger kind.isSigned text n →
      (kind.isSigned = true → -2 ^ 63 ≤ n ∧ n < 2 ^ 63) →
      ∀ content, (NumberKind.integer kind).read text = some content ↔
        kind.holds n = true ∧ content = .integer kind n := by
  have hread (content : Scalar) : (NumberKind.integer kind).read text = some content ↔
      ∃ n, WritesInteger kind.isSigned text n ∧ kind.holds (kind.inWord n) = true ∧
        content = .integer kind (kind.inWord n) := by
    simp only [NumberKind.read, Option.map_eq_some_iff, IntegerKind.read_eq_some_iff]
    constructor
    · rintro ⟨_, ⟨n, hwrites, hholds, rfl⟩, rfl⟩
      exact ⟨n, hwrites, hholds, rfl⟩
    · rintro ⟨n, hwrites, hholds, rfl⟩
      exact ⟨_, ⟨n, hwrites, hholds, rfl⟩, rfl⟩
  refine ⟨hread, fun n hwrites hfits content => ?_⟩
  have hword : kind.inWord n = n := by
    rw [IntegerKind.inWord]
    split
    next hsigned =>
      obtain ⟨hlow, hhigh⟩ := hfits hsigned
      apply Int.bmod_eq_of_le
      · omega
      · omega
    next => rfl
  rw [hread content]
  constructor
  · rintro ⟨m, hother, hholds, rfl⟩
    obtain rfl := hother.unique hwrites
    rw [hword] at hholds ⊢
    exact ⟨hholds, rfl⟩
  · rintro ⟨hholds, rfl⟩
    exact ⟨n, hwrites, hword.symm ▸ hholds, by rw [hword]⟩

theorem leastByte_read :
    (NumberKind.integer .i8).read (Bytes.ofString "-0128") = some (.integer .i8 (-128)) := by
  have hdigits : IsDigitText (Bytes.ofString "0128") := ⟨by decide, List.all_eq_true.mp rfl⟩
  exact ((NumberKind.read_integer_iff .i8 _).2 (-128) (.minus rfl hdigits)
    (fun _ => by decide) _).mpr ⟨rfl, rfl⟩

/-- A number past the signed word is read as what is left of it there. -/
theorem wrappedNumber_read :
    ¬ ((NumberKind.integer .i8).read (Bytes.ofString "18446744073709551621")
        = some (.integer .i8 5) ↔
      ∃ n, WritesInteger true (Bytes.ofString "18446744073709551621") n ∧
        IntegerKind.i8.holds n = true ∧ Scalar.integer .i8 5 = .integer .i8 n) := by
  have hdigits : IsDigitText (Bytes.ofString "18446744073709551621") :=
    ⟨by decide, List.all_eq_true.mp rfl⟩
  have hwrites : WritesInteger true (Bytes.ofString "18446744073709551621") _ := .plain hdigits
  intro h
  obtain ⟨n, hother, hholds, -⟩ := h.mp rfl
  obtain rfl := hother.unique hwrites
  cases hholds

end SchemaJson
