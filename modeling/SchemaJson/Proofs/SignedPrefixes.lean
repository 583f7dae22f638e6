import Mathlib.Data.Int.ModEq
import SchemaJson.Proofs.IntegerTexts

/-! What is read at the front of a text as a signed integer: the longest part of it that is a sign and
digits, and the word that the number of those digits leaves in 64 bits. -/

namespace SchemaJson

/-- The text is the digits behind at most one sign. Neither has to be there. -/
inductive IsSignedDigits : (negative : Bool) → (digits : Bytes) → Bytes → Prop
  | plain {digits : Bytes} : (∀ byte ∈ digits, isDigit byte = true) →
      IsSignedDigits false digits digits
  | plus {digits : Bytes} : (∀ byte ∈ digits, isDigit byte = true) →
      IsSignedDigits false digits (Ascii.plus :: digits)
  | minus {digits : Bytes} : (∀ byte ∈ digits, isDigit byte = true) →
      IsSignedDigits true digits (Ascii.minus :: digits)

/-- The number that the digits write behind the sign. -/
def signedNumeral (negative : Bool) (digits : Bytes) : Int :=
  if negative then -numeral digits else numeral digits

/-- The decimal text of an integer with zeros in front of its digits. -/
def paddedDecimal (zeros : Nat) : Int → Bytes
  | .ofNat n => List.replicate zeros 0x30 ++ decimal n
  | .negSucc n => Ascii.minus :: (List.replicate zeros 0x30 ++ decimal (n + 1))

theorem isDigit_of_mem_takeWhile (text : Bytes) :
    ∀ byte ∈ text.takeWhile isDigit, isDigit byte = true :=
  fun _ hmem => List.mem_takeWhile_imp hmem

theorem length_le_takeWhile_isDigit {digits text : Bytes} (hstarts : digits <+: text)
    (hdigits : ∀ byte ∈ digits, isDigit byte = true) :
    digits.length ≤ (text.takeWhile isDigit).length := by
  obtain ⟨rest, rfl⟩ := hstarts
  rw [List.takeWhile_append_of_pos hdigits, List.length_append]
  exact Nat.le_add_right _ _

/-- Behind its first byte such a text has digits only. -/
theorem IsSignedDigits.of_cons {negative : Bool} {digits front : Bytes} {byte : UInt8}
    (h : IsSignedDigits negative digits (byte :: front)) :
    (isDigit byte = true ∨ byte = Ascii.minus ∨ byte = Ascii.plus) ∧
      ∀ other ∈ front, isDigit other = true := by
  cases h with
  | plain hdigits =>
    obtain ⟨hbyte, hfront⟩ := List.forall_mem_cons.mp hdigits
    exact ⟨.inl hbyte, hfront⟩
  | plus hdigits => exact ⟨.inr (.inr rfl), hdigits⟩
  | minus hdigits => exact ⟨.inr (.inl rfl), hdigits⟩

namespace SignedPrefix

theorem exists_isSignedDigits (text : Bytes) : ∃ front,
    IsSignedDigits (sign text).1 ((sign text).2.2.takeWhile isDigit) front ∧ front <+: text ∧
      (read text).length = front.length := by
  have hdigits := isDigit_of_mem_takeWhile (sign text).2.2
  have hstarts := List.takeWhile_prefix isDigit (l := (sign text).2.2)
  rw [read_eq]
  cases text with
  | nil => exact ⟨[], .plain hdigits, List.prefix_rfl, rfl⟩
  | cons byte rest =>
    by_cases hminus : byte = Ascii.minus
    · subst hminus
      exact ⟨_, .minus hdigits, List.cons_prefix_cons.mpr ⟨rfl, hstarts⟩, Nat.add_comm _ _⟩
    by_cases hplus : byte = Ascii.plus
    · subst hplus
      exact ⟨_, .plus hdigits, List.cons_prefix_cons.mpr ⟨rfl, hstarts⟩, Nat.add_comm _ _⟩
    · have hsign : sign (byte :: rest) = (false, 0, byte :: rest) := by
        simp [sign, hminus, hplus]
      rw [hsign] at hdigits hstarts ⊢
      exact ⟨_, .plain hdigits, hstarts, Nat.zero_add _⟩

theorem length_le_of_isSignedDigits {text other digits : Bytes} {negative : Bool}
    (h : IsSignedDigits negative digits other) (hstarts : other <+: text) :
    other.length ≤ (read text).length := by
  rw [read_eq]
  cases other with
  | nil => exact Nat.zero_le _
  | cons byte other =>
    obtain ⟨rest, rfl⟩ := hstarts
    obtain ⟨hbyte, hother⟩ := h.of_cons
    have hlength := length_le_takeWhile_isDigit (List.prefix_append other rest) hother
    rcases hbyte with hdigit | rfl | rfl
    · have hminus : (byte == Ascii.minus) = false := by simpa using isDigit_ne hdigit rfl
      have hplus : (byte == Ascii.plus) = false := by simpa using isDigit_ne hdigit rfl
      simp only [List.cons_append, sign, hminus, hplus, Bool.false_eq_true, if_false,
        List.takeWhile_cons_of_pos hdigit, List.length_cons]
      omega
    · show other.length + 1 ≤ 1 + ((other ++ rest).takeWhile isDigit).length
      omega
    · show other.length + 1 ≤ 1 + ((other ++ rest).takeWhile isDigit).length
      omega

theorem toInt_value_read (text : Bytes) : (read text).value.toInt
    = (signedNumeral (sign text).1 ((sign text).2.2.takeWhile isDigit)).bmod (2 ^ 64) := by
  rw [read_eq, signedNumeral, numeral_eq, ← toInt_signedWord, wrapped_eq]

theorem digits_read (text : Bytes) :
    (read text).digits = ((sign text).2.2.takeWhile isDigit).length := by
  rw [read_eq]

end SignedPrefix

/-- A word is what a number leaves in 64 bits when they are the same up to multiples of the number of
words. -/
theorem eq_iff_modEq_of_toInt_eq_bmod {word value : Int64} {n : Int}
    (h : value.toInt = n.bmod (2 ^ 64)) : word = value ↔ word.toInt ≡ n [ZMOD 2 ^ 64] := by
  have hcongruent : value.toInt ≡ n [ZMOD 2 ^ 64] := by
    rw [h]
    exact Int.bmod_emod
  constructor
  · rintro rfl
    exact hcongruent
  · intro hword
    have hresidue : word.toInt % ((2 ^ 64 : Nat) : Int) = value.toInt % ((2 ^ 64 : Nat) : Int) :=
      hword.trans hcongruent.symm
    rw [← Int64.toInt_inj, ← Int64.toInt_bmod word, ← Int64.toInt_bmod value]
    calc word.toInt.bmod (2 ^ 64) = (word.toInt % ((2 ^ 64 : Nat) : Int)).bmod (2 ^ 64) :=
          (Int.emod_bmod _ _).symm
      _ = (value.toInt % ((2 ^ 64 : Nat) : Int)).bmod (2 ^ 64) := by rw [hresidue]
      _ = value.toInt.bmod (2 ^ 64) := Int.emod_bmod _ _

section Padded

variable (zeros n : Nat)

theorem isDigitText_padded : IsDigitText (List.replicate zeros 0x30 ++ decimal n) := by
  obtain ⟨hne, hdigits⟩ := isDigitText_decimal n
  refine ⟨by simp [hne], fun byte hmem => ?_⟩
  rcases List.mem_append.mp hmem with hzero | hdigit
  · rw [(List.mem_replicate.mp hzero).2]
    rfl
  · exact hdigits byte hdigit

theorem digitsValue_padded : digitsValue (List.replicate zeros 0x30 ++ decimal n) = n := by
  rw [digitsValue_append, digitsValue_zeros, Nat.zero_mul, Nat.zero_add, digitsValue_decimal]

end Padded

/-- A text that is nothing but a sign and digits is read whole. -/
theorem SignedPrefix.read_of_isDigitText {text : Bytes} (h : IsDigitText (sign text).2.2) :
    read text = ⟨if (sign text).1 then -Int64.ofInt (digitsValue (sign text).2.2)
      else Int64.ofInt (digitsValue (sign text).2.2), text.length, (sign text).2.2.length⟩ := by
  rw [read_eq, h.takeWhile_eq, length_of_sign, wrapped_eq]

theorem SignedPrefix.read_paddedDecimal (zeros : Nat) (word : Int64) :
    read (paddedDecimal zeros word.toInt) = ⟨word, (paddedDecimal zeros word.toInt).length,
      zeros + (decimal word.toInt.natAbs).length⟩ := by
  have hword := Int64.ofInt_toInt word
  generalize word.toInt = n at hword ⊢
  subst hword
  cases n with
  | ofNat n =>
    have hdigits := isDigitText_padded zeros n
    have hsign := sign_of_isDigitText hdigits
    rw [paddedDecimal, read_of_isDigitText (by rw [hsign]; exact hdigits), hsign,
      digitsValue_padded, List.length_append, List.length_replicate]
    rfl
  | negSucc n =>
    have hdigits := isDigitText_padded zeros (n + 1)
    have hsign : sign (Ascii.minus :: (List.replicate zeros 0x30 ++ decimal (n + 1)))
        = (true, 1, List.replicate zeros 0x30 ++ decimal (n + 1)) := rfl
    rw [paddedDecimal, read_of_isDigitText (by rw [hsign]; exact hdigits), hsign,
      digitsValue_padded, if_pos rfl, ← Int64.ofInt_neg, List.length_append, List.length_replicate]
    rfl

theorem SignedPrefix.read_plus_paddedDecimal (zeros : Nat) {word : Int64} (h : 0 ≤ word.toInt) :
    read (Ascii.plus :: paddedDecimal zeros word.toInt) = ⟨word,
      (paddedDecimal zeros word.toInt).length + 1, zeros + (decimal word.toInt.natAbs).length⟩ := by
  have hword := Int64.ofInt_toInt word
  generalize word.toInt = n at hword h ⊢
  subst hword
  obtain ⟨n, rfl⟩ := Int.eq_ofNat_of_zero_le h
  have hdigits := isDigitText_padded zeros n
  have hsign : sign (Ascii.plus :: (List.replicate zeros 0x30 ++ decimal n))
      = (false, 1, List.replicate zeros 0x30 ++ decimal n) := rfl
  show read (Ascii.plus :: (List.replicate zeros 0x30 ++ decimal n)) = _
  rw [read_of_isDigitText (by rw [hsign]; exact hdigits), hsign, digitsValue_padded,
    List.length_append, List.length_replicate]
  rfl

/-- The longest front of a text that is a sign and digits is read, and the value is the one word that
is the number of those digits up to multiples of `2 ^ 64`. A text that writes a word, with any zeros
in front of its digits, is read as the word, and behind a plus sign too if the word is not negative. -/
theorem longest_signed_front_is_read :
    (∀ text, ∃ negative digits front, IsSignedDigits negative digits front ∧ front <+: text ∧
      (∀ negative' digits' other, IsSignedDigits negative' digits' other → other <+: text →
        other.length ≤ front.length) ∧
      (SignedPrefix.read text).length = front.length ∧
      (SignedPrefix.read text).digits = digits.length ∧
      ∀ word : Int64, word = (SignedPrefix.read text).value ↔
        word.toInt ≡ signedNumeral negative digits [ZMOD 2 ^ 64]) ∧
    ∀ (word : Int64) (zeros : Nat),
      SignedPrefix.read (paddedDecimal zeros word.toInt) = ⟨word,
        (paddedDecimal zeros word.toInt).length, zeros + (decimal word.toInt.natAbs).length⟩ ∧
      (0 ≤ word.toInt → SignedPrefix.read (Ascii.plus :: paddedDecimal zeros word.toInt) = ⟨word,
        (paddedDecimal zeros word.toInt).length + 1,
        zeros + (decimal word.toInt.natAbs).length⟩) := by
  constructor
  · intro text
    obtain ⟨front, hfront, hstarts, hlength⟩ := SignedPrefix.exists_isSignedDigits text
    refine ⟨_, _, front, hfront, hstarts, fun _ _ _ hother hwithin => ?_, hlength,
      SignedPrefix.digits_read text, fun word => ?_⟩
    · rw [← hlength]
      exact SignedPrefix.length_le_of_isSignedDigits hother hwithin
    · exact eq_iff_modEq_of_toInt_eq_bmod (SignedPrefix.toInt_value_read text)
  · intro word zeros
    exact ⟨SignedPrefix.read_paddedDecimal zeros word, SignedPrefix.read_plus_paddedDecimal zeros⟩

/-- The least word is read behind zeros, although its digits alone are one more than any word. -/
theorem least_word_is_read :
    SignedPrefix.read (Bytes.ofString "-009223372036854775808") = ⟨Int64.minValue, 22, 21⟩ ∧
    0 ≤ (7 : Int64).toInt ∧ SignedPrefix.read (Bytes.ofString "+07") = ⟨7, 3, 2⟩ := by
  obtain ⟨-, hpadded⟩ := longest_signed_front_is_read
  have hleast : paddedDecimal 2 Int64.minValue.toInt
      = Bytes.ofString "-009223372036854775808" := by decide +kernel
  have hseven : Ascii.plus :: paddedDecimal 1 (7 : Int64).toInt = Bytes.ofString "+07" := by
    decide +kernel
  refine ⟨?_, by decide, ?_⟩
  · rw [← hleast, (hpadded Int64.minValue 2).1, hleast]
    decide +kernel
  · rw [← hseven, (hpadded 7 1).2 (by decide)]
    decide +kernel

end SchemaJson
