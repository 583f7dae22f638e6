import SchemaJson.Proofs.EscapedText
import SchemaJson.Proofs.ShortestDecimals
import SchemaJson.Proofs.StringLiterals
import SchemaJson.Proofs.WrittenValues

/-! The texts that scalars have in a document, told by what they stand for. Integers are written in
plain digits, floating-point numbers as their shortest decimal, texts as strings, and dates as their
day on the calendar and their time. Every scalar but a number that is not finite has one text, and
it is the one that is written. -/

namespace SchemaJson

theorem Bytes.ofString_ofList (chars : List Char) :
    ofString (String.ofList chars) = chars.flatMap String.utf8EncodeChar := by
  simp [ofString, ← String.utf8Encode_toList, List.utf8Encode]

theorem utf8EncodeChar_digitChar {digit : Nat} (h : digit < 10) :
    String.utf8EncodeChar digit.digitChar = [digitByte digit] := by
  revert digit
  decide

theorem ofString_toString (n : Nat) : Bytes.ofString (toString n) = decimal n := by
  have hchars : Bytes.ofString (toString n) = (Nat.toDigits 10 n).flatMap String.utf8EncodeChar :=
    Bytes.ofString_ofList _
  rw [hchars]
  induction n using Nat.strong_induction_on with
  | _ n ih =>
    rw [Nat.toDigits_eq_if (by decide), decimal]
    by_cases h : n < 10
    · rw [if_pos h, if_pos h, List.flatMap_singleton, utf8EncodeChar_digitChar h]
    · rw [if_neg h, if_neg h, List.flatMap_append, ih (n / 10) (by omega) (Bytes.ofString_ofList _),
        List.flatMap_singleton, utf8EncodeChar_digitChar (by omega)]

theorem ofString_toString_int (n : Int) : Bytes.ofString (toString n) = decimalInt n := by
  cases n with
  | ofNat n => exact ofString_toString n
  | negSucc n =>
    have hminus : toString (Int.negSucc n) = "-" ++ toString (n + 1) := rfl
    rw [hminus, Bytes.ofString_append, ofString_toString]
    rfl

/-- Powers of ten between which a number is written without an exponent. -/
def FloatFormat.positionalRange : FloatFormat → Int × Int
  | single => (-6, 13)
  | double => (-5, 16)

namespace ShortDecimal

/-- The digits with the point behind so many of them. Zeros fill up either side of the point, where
at least one digit stands. -/
def positional (digits : Bytes) (whole : Int) : Bytes :=
  let front := (max whole 1).toNat
  let padded := List.replicate (1 - whole).toNat 0x30 ++ digits
    ++ List.replicate (whole + 1 - digits.length).toNat 0x30
  padded.take front ++ Ascii.point :: padded.drop front

/-- One digit, the point and the other digits if there are any, and a power of ten. -/
def exponential (digits : Bytes) (whole : Int) : Bytes :=
  digits.take 1 ++ (if digits.length = 1 then [] else Ascii.point :: digits.drop 1)
    ++ 0x65 :: Bytes.ofString (toString (whole - 1))

def text (format : FloatFormat) (number : ShortDecimal) : Bytes :=
  let digits := Bytes.ofString (toString number.digits)
  let whole := digits.length + number.exponent
  if (10 : ℚ) ^ format.positionalRange.1 ≤ number.toRat
      ∧ number.toRat < 10 ^ format.positionalRange.2 then positional digits whole
  else exponential digits whole

theorem ten_pow_le_of_decimal {n : Nat} (hpos : 0 < n) : 10 ^ ((decimal n).length - 1) ≤ n := by
  by_contra hlt
  have hlength := List.length_pos_iff.mpr (isDigitText_decimal n).1
  rcases Nat.eq_zero_or_pos ((decimal n).length - 1) with hone | hmore
  · rw [hone] at hlt
    omega
  · have hle := length_decimal_le hmore (Nat.lt_of_not_le hlt)
    omega

/-- A number with so many digits in front of the point compares with powers of ten by them. -/
theorem ten_zpow_le_iff {number : ShortDecimal} (hpos : 0 < number.digits) (k : Int) :
    (10 : ℚ) ^ k ≤ number.toRat ↔ k < (decimal number.digits).length + number.exponent := by
  have hlength := List.length_pos_iff.mpr (isDigitText_decimal number.digits).1
  have hlow := ten_pow_le_of_decimal hpos
  have hhigh : number.digits < 10 ^ (decimal number.digits).length := by
    have hlt := digitsValue_lt (isDigitText_decimal number.digits).2
    rwa [digitsValue_decimal] at hlt
  have hpower := DecimalNumber.powerOfTen_pos number.exponent
  generalize (decimal number.digits).length = length at *
  constructor
  · intro hle
    have hlt : (10 : ℚ) ^ k < 10 ^ (length + number.exponent) := by
      rw [zpow_add₀ (by norm_num), zpow_natCast]
      refine hle.trans_lt (mul_lt_mul_of_pos_right ?_ hpower)
      exact_mod_cast hhigh
    exact (zpow_lt_zpow_iff_right₀ (by norm_num)).mp hlt
  · intro hlt
    calc (10 : ℚ) ^ k ≤ 10 ^ ((length - 1 : Nat) + number.exponent) :=
          zpow_le_zpow_right₀ (by norm_num) (by omega)
      _ = (10 ^ (length - 1) : Nat) * 10 ^ number.exponent := by
        rw [zpow_add₀ (by norm_num), zpow_natCast, Nat.cast_pow, Nat.cast_ofNat]
      _ ≤ number.toRat := mul_le_mul_of_nonneg_right (by exact_mod_cast hlow) hpower.le

theorem lt_ten_zpow_iff {number : ShortDecimal} (hpos : 0 < number.digits) (k : Int) :
    number.toRat < 10 ^ k ↔ (decimal number.digits).length + number.exponent ≤ k := by
  rw [← not_le, ten_zpow_le_iff hpos, not_lt]

variable {digits : Bytes}

theorem positional_whole (hdigits : digits ≠ []) (n : Nat) : positional digits (digits.length + n)
    = digits ++ FloatLayout.zeros n ++ [Ascii.point, 0x30] := by
  have hlength := List.length_pos_iff.mpr hdigits
  have hfront : (max ((digits.length : Int) + n) 1).toNat
      = (digits ++ FloatLayout.zeros n).length := by
    simp only [List.length_append, FloatLayout.zeros, List.length_replicate, Int.toNat_natCast]
    omega
  have hnone : (1 - ((digits.length : Int) + n)).toNat = 0 := by omega
  have hzeros : ((digits.length : Int) + n + 1 - digits.length).toNat = n + 1 := by omega
  have hpadded : digits ++ List.replicate (n + 1) 0x30 = digits ++ FloatLayout.zeros n ++ [0x30] := by
    rw [List.replicate_succ', ← List.append_assoc, FloatLayout.zeros, Int.toNat_natCast]
  simp only [positional, hnone, hzeros, hfront, List.replicate_zero, List.nil_append, hpadded,
    List.take_left, List.drop_left]

theorem positional_inside {n : Nat} (hpos : 0 < n) (hn : n < digits.length) :
    positional digits n = digits.take n ++ Ascii.point :: digits.drop n := by
  have hfront : (max (n : Int) 1).toNat = n := by omega
  have hnone : (1 - (n : Int)).toNat = 0 := by omega
  have hzeros : ((n : Int) + 1 - digits.length).toNat = 0 := by omega
  simp only [positional, hfront, hnone, hzeros, List.replicate_zero, List.nil_append,
    List.append_nil]

theorem positional_behind (hdigits : digits ≠ []) (n : Nat) : positional digits (-n)
    = 0x30 :: Ascii.point :: FloatLayout.zeros n ++ digits := by
  have hlength := List.length_pos_iff.mpr hdigits
  have hfront : (max (-(n : Int)) 1).toNat = 1 := by omega
  have hzeros : (1 - -(n : Int)).toNat = n + 1 := by omega
  have hnone : (-(n : Int) + 1 - digits.length).toNat = 0 := by omega
  simp only [positional, hfront, hzeros, hnone, List.replicate_zero, List.append_nil,
    List.replicate_succ, FloatLayout.zeros, Int.toNat_natCast]
  rfl

theorem exponential_eq (hdigits : digits ≠ []) (whole : Int) :
    exponential digits whole = FloatLayout.scientific digits (whole - 1) := by
  obtain ⟨first, rest, rfl⟩ := List.exists_cons_of_ne_nil hdigits
  rw [exponential, ofString_toString_int]
  cases rest with
  | nil => rfl
  | cons second rest => simp [FloatLayout.scientific]

/-- A document lays a number out as it is told here. -/
theorem text_eq_place {number : ShortDecimal} (format : FloatFormat) (hpos : 0 < number.digits) :
    number.text format = format.documentLayout.place (decimal number.digits) number.exponent := by
  have hdigits := (isDigitText_decimal number.digits).1
  have hlength := List.length_pos_iff.mpr hdigits
  have hrange : format.positionalRange.1 = -format.documentLayout.mostZeros - 1 ∧
      format.positionalRange.2 = format.documentLayout.mostWhole ∧
      0 ≤ format.documentLayout.mostZeros ∧ 0 < format.documentLayout.mostWhole := by
    cases format <;> decide
  simp only [text, ofString_toString, FloatLayout.place, ten_zpow_le_iff hpos, lt_ten_zpow_iff hpos]
  rw [hrange.1, hrange.2.1]
  generalize hwhole : ((decimal number.digits).length : Int) + number.exponent = whole
  by_cases hpositional : -format.documentLayout.mostZeros - 1 < whole
      ∧ whole ≤ format.documentLayout.mostWhole
  · rw [if_pos hpositional]
    by_cases hall : 0 ≤ number.exponent
    · obtain ⟨n, hn⟩ := Int.eq_ofNat_of_zero_le hall
      rw [if_pos ⟨hall, by omega⟩, ← hwhole, hn, positional_whole hdigits]
    rw [if_neg fun h => hall h.1]
    by_cases hinside : 0 < whole
    · obtain ⟨n, rfl⟩ := Int.eq_ofNat_of_zero_le hinside.le
      rw [if_pos ⟨hinside, by omega⟩, positional_inside (by omega) (by omega), Int.toNat_natCast]
    · obtain ⟨n, hn⟩ := Int.eq_ofNat_of_zero_le (show 0 ≤ -whole by omega)
      obtain rfl : whole = -n := by omega
      rw [if_neg fun h => hinside h.1, if_pos ⟨by omega, by omega⟩, positional_behind hdigits, hn]
  · rw [if_neg hpositional, if_neg (by omega), if_neg (by omega), if_neg (by omega),
      exponential_eq hdigits]

end ShortDecimal

namespace FloatFormat

def sign (format : FloatFormat) (bits : Nat) : Bytes :=
  if format.isNegative bits then Bytes.ofString "-" else []

/-- Zero has one digit on either side of the point, and any other number is written by its shortest
decimal. -/
inductive HasSpelling (format : FloatFormat) (bits : Nat) : Bytes → Prop
  | zero : bits % 2 ^ (format.bits - 1) = 0 →
      HasSpelling format bits (format.sign bits ++ Bytes.ofString "0.0")
  | number {number : ShortDecimal} : bits % 2 ^ (format.bits - 1) ≠ 0 →
      number.IsShortest format (bits % 2 ^ (format.bits - 1)) →
      HasSpelling format bits (format.sign bits ++ number.text format)

theorem signed_isNegative (format : FloatFormat) (bits : Nat) (text : Bytes) :
    FloatLayout.signed (format.isNegative bits) text = format.sign bits ++ text := by
  rw [sign]
  cases format.isNegative bits <;> rfl

theorem hasSpelling_write {format : FloatFormat} {bits : Nat}
    (hfinite : format.isFinite bits = true) :
    format.HasSpelling bits (format.documentLayout.write format bits) := by
  have htie : format.documentLayout.tie = .toEven := by cases format <;> rfl
  have hrange : bits % 2 ^ (format.bits - 1) < 2 ^ (format.bits - 1) :=
    Nat.mod_lt _ (Nat.pow_pos (by decide))
  rw [← isFinite_mod] at hfinite
  by_cases hzero : bits % 2 ^ (format.bits - 1) = 0
  · have hwrite : format.documentLayout.write format bits
        = format.sign bits ++ Bytes.ofString "0.0" := by
      rw [← signed_isNegative]
      simp only [FloatLayout.write, Nat.pow_eq, if_pos hzero]
      rfl
    exact hwrite ▸ .zero hzero
  · have hshortest := isShortest_shortest (Nat.pos_of_ne_zero hzero) hrange hfinite
    have hwrite : format.documentLayout.write format bits = format.sign bits
        ++ (format.shortest .toEven (bits % 2 ^ (format.bits - 1))).text format := by
      rw [← signed_isNegative, ShortDecimal.text_eq_place format hshortest.rounds.1]
      simp only [FloatLayout.write, Nat.pow_eq, if_neg hzero, htie]
      rfl
    exact hwrite ▸ .number hzero hshortest

theorem HasSpelling.unique {format : FloatFormat} {bits : Nat} {text other : Bytes}
    (htext : format.HasSpelling bits text) (hother : format.HasSpelling bits other) :
    text = other := by
  cases htext with
  | zero hzero =>
    cases hother with
    | zero => rfl
    | number hnonzero => exact absurd hzero hnonzero
  | number hnonzero hshortest =>
    cases hother with
    | zero hzero => exact absurd hzero hnonzero
    | number _ hshortest' => rw [hshortest.unique hshortest']

end FloatFormat

/-- The letters that make an escape behind a backslash. -/
def escapeLetters : Bytes := Bytes.ofString "\"\\/bfnrtu"

def hexDigits : Bytes := Bytes.ofString "0123456789abcdef"

/-- A byte as a string has it. -/
def escapedByte (byte : UInt8) : Bytes :=
  if byte = Ascii.quote ∨ byte = Ascii.backslash then [Ascii.backslash, byte]
  else if byte < 0x20 then
    Bytes.ofString "\\u00" ++ [hexDigits.getD (byte.toNat / 16) 0, hexDigits.getD (byte.toNat % 16) 0]
  else [byte]

/-- A text as the content of a string: escapes are kept, and any other byte stands for itself. -/
def escapedContent : Bytes → Bytes
  | [] => []
  | [byte] => escapedByte byte
  | byte :: next :: rest =>
    if byte = Ascii.backslash ∧ next ∈ escapeLetters then byte :: next :: escapedContent rest
    else escapedByte byte ++ escapedContent (next :: rest)

theorem escapedContent_cons {byte : UInt8} (h : byte ≠ Ascii.backslash) (rest : Bytes) :
    escapedContent (byte :: rest) = escapedByte byte ++ escapedContent rest := by
  cases rest with
  | nil => simp [escapedContent]
  | cons next rest => rw [escapedContent, if_neg fun hescape => h hescape.1]

theorem Writer.hexDigit_eq {n : Nat} (h : n < 16) : hexDigit n = hexDigits.getD n 0 := by
  revert n
  decide

theorem Writer.Escapes.eq_escapedContent {text written : Bytes} (h : Writer.Escapes text written) :
    written = escapedContent text := by
  induction h with
  | nil => rfl
  | @kept byte rest written hstarts _ ih =>
    have hletter : byte ∈ escapeLetters := Writer.mem_of_startsEscape hstarts
    rw [escapedContent, if_pos ⟨rfl, hletter⟩, ih]
  | @stray rest written hstarts _ ih =>
    cases rest with
    | nil =>
      rw [ih]
      rfl
    | cons next rest =>
      have hletter : next ∉ escapeLetters := fun hmem => by
        have hcontains : Writer.startsEscape (next :: rest) = true := List.contains_iff_mem.mpr hmem
        rw [hstarts] at hcontains
        cases hcontains
      rw [escapedContent, if_neg fun hescape => hletter hescape.2, ← ih]
      rfl
  | quote _ ih =>
    rw [escapedContent_cons (by decide), ← ih]
    rfl
  | @control byte rest written hcontrol _ ih =>
    have hquote : byte ≠ Ascii.quote := by
      rintro rfl
      exact absurd hcontrol (by decide)
    have hbackslash : byte ≠ Ascii.backslash := by
      rintro rfl
      exact absurd hcontrol (by decide)
    rw [escapedContent_cons hbackslash, ← ih, escapedByte, if_neg (by simp [hquote, hbackslash]),
      if_pos hcontrol, Writer.hexDigit_eq (Writer.div_sixteen_lt byte),
      Writer.hexDigit_eq (Nat.mod_lt _ (by decide))]
    rfl
  | @unescaped byte rest written hbyte _ ih =>
    simp only [isUnescaped, Bool.and_eq_true, decide_eq_true_eq, bne_iff_ne] at hbyte
    obtain ⟨⟨hcontrol, hquote⟩, hbackslash⟩ := hbyte
    rw [escapedContent_cons hbackslash, ← ih, escapedByte, if_neg (by simp [hquote, hbackslash]),
      if_neg (UInt8.not_lt.mpr hcontrol), List.singleton_append]

theorem Writer.quoted_eq (content : Bytes) :
    Writer.quoted content = Ascii.quote :: escapedContent content ++ [Ascii.quote] := by
  rw [Writer.quoted, (Writer.escapes_escape content).eq_escapedContent]

namespace Instant

/-- A number in plain digits, with zeros in front up to the width. -/
def numeral (width n : Nat) : Bytes := List.leftpad width 0x30 (Bytes.ofString (toString n))

/-- A year has four digits. Other years have a sign, and as many digits as they need. -/
def yearNumeral (year : Int) : Bytes :=
  if 0 ≤ year ∧ year ≤ 9999 then numeral 4 year.toNat
  else (if year < 0 then Ascii.minus else Ascii.plus) :: numeral 4 year.natAbs

/-- A fraction of a second has the fewest groups of three digits that are exact. -/
def fractionNumeral (nanos : Nat) : Bytes :=
  let groups := if nanos = 0 then 0 else if 1000000 ∣ nanos then 1 else if 1000 ∣ nanos then 2 else 3
  if groups = 0 then [] else Ascii.point :: numeral (3 * groups) (nanos / 1000 ^ (3 - groups))

/-- The day of a moment on the calendar and its time of day, in universal time. A leap second is
counted behind the second that it follows. -/
inductive HasSpelling (instant : Instant) : Bytes → Prop
  | mk {date : CalendarDate} {hour minute second leap nanos : Nat} :
      date.IsOnCalendar → hour < 24 → minute < 60 → second < 60 →
      instant.seconds = date.toDays * 86400 + (hour * 3600 + minute * 60 + second : Nat) →
      leap ≤ 1 → instant.nanos = leap * 1000000000 + nanos → (leap = 0 → nanos < 1000000000) →
      HasSpelling instant (yearNumeral date.year ++ Ascii.minus :: numeral 2 date.month
        ++ Ascii.minus :: numeral 2 date.day ++ 0x54 :: numeral 2 hour
        ++ Ascii.colon :: numeral 2 minute ++ Ascii.colon :: numeral 2 (second + leap)
        ++ fractionNumeral nanos ++ [0x5a])

theorem numeral_eq (width n : Nat) : numeral width n = padded width n := by
  rw [numeral, ofString_toString]
  rfl

theorem yearNumeral_eq (year : Int) : yearNumeral year = writeYear year := by
  simp only [yearNumeral, writeYear, numeral_eq]

theorem fractionNumeral_eq (nanos : Nat) : fractionNumeral nanos = writeFraction nanos := by
  simp only [fractionNumeral, writeFraction, numeral_eq, Nat.dvd_iff_mod_eq_zero]
  by_cases hzero : nanos = 0
  · rw [if_pos hzero, if_pos hzero]
    rfl
  · rw [if_neg hzero, if_neg hzero]
    by_cases hmillis : nanos % 1000000 = 0
    · rw [if_pos hmillis, if_pos hmillis]
      rfl
    · rw [if_neg hmillis, if_neg hmillis]
      by_cases hmicros : nanos % 1000 = 0
      · rw [if_pos hmicros, if_pos hmicros]
        rfl
      · rw [if_neg hmicros, if_neg hmicros]
        simp

theorem hasSpelling_write (instant : Instant) : instant.HasSpelling instant.write := by
  have htime := instant.secondOfDay_lt
  have hday : instant.date.toDays = instant.seconds / secondsPerDay := CalendarDate.toDays_ofDays _
  have hsplit : instant.seconds = instant.date.toDays * 86400
      + (instant.secondOfDay / 3600 * 3600 + instant.secondOfDay / 60 % 60 * 60
        + instant.secondOfDay % 60 : Nat) := by
    rw [hday]
    simp only [secondOfDay, secondsPerDay]
    omega
  have hpast (leap nanos : Nat) (hleap : leap ≤ 1) (hnanos : instant.nanos = leap * 1000000000 + nanos)
      (hplain : leap = 0 → nanos < 1000000000) := HasSpelling.mk
    (CalendarDate.isOnCalendar_ofDays (instant.seconds / secondsPerDay))
    (show instant.secondOfDay / 3600 < 24 by omega) (show instant.secondOfDay / 60 % 60 < 60 by omega)
    (show instant.secondOfDay % 60 < 60 by omega) hsplit hleap hnanos hplain
  simp only [numeral_eq, fractionNumeral_eq, yearNumeral_eq] at hpast
  by_cases hlate : nanosPerSecond ≤ instant.nanos
  · have hbillion : 1000000000 ≤ instant.nanos := hlate
    have htext := hpast 1 (instant.nanos - nanosPerSecond) le_rfl
      (by simp only [nanosPerSecond]; omega) (by simp)
    simp only [write, if_pos hlate]
    exact htext
  · have hbillion : ¬ 1000000000 ≤ instant.nanos := hlate
    have htext := hpast 0 instant.nanos (Nat.zero_le 1) (by omega) (by omega)
    simp only [write, if_neg hlate]
    exact htext

theorem HasSpelling.unique {instant : Instant} {text other : Bytes} (htext : instant.HasSpelling text)
    (hother : instant.HasSpelling other) : text = other := by
  obtain @⟨date, hour, minute, second, leap, nanos, hdate, hhour, hminute, hsecond, hseconds, hleap,
    hnanos, hplain⟩ := htext
  obtain @⟨date', hour', minute', second', leap', nanos', hdate', hhour', hminute', hsecond',
    hseconds', hleap', hnanos', hplain'⟩ := hother
  have hdays : date.toDays = date'.toDays := by omega
  have hsame : date = date' := by rw [← hdate.ofDays_toDays, hdays, hdate'.ofDays_toDays]
  obtain rfl : hour = hour' := by omega
  obtain rfl : minute = minute' := by omega
  obtain rfl : second = second' := by omega
  obtain rfl : leap = leap' := by omega
  obtain rfl : nanos = nanos' := by omega
  rw [hsame]

end Instant

namespace Scalar

/-- What a scalar is as text, without the quotes that a number may be asked for. -/
inductive HasSpelling : Scalar → Bytes → Prop
  | integer (kind : IntegerKind) (value : Int) :
      HasSpelling (.integer kind value) (Bytes.ofString (toString value))
  | float {format : FloatFormat} {bits : Nat} {text : Bytes} : format.HasSpelling bits text →
      HasSpelling (.float format bits) text
  | bool (value : Bool) : HasSpelling (.bool value) (Bytes.ofString (toString value))
  | text (content : Bytes) :
      HasSpelling (.text content) (Ascii.quote :: escapedContent content ++ [Ascii.quote])
  | date {instant : Instant} {text : Bytes} : instant.HasSpelling text →
      HasSpelling (.date instant) (Ascii.quote :: text ++ [Ascii.quote])

theorem HasSpelling.unique {content : Scalar} {text other : Bytes} (htext : content.HasSpelling text)
    (hother : content.HasSpelling other) : text = other := by
  cases htext with
  | integer => cases hother; rfl
  | float hfloat =>
    cases hother with
    | float hfloat' => exact hfloat.unique hfloat'
  | bool => cases hother; rfl
  | text => cases hother; rfl
  | date hdate =>
    cases hother with
    | date hdate' => rw [hdate.unique hdate']

/-- What is written of a scalar where no quotes around numbers are asked for. -/
def written : Scalar → Bytes
  | integer _ value => decimalInt value
  | float format bits => format.documentLayout.write format bits
  | bool value => if value then Bytes.ofString "true" else Bytes.ofString "false"
  | text content => Writer.quoted content
  | date instant => Writer.quoted instant.write

theorem hasSpelling_written {content : Scalar} (hfinite : content.IsFinite) :
    content.HasSpelling content.written := by
  cases content with
  | integer kind value =>
    rw [written, ← ofString_toString_int]
    exact .integer kind value
  | float format bits => exact .float (FloatFormat.hasSpelling_write hfinite)
  | bool value => cases value <;> exact .bool _
  | text content =>
    rw [written, Writer.quoted_eq]
    exact .text content
  | date instant =>
    have hplain := Writer.escape_eq_self fun byte hmem => (instant.isUnescaped_write byte hmem).1
    rw [written, Writer.quoted, hplain]
    exact .date instant.hasSpelling_write

end Scalar

/-- A text for every scalar, which is the one it has unless it is a number that is not finite. -/
structure Spelling where
  text : Scalar → Bytes
  hasSpelling {content : Scalar} : content.IsFinite → content.HasSpelling (text content)

namespace Spelling

def written : Spelling := ⟨Scalar.written, Scalar.hasSpelling_written⟩

theorem text_eq_written (spelling : Spelling) {content : Scalar} (hfinite : content.IsFinite) :
    spelling.text content = content.written :=
  (spelling.hasSpelling hfinite).unique (Scalar.hasSpelling_written hfinite)

end Spelling

end SchemaJson
