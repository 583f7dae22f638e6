import SchemaJson.Proofs.BindingSoundness
import SchemaJson.Proofs.CutTexts
import SchemaJson.Proofs.DateText
import SchemaJson.Proofs.FloatText

/-! What is read as a value without parts has a payload of its type: integers in range, bits of the
format's width, texts, and moments that a clock shows. -/

namespace SchemaJson

namespace Reader

variable {α β : Type} {reader : Reader α} {text : Bytes}

theorem bind_eq_some {next : α → Reader β} {result : β × Bytes} :
    (reader >>= next) text = some result ↔
      ∃ a rest, reader text = some (a, rest) ∧ next a rest = some result := by
  have hbind : (reader >>= next) text = (reader text).bind fun found => next found.1 found.2 := rfl
  rw [hbind, Option.bind_eq_some_iff, Prod.exists]

theorem pure_eq_some {a : α} {result : α × Bytes} :
    (pure a : Reader α) text = some result ↔ (a, text) = result :=
  Option.some_inj

theorem all_eq_some {a : α} : reader.all text = some a ↔ reader text = some (a, []) := by
  rw [all]
  split
  next found hread => simp [hread]
  next hread =>
    constructor
    · intro h
      cases h
    · intro h
      exact absurd h (hread a)

theorem nanos_lt {nanos : Nat} {rest : Bytes} (h : Reader.nanos text = some (nanos, rest)) :
    nanos < nanosPerSecond := by
  simp only [Reader.nanos] at h
  split at h
  next => cases h
  next =>
    obtain ⟨rfl, -⟩ := Prod.mk.inj (Option.some.inj h)
    have hdigits : digitsValue ((text.take 9).takeWhile isDigit)
        < 10 ^ ((text.take 9).takeWhile isDigit).length :=
      digitsValue_lt fun byte hmem => List.mem_takeWhile_imp hmem
    have hlength : ((text.take 9).takeWhile isDigit).length ≤ 9 :=
      (List.takeWhile_prefix _).length_le.trans (List.length_take_le 9 text)
    calc digitsValue ((text.take 9).takeWhile isDigit)
          * 10 ^ (9 - ((text.take 9).takeWhile isDigit).length)
        < 10 ^ ((text.take 9).takeWhile isDigit).length
          * 10 ^ (9 - ((text.take 9).takeWhile isDigit).length) :=
          Nat.mul_lt_mul_of_pos_right hdigits (Nat.pow_pos (by decide))
      _ = nanosPerSecond := by
          rw [← Nat.pow_add, Nat.add_sub_cancel' hlength]
          rfl

theorem fraction_lt {nanos : Nat} {rest : Bytes} (h : fraction text = some (nanos, rest)) :
    nanos < nanosPerSecond := by
  cases text with
  | nil =>
    cases h
    decide
  | cons byte text =>
    simp only [fraction] at h
    split at h
    next => exact nanos_lt h
    next =>
      cases h
      decide

end Reader

namespace Instant

/-- The nanoseconds stay below one second, or below two in the last second of a minute. -/
def IsClockTime (instant : Instant) : Prop :=
  instant.nanos < 2 * nanosPerSecond ∧
    (instant.nanos < nanosPerSecond ∨ instant.secondOfDay % 60 = 59)

/-- Offsets from universal time are whole minutes. -/
theorem dvd_offset {text rest : Bytes} {ahead : Int} (h : offset text = some (ahead, rest)) :
    60 ∣ ahead := by
  rw [offset] at h
  split at h
  next =>
    cases h
    exact dvd_zero 60
  next =>
    simp only [Reader.bind_eq_some] at h
    obtain ⟨behind, _, -, hours, _, -, -, _, -, minutes, _, -, h⟩ := h
    split at h
    next =>
      have hminutes : (60 : Int) ∣ (hours * 3600 + minutes * 60 : Nat) := by omega
      obtain ⟨rfl, -⟩ := Prod.mk.inj (Reader.pure_eq_some.mp h)
      split
      · exact Int.dvd_neg.mpr hminutes
      · exact hminutes
    next => cases h

theorem isClockTime_of_instant? {time : CivilTime} {ahead : Int} {instant : Instant}
    (hnanos : time.nanos < nanosPerSecond) (hahead : 60 ∣ ahead)
    (h : time.instant? ahead = some instant) : instant.IsClockTime := by
  rw [CivilTime.instant?] at h
  split at h
  next =>
    obtain rfl := Option.some.inj h
    obtain ⟨minutes, rfl⟩ := hahead
    simp only [IsClockTime, CivilTime.toInstant, secondOfDay, secondsPerDay]
    generalize time.date.toDays = days
    -- A leap second is counted among the nanoseconds of the second in front of it.
    by_cases hleap : time.second = 60
    · have hseconds : (days * (86400 : Nat) + (time.hour * 3600 + time.minute * 60 + 59 : Nat)
          - 60 * minutes) % 60 = 59 := by
        omega
      simp only [hleap, beq_self_eq_true, if_true]
      refine ⟨by omega, .inr ?_⟩
      omega
    · simp only [beq_eq_false_iff_ne.mpr hleap, Bool.false_eq_true, if_false]
      omega
  next => cases h

theorem nanos_lt_of_spacedTime {middle : Reader Unit} {text rest : Bytes} {time : CivilTime}
    (h : spacedTime middle text = some (time, rest)) : time.nanos < nanosPerSecond := by
  simp only [spacedTime, Reader.bind_eq_some] at h
  obtain ⟨_, _, -, _, _, -, _, _, -, _, _, -, _, _, -, _, _, -, _, _, -, _, _, hfraction, hresult⟩ := h
  obtain ⟨rfl, -⟩ := Prod.mk.inj (Reader.pure_eq_some.mp hresult)
  exact Reader.fraction_lt hfraction

theorem withOffset_spec {text rest : Bytes} {time : CivilTime} {ahead : Int}
    (h : withOffset text = some ((time, ahead), rest)) :
    time.nanos < nanosPerSecond ∧ 60 ∣ ahead := by
  simp only [withOffset, Reader.bind_eq_some] at h
  obtain ⟨_, _, -, _, _, -, _, _, -, _, _, -, _, _, -, _, _, -, _, _, -, _, _, -, _, _, -, _, _, -, _, _, -,
    _, _, hfraction, _, _, hoffset, hresult⟩ := h
  obtain ⟨htime, -⟩ := Prod.mk.inj (Reader.pure_eq_some.mp hresult)
  obtain ⟨rfl, rfl⟩ := Prod.mk.inj htime
  exact ⟨Reader.fraction_lt hfraction, dvd_offset hoffset⟩

/-- Whichever form a date has, a clock shows the moment that is read. -/
theorem isClockTime_of_read {text : Bytes} {instant : Instant} (h : read text = some instant) :
    instant.IsClockTime := by
  have huniversal (middle : Reader Unit) (h : readUniversal middle text = some instant) :
      instant.IsClockTime := by
    obtain ⟨time, htime, hinstant⟩ := Option.bind_eq_some_iff.mp h
    exact isClockTime_of_instant? (nanos_lt_of_spacedTime (Reader.all_eq_some.mp htime))
      (Int.dvd_zero 60) hinstant
  simp only [read, Option.orElse_eq_some] at h
  rcases h with hoffset | ⟨-, hnaive | ⟨-, hspaced | ⟨-, hday⟩⟩⟩
  · obtain ⟨⟨time, ahead⟩, htime, hinstant⟩ := Option.bind_eq_some_iff.mp hoffset
    obtain ⟨hnanos, hahead⟩ := withOffset_spec (Reader.all_eq_some.mp htime)
    exact isClockTime_of_instant? hnanos hahead hinstant
  · exact huniversal _ hnaive
  · exact huniversal _ hspaced
  · obtain ⟨date, -, hinstant⟩ := Option.bind_eq_some_iff.mp hday
    exact isClockTime_of_instant? (show 0 < nanosPerSecond by decide) (Int.dvd_zero 60) hinstant

end Instant

namespace DecimalNumber

variable {format : FloatFormat} {number : DecimalNumber} {bits : Nat}

theorem magnitudeBits_lt (h : number.magnitudeBits format = some bits) :
    bits < format.topExponent * Nat.pow 2 (format.precision - 1) := by
  have hzero : 0 < format.topExponent * Nat.pow 2 (format.precision - 1) := by
    cases format <;> decide
  have hquotient {num den : Nat} (h : format.ofQuotient num den = some bits) :
      bits < format.topExponent * Nat.pow 2 (format.precision - 1) := by
    simp only [FloatFormat.ofQuotient] at h
    split at h
    next hbits =>
      obtain rfl := Option.some.inj h
      exact hbits
    next => cases h
  simp only [magnitudeBits] at h
  split at h
  next =>
    obtain rfl := Option.some.inj h
    exact hzero
  next =>
    split at h
    next =>
      obtain rfl := Option.some.inj h
      exact hzero
    next =>
      split at h
      next =>
        split at h
        next => cases h
        next => exact hquotient h
      next => exact hquotient h

end DecimalNumber

namespace FloatFormat

variable {format : FloatFormat} {text : Bytes} {bits : Nat}

/-- The bits of a number that is read are a sign and a magnitude below every infinite one. -/
theorem exists_magnitude_of_read (h : format.read text = some bits) :
    ∃ negative magnitude, bits = format.signBit negative + magnitude ∧
      magnitude < format.topExponent * 2 ^ (format.precision - 1) ∧
      magnitude < 2 ^ (format.bits - 1) := by
  obtain ⟨number, -, h⟩ := Option.bind_eq_some_iff.mp h
  obtain ⟨magnitude, hmagnitude, h⟩ := Option.bind_eq_some_iff.mp h
  have hlt : magnitude < format.topExponent * 2 ^ (format.precision - 1) :=
    DecimalNumber.magnitudeBits_lt hmagnitude
  have htop : format.topExponent * 2 ^ (format.precision - 1) < 2 ^ (format.bits - 1) := by
    cases format <;> decide
  exact ⟨number.negative, magnitude, (Option.some.inj h).symm, hlt, hlt.trans htop⟩

theorem lt_of_read (h : format.read text = some bits) : bits < Nat.pow 2 format.bits := by
  obtain ⟨negative, magnitude, rfl, -, hlt⟩ := exists_magnitude_of_read h
  have hsign : format.signBit negative ≤ 2 ^ (format.bits - 1) := by
    rw [signBit]
    split
    · exact le_rfl
    · exact Nat.zero_le _
  have hwidth : Nat.pow 2 format.bits = 2 ^ (format.bits - 1) + 2 ^ (format.bits - 1) := by
    cases format <;> decide
  omega

/-- Only finite numbers are read. -/
theorem isFinite_of_read (h : format.read text = some bits) : format.isFinite bits = true := by
  obtain ⟨negative, magnitude, rfl, hlt, hrange⟩ := exists_magnitude_of_read h
  have hmod : (format.signBit negative + magnitude) % 2 ^ (format.bits - 1) = magnitude := by
    rw [signBit, Nat.pow_eq]
    split
    · rw [Nat.add_mod_left, Nat.mod_eq_of_lt hrange]
    · rw [Nat.zero_add, Nat.mod_eq_of_lt hrange]
  have htop : magnitude / 2 ^ (format.precision - 1) < format.topExponent :=
    Nat.div_lt_of_lt_mul (Nat.mul_comm _ _ ▸ hlt)
  rw [← isFinite_mod, hmod, isFinite, exponentField_eq hrange]
  simpa using htop.ne

end FloatFormat

theorem IntegerKind.holds_of_read {kind : IntegerKind} {text : Bytes} {value : Int}
    (h : kind.read text = some value) : kind.holds value = true := by
  have hchecks {result : Option Int}
      (h : (result.bind fun n => if kind.holds n then some n else none) = some value) :
      kind.holds value = true := by
    obtain ⟨n, -, hn⟩ := Option.bind_eq_some_iff.mp h
    split at hn
    next hholds =>
      obtain rfl := Option.some.inj hn
      exact hholds
    next => cases hn
  simp only [IntegerKind.read, Option.bind_eq_bind] at h
  split at h
  · exact hchecks h
  · exact hchecks h

theorem NumberKind.inRange_of_read {kind : NumberKind} {text : Bytes} {content : Scalar}
    (h : kind.read text = some content) : content.InRange := by
  cases kind with
  | integer kind =>
    obtain ⟨value, hread, rfl⟩ := Option.map_eq_some_iff.mp h
    exact IntegerKind.holds_of_read hread
  | float format =>
    obtain ⟨bits, hread, rfl⟩ := Option.map_eq_some_iff.mp h
    exact FloatFormat.lt_of_read hread

namespace Scalar

/-- A payload that reading can give. Unlike those that are sound, dates may be in any year. -/
def IsProper : Scalar → Prop
  | text content => content.IsText
  | date instant => instant.IsClockTime
  | content => content.InRange

end Scalar

theorem Span.isProper_of_scalar? {span : Span} {tag : Tag} {content : Scalar}
    (hspan : span.text.IsText) (h : span.scalar? tag = some content) : content.IsProper := by
  cases tag with
  | number kind quoting =>
    simp only [scalar?] at h
    split at h
    next =>
      have hrange := NumberKind.inRange_of_read h
      have htype := NumberKind.type_of_read h
      cases content with
      | integer => exact hrange
      | float => exact hrange
      | bool => cases htype
      | text => cases htype
      | date => cases htype
    next => cases h
  | bool =>
    simp only [scalar?] at h
    split at h
    next =>
      obtain ⟨value, -, rfl⟩ := Option.map_eq_some_iff.mp h
      trivial
    next => cases h
  | string =>
    simp only [scalar?] at h
    split at h
    next =>
      obtain rfl := Option.some.inj h
      exact hspan
    next => cases h
  | date =>
    simp only [scalar?] at h
    split at h
    next =>
      obtain ⟨instant, hread, rfl⟩ := Option.map_eq_some_iff.mp h
      exact Instant.isClockTime_of_read hread
    next => cases h
  | record typeName => cases h
  | array element => cases h

theorem Span.isFinite_of_scalar? {span : Span} {tag : Tag} {content : Scalar}
    (h : span.scalar? tag = some content) : content.IsFinite := by
  cases content with
  | float format bits =>
    have htype := Span.scalarType?_of_scalar? h
    obtain ⟨quoting, rfl⟩ : ∃ quoting, tag = .number (.float format) quoting := by
      cases tag <;> cases htype
      exact ⟨_, rfl⟩
    simp only [scalar?] at h
    split at h
    next =>
      obtain ⟨found, hread, hfound⟩ := Option.map_eq_some_iff.mp h
      cases hfound
      exact FloatFormat.isFinite_of_read hread
    next => cases h
  | _ => trivial

theorem ScalarType.isProper_blank (type : ScalarType) : type.blank.IsProper := by
  cases type with
  | number kind =>
    cases kind with
    | integer kind =>
      show kind.holds 0 = true
      cases kind <;> rfl
    | float format => exact Nat.pow_pos (by decide)
  | bool => trivial
  | text => exact Bytes.isText_nil
  | date => exact ⟨by decide, .inl (by decide)⟩

theorem ScalarType.isFinite_blank (type : ScalarType) : type.blank.IsFinite := by
  cases type with
  | number kind =>
    cases kind with
    | integer kind => trivial
    | float format => cases format <;> rfl
  | _ => trivial

theorem ScalarType.type_blank (type : ScalarType) : type.blank.type = type := by
  cases type with
  | number kind => cases kind <;> rfl
  | _ => rfl

end SchemaJson
