import Mathlib.Algebra.Order.Floor.Semifield
import Mathlib.Data.Int.Log
import Mathlib.Data.Rat.Floor
import Mathlib.Tactic.FieldSimp
import Mathlib.Tactic.Linarith
import Mathlib.Tactic.Positivity
import Mathlib.Tactic.Ring
import SchemaJson.Number.Shortest

/-! The bits nearest to a rational number. A quotient of natural numbers rounds as the rational
number it stands for, however it is written, and the exact value of finite bits rounds to them. -/

namespace SchemaJson

/-- The nearest natural number, a tie going to the even one. -/
def nearestEven (r : ℚ) : Nat :=
  let below := ⌊r⌋₊
  if 2 * (r - below) < 1 ∨ (2 * (r - below) = 1 ∧ below % 2 = 0) then below else below + 1

theorem roundHalfEven_eq (num : Nat) {den : Nat} (hden : 0 < den) :
    roundHalfEven num den = nearestEven (num / den) := by
  have hpos : (0 : ℚ) < den := by exact_mod_cast hden
  have hfloor : ⌊(num : ℚ) / den⌋₊ = num / den := Nat.floor_div_eq_div num den
  have hrest : 2 * ((num : ℚ) / den - (num / den : Nat)) = (2 * (num % den) : Nat) / den := by
    have hsplit : (num : ℚ) = den * (num / den : Nat) + (num % den : Nat) := by
      exact_mod_cast (Nat.div_add_mod num den).symm
    rw [eq_div_iff hpos.ne', Nat.cast_mul, mul_assoc, sub_mul, div_mul_cancel₀ _ hpos.ne']
    push_cast
    linarith
  have hlt : (((2 * (num % den) : Nat) : ℚ) / den < 1) ↔ 2 * (num % den) < den := by
    rw [div_lt_one hpos, Nat.cast_lt]
  have heq : (((2 * (num % den) : Nat) : ℚ) / den = 1) ↔ 2 * (num % den) = den := by
    rw [div_eq_one_iff_eq hpos.ne', Nat.cast_inj]
  simp only [roundHalfEven, nearestEven, hfloor, hrest, hlt, heq]

theorem nearestEven_natCast (n : Nat) : nearestEven n = n := by
  simp [nearestEven]

theorem nearestEven_eq_zero {r : ℚ} (h : r < 1 / 2) : nearestEven r = 0 := by
  have hfloor : ⌊r⌋₊ = 0 := Nat.floor_eq_zero.mpr (by linarith)
  simp only [nearestEven, hfloor]
  rw [if_pos (.inl (by simpa using by linarith))]

theorem nearestEven_mono {r s : ℚ} (h : r ≤ s) : nearestEven r ≤ nearestEven s := by
  have hfloor : ⌊r⌋₊ ≤ ⌊s⌋₊ := Nat.floor_mono h
  simp only [nearestEven]
  rcases hfloor.lt_or_eq with hlt | heq
  · split_ifs <;> omega
  · rw [heq]
    have hle : 2 * (r - ⌊s⌋₊) ≤ 2 * (s - ⌊s⌋₊) := by linarith
    by_cases hs : 2 * (s - ⌊s⌋₊) < 1 ∨ 2 * (s - ⌊s⌋₊) = 1 ∧ ⌊s⌋₊ % 2 = 0
    · have hr : 2 * (r - ⌊s⌋₊) < 1 ∨ 2 * (r - ⌊s⌋₊) = 1 ∧ ⌊s⌋₊ % 2 = 0 := by
        rcases hs with hs | ⟨hs, heven⟩
        · exact .inl (hle.trans_lt hs)
        · exact (hs ▸ hle).lt_or_eq.imp_right fun hr => ⟨hr, heven⟩
      rw [if_pos hs, if_pos hr]
    · rw [if_neg hs]
      split_ifs <;> omega

theorem nearestEven_of_near {r : ℚ} {n : Nat} (hlow : n ≤ r) (hhigh : 2 * (r - n) < 1) :
    nearestEven r = n := by
  have hfloor : ⌊r⌋₊ = n := (Nat.floor_eq_iff (n.cast_nonneg.trans hlow)).mpr ⟨hlow, by linarith⟩
  simp only [nearestEven, hfloor]
  rw [if_pos (.inl hhigh)]

theorem powerOfTwo_pos (k : Int) : (0 : ℚ) < 2 ^ k := zpow_pos (by norm_num) k

theorem log_eq_of_bounds {r : ℚ} {k : Int} (hlow : (2 : ℚ) ^ k ≤ r) (hhigh : r < (2 : ℚ) ^ (k + 1)) :
    Int.log 2 r = k := by
  have hpos : 0 < r := (powerOfTwo_pos k).trans_le hlow
  have hle : k ≤ Int.log 2 r := (Int.zpow_le_iff_le_log (by decide) hpos).mp (by exact_mod_cast hlow)
  have hlt : Int.log 2 r < k + 1 :=
    (Int.lt_zpow_iff_log_lt (by decide) hpos).mp (by exact_mod_cast hhigh)
  omega

theorem scaledDown_den_pos (num : Nat) {den : Nat} (hden : 0 < den) (scale : Int) :
    0 < (scaledDown num den scale).2 := by
  cases scale with
  | ofNat n => exact Nat.mul_pos hden (Nat.pow_pos (by decide))
  | negSucc n => exact hden

theorem scaledDown_eq (num den : Nat) (scale : Int) :
    ((scaledDown num den scale).1 : ℚ) / (scaledDown num den scale).2
      = num / den / (2 : ℚ) ^ scale := by
  cases scale with
  | ofNat n =>
    simp only [scaledDown, Nat.pow_eq, Int.ofNat_eq_natCast, zpow_natCast]
    push_cast
    rw [div_div]
  | negSucc n =>
    simp only [scaledDown, Nat.pow_eq, zpow_negSucc, div_inv_eq_mul]
    push_cast
    rw [mul_div_right_comm]

namespace FloatFormat

/-- The scale at which a positive number has as many bits as the format keeps, or the least one. -/
def scaleAt (format : FloatFormat) (r : ℚ) : Int :=
  max format.leastScale (Int.log 2 r + 1 - format.precision)

/-- The bits nearest to a positive number, or nothing when it is beyond every finite value. -/
def nearest? (format : FloatFormat) (r : ℚ) : Option Nat :=
  let scale := format.scaleAt r
  let unit := 2 ^ (format.precision - 1)
  let bits := (scale - format.leastScale).toNat * unit + nearestEven (r / (2 : ℚ) ^ scale)
  if bits < format.topExponent * unit then some bits else none

theorem scaleOf_eq (format : FloatFormat) {num den : Nat} (hnum : 0 < num) (hden : 0 < den) :
    format.scaleOf num den = format.scaleAt (num / den) := by
  have hnumPos : (0 : ℚ) < num := by exact_mod_cast hnum
  have hdenPos : (0 : ℚ) < den := by exact_mod_cast hden
  have hnumLow : (2 : ℚ) ^ (num.log2 : Int) ≤ num := by
    exact_mod_cast Nat.log2_self_le hnum.ne'
  have hnumHigh : (num : ℚ) < 2 ^ ((num.log2 : Int) + 1) := by
    exact_mod_cast @Nat.lt_log2_self num
  have hdenLow : (2 : ℚ) ^ (den.log2 : Int) ≤ den := by
    exact_mod_cast Nat.log2_self_le hden.ne'
  have hdenHigh : (den : ℚ) < 2 ^ ((den.log2 : Int) + 1) := by
    exact_mod_cast @Nat.lt_log2_self den
  have htwo : (2 : ℚ) ≠ 0 := by norm_num
  generalize hlow : (num.log2 : Int) - den.log2 - format.precision = low
  have hscaled := scaledDown_eq num den low
  have hscaledPos : (0 : ℚ) < (scaledDown num den low).2 := by
    exact_mod_cast scaledDown_den_pos num hden low
  -- The quotient lies within a factor of two around the power of two that the lengths tell.
  have hbelow : (2 : ℚ) ^ (low + format.precision - 1) ≤ num / den := by
    rw [le_div_iff₀ hdenPos]
    calc (2 : ℚ) ^ (low + format.precision - 1) * den
        ≤ 2 ^ (low + format.precision - 1) * 2 ^ ((den.log2 : Int) + 1) :=
          mul_le_mul_of_nonneg_left hdenHigh.le (powerOfTwo_pos _).le
      _ = 2 ^ (num.log2 : Int) := by rw [← zpow_add₀ htwo]; congr 1; omega
      _ ≤ num := hnumLow
  have habove : (num : ℚ) / den < 2 ^ (low + format.precision + 1) := by
    rw [div_lt_iff₀ hdenPos]
    calc (num : ℚ) < 2 ^ ((num.log2 : Int) + 1) := hnumHigh
      _ = 2 ^ (low + format.precision + 1) * 2 ^ (den.log2 : Int) := by
        rw [← zpow_add₀ htwo]; congr 1; omega
      _ ≤ 2 ^ (low + format.precision + 1) * den :=
        mul_le_mul_of_nonneg_left hdenLow (powerOfTwo_pos _).le
  have hcond : (scaledDown num den low).1 < (scaledDown num den low).2 * Nat.pow 2 format.precision ↔
      (num : ℚ) / den < 2 ^ (low + format.precision) := by
    rw [add_comm low, zpow_add₀ htwo, ← div_lt_iff₀ (powerOfTwo_pos low), ← hscaled,
      div_lt_iff₀ hscaledPos, mul_comm, Nat.pow_eq, zpow_natCast]
    norm_cast
  have hscale : format.scaleOf num den = max format.leastScale
      (if (scaledDown num den low).1 < (scaledDown num den low).2 * Nat.pow 2 format.precision then low
        else low + 1) := by
    rw [scaleOf, hlow]
  rw [hscale, scaleAt]
  congr 1
  split
  next h =>
    rw [log_eq_of_bounds hbelow (by simpa using hcond.mp h)]
    ring
  next h =>
    rw [log_eq_of_bounds (not_lt.mp fun hlt => h (hcond.mpr hlt)) habove]
    ring

theorem ofQuotient_eq (format : FloatFormat) {num den : Nat} (hnum : 0 < num) (hden : 0 < den) :
    format.ofQuotient num den = format.nearest? (num / den) := by
  have hrounded := roundHalfEven_eq (scaledDown num den (format.scaleAt (num / den))).1
    (scaledDown_den_pos num hden (format.scaleAt (num / den)))
  rw [scaledDown_eq] at hrounded
  simp only [ofQuotient, nearest?, scaleOf_eq format hnum hden, hrounded, Nat.pow_eq]

theorem scaleAt_of_lt {format : FloatFormat} {r : ℚ} (hr : 0 < r)
    (h : r < 2 ^ (format.leastScale + format.precision)) : format.scaleAt r = format.leastScale := by
  have hlog : Int.log 2 r < format.leastScale + format.precision :=
    (Int.lt_zpow_iff_log_lt (by decide) hr).mp (by exact_mod_cast h)
  rw [scaleAt]
  omega

theorem scaleAt_of_bounds {format : FloatFormat} {r : ℚ} {k : Nat}
    (hlow : (2 : ℚ) ^ (format.leastScale + k + (format.precision - 1 : Nat)) ≤ r)
    (hhigh : r < 2 ^ (format.leastScale + k + format.precision)) :
    format.scaleAt r = format.leastScale + k := by
  have hprecision : ((format.precision - 1 : Nat) : Int) = format.precision - 1 := by
    cases format <;> rfl
  have hlog : Int.log 2 r = format.leastScale + k + (format.precision - 1 : Nat) := by
    refine log_eq_of_bounds hlow ?_
    rw [hprecision, add_assoc, sub_add_cancel]
    exact hhigh
  rw [scaleAt, hlog, hprecision]
  omega

section Rounded

variable {format : FloatFormat} {r s t : ℚ} {bits : Nat}

/-- The place of the nearest value among all of the format, were there no greatest one. -/
def rounded (format : FloatFormat) (r : ℚ) : Nat :=
  (format.scaleAt r - format.leastScale).toNat * 2 ^ (format.precision - 1)
    + nearestEven (r / 2 ^ format.scaleAt r)

theorem nearest?_eq_some_iff : format.nearest? r = some bits ↔
    format.rounded r = bits ∧ bits < format.topExponent * 2 ^ (format.precision - 1) := by
  simp only [nearest?, rounded]
  constructor
  · intro h
    split at h
    next hrange =>
      obtain rfl := Option.some.inj h
      exact ⟨rfl, hrange⟩
    next => cases h
  · rintro ⟨rfl, hrange⟩
    rw [if_pos hrange]

theorem two_mul_unit (format : FloatFormat) : 2 ^ format.precision = 2 * 2 ^ (format.precision - 1) := by
  cases format <;> rfl

theorem precision_pos (format : FloatFormat) : 0 < format.precision := by
  cases format <;> decide

theorem nearestEven_scaled_le (format : FloatFormat) (r : ℚ) :
    nearestEven (r / 2 ^ format.scaleAt r) ≤ 2 ^ format.precision := by
  have hscale : Int.log 2 r + 1 ≤ format.precision + format.scaleAt r := by
    rw [scaleAt]
    omega
  have hlt : r / 2 ^ format.scaleAt r ≤ (2 ^ format.precision : Nat) := by
    rw [div_le_iff₀ (powerOfTwo_pos _)]
    have hlog : r < (2 : ℚ) ^ (Int.log 2 r + 1) := by
      exact_mod_cast Int.lt_zpow_succ_log_self (by decide) r
    calc r ≤ (2 : ℚ) ^ (Int.log 2 r + 1) := hlog.le
      _ ≤ 2 ^ (format.precision + format.scaleAt r) := zpow_le_zpow_right₀ (by norm_num) hscale
      _ = (2 ^ format.precision : Nat) * 2 ^ format.scaleAt r := by
        rw [zpow_add₀ two_ne_zero, zpow_natCast]
        push_cast
        rfl
  exact (nearestEven_mono hlt).trans_eq (nearestEven_natCast _)

theorem le_nearestEven_scaled (hr : 0 < r) (h : format.leastScale < format.scaleAt r) :
    2 ^ (format.precision - 1) ≤ nearestEven (r / 2 ^ format.scaleAt r) := by
  have hscale : format.scaleAt r + (format.precision - 1 : Nat) = Int.log 2 r := by
    have hprecision := format.precision_pos
    rw [scaleAt] at h ⊢
    omega
  have hle : ((2 ^ (format.precision - 1) : Nat) : ℚ) ≤ r / 2 ^ format.scaleAt r := by
    rw [le_div_iff₀ (powerOfTwo_pos _), Nat.cast_pow, Nat.cast_two, ← zpow_natCast,
      ← zpow_add₀ two_ne_zero, add_comm, hscale]
    exact_mod_cast Int.zpow_log_le_self (by decide) hr
  exact (nearestEven_natCast _).symm.trans_le (nearestEven_mono hle)

theorem rounded_mono (hr : 0 < r) (h : r ≤ s) : format.rounded r ≤ format.rounded s := by
  have hscale : format.scaleAt r ≤ format.scaleAt s := by
    have hlog := @Int.log_mono_right ℚ _ _ _ _ 2 r s hr h
    rw [scaleAt, scaleAt]
    omega
  rcases hscale.lt_or_eq with hlt | heq
  · -- The greater number has all bits that are kept, which is more than the carry of the other one.
    have hleast : format.leastScale ≤ format.scaleAt r := le_max_left _ _
    have hlow := nearestEven_scaled_le format r
    have hhigh := le_nearestEven_scaled (hr.trans_le h) (hleast.trans_lt hlt)
    have hsteps : (format.scaleAt r - format.leastScale).toNat + 1
        ≤ (format.scaleAt s - format.leastScale).toNat := by omega
    have hunit := Nat.mul_le_mul_right (2 ^ (format.precision - 1)) hsteps
    rw [two_mul_unit] at hlow
    rw [Nat.succ_mul] at hunit
    simp only [rounded]
    omega
  · have hdiv : r / 2 ^ format.scaleAt s ≤ s / 2 ^ format.scaleAt s :=
      div_le_div_of_nonneg_right h (powerOfTwo_pos _).le
    simp only [rounded, heq]
    exact Nat.add_le_add_left (nearestEven_mono hdiv) _

theorem nearest?_of_between (hr : 0 < r) (hrs : r ≤ s) (hst : s ≤ t)
    (hlow : format.nearest? r = some bits) (hhigh : format.nearest? t = some bits) :
    format.nearest? s = some bits := by
  obtain ⟨hlow, hrange⟩ := nearest?_eq_some_iff.mp hlow
  obtain ⟨hhigh, -⟩ := nearest?_eq_some_iff.mp hhigh
  have hle : format.rounded s ≤ bits := hhigh ▸ rounded_mono (hr.trans_le hrs) hst
  have hge : bits ≤ format.rounded s := hlow ▸ rounded_mono hr hrs
  exact nearest?_eq_some_iff.mpr ⟨hle.antisymm hge, hrange⟩

theorem scaleAt_mul {x : ℚ} {steps : Nat} (hx : 0 < x) (hhigh : x < 2 ^ format.precision)
    (hlow : steps = 0 ∨ 2 ^ (format.precision - 1) ≤ x) :
    format.scaleAt (x * 2 ^ (format.leastScale + steps)) = format.leastScale + steps := by
  have hpower := powerOfTwo_pos (format.leastScale + steps)
  have hbelow : x * 2 ^ (format.leastScale + steps)
      < 2 ^ (format.leastScale + steps + format.precision) := by
    rw [add_comm _ (format.precision : Int), zpow_add₀ two_ne_zero (format.precision : Int),
      zpow_natCast]
    exact mul_lt_mul_of_pos_right hhigh hpower
  rcases hlow with rfl | hlow
  · rw [Nat.cast_zero, add_zero] at hpower hbelow ⊢
    exact scaleAt_of_lt (mul_pos hx hpower) hbelow
  · refine scaleAt_of_bounds ?_ hbelow
    rw [add_comm _ ((format.precision - 1 : Nat) : Int), zpow_add₀ two_ne_zero, zpow_natCast]
    exact mul_le_mul_of_nonneg_right hlow hpower.le

theorem rounded_mul {x : ℚ} {steps : Nat} (hx : 0 < x) (hhigh : x < 2 ^ format.precision)
    (hlow : steps = 0 ∨ 2 ^ (format.precision - 1) ≤ x) :
    format.rounded (x * 2 ^ (format.leastScale + steps))
      = steps * 2 ^ (format.precision - 1) + nearestEven x := by
  rw [rounded, scaleAt_mul hx hhigh hlow, add_sub_cancel_left, Int.toNat_natCast,
    mul_div_cancel_right₀ _ (powerOfTwo_pos _).ne']

end Rounded

end FloatFormat

def BinaryValue.toRat (value : BinaryValue) : ℚ := value.mantissa * 2 ^ value.scale

namespace FloatFormat

variable {format : FloatFormat} {bits : Nat}

theorem exponentField_eq {format : FloatFormat} {bits : Nat} (h : bits < 2 ^ (format.bits - 1)) :
    format.exponentField bits = bits / 2 ^ (format.precision - 1) := by
  have hwidth : 2 ^ (format.bits - 1) = 2 ^ (format.precision - 1) * (format.topExponent + 1) := by
    cases format <;> rfl
  rw [exponentField, Nat.pow_eq, Nat.mod_eq_of_lt]
  exact Nat.div_lt_of_lt_mul (hwidth ▸ h)

theorem mantissa_magnitude_pos {format : FloatFormat} {bits : Nat} (hpos : 0 < bits)
    (h : bits < 2 ^ (format.bits - 1)) : 0 < (format.magnitude bits).mantissa := by
  rw [magnitude, exponentField_eq h, fractionField, Nat.pow_eq]
  have hsplit := Nat.div_add_mod bits (2 ^ (format.precision - 1))
  cases hexponent : bits / 2 ^ (format.precision - 1) with
  | zero =>
    rw [hexponent] at hsplit
    show 0 < bits % 2 ^ (format.precision - 1)
    omega
  | succ exponent => exact Nat.add_pos_left (Nat.pow_pos (by decide)) _

/-- Positive bits as a mantissa and the steps of their scale above the least one. -/
theorem exists_magnitude (hpos : 0 < bits) (hbits : bits < 2 ^ (format.bits - 1)) :
    ∃ mantissa steps : Nat, format.magnitude bits = ⟨mantissa, format.leastScale + steps⟩ ∧
      bits = steps * 2 ^ (format.precision - 1) + mantissa ∧ 0 < mantissa ∧
      mantissa < 2 ^ format.precision ∧ (steps = 0 ∨ 2 ^ (format.precision - 1) ≤ mantissa) := by
  have hmantissa := mantissa_magnitude_pos hpos hbits
  have hunit : 0 < 2 ^ (format.precision - 1) := by positivity
  have hdouble := format.two_mul_unit
  have hsplit := Nat.div_add_mod' bits (2 ^ (format.precision - 1))
  have hmod := Nat.mod_lt bits hunit
  rw [magnitude, exponentField_eq hbits, fractionField, Nat.pow_eq] at hmantissa ⊢
  cases hexponent : bits / 2 ^ (format.precision - 1) with
  | zero =>
    rw [hexponent] at hsplit hmantissa
    refine ⟨bits % 2 ^ (format.precision - 1), 0, by simp, ?_, hmantissa, by omega, .inl rfl⟩
    omega
  | succ steps =>
    rw [hexponent, Nat.succ_mul] at hsplit
    refine ⟨2 ^ (format.precision - 1) + bits % 2 ^ (format.precision - 1), steps, rfl, ?_,
      by omega, by omega, .inr (Nat.le_add_right _ _)⟩
    omega

theorem lt_top_of_isFinite (hbits : bits < 2 ^ (format.bits - 1))
    (hfinite : format.isFinite bits = true) :
    bits < format.topExponent * 2 ^ (format.precision - 1) := by
  have hwidth : 2 ^ (format.bits - 1) = 2 ^ (format.precision - 1) * (format.topExponent + 1) := by
    cases format <;> rfl
  have hle : bits / 2 ^ (format.precision - 1) < format.topExponent + 1 :=
    Nat.div_lt_of_lt_mul (hwidth ▸ hbits)
  have hne : bits / 2 ^ (format.precision - 1) ≠ format.topExponent := by
    simpa [isFinite, exponentField_eq hbits] using hfinite
  exact (Nat.div_lt_iff_lt_mul (by positivity)).mp (by omega)

/-- The value of finite bits rounds to them. -/
theorem nearest?_magnitude (hpos : 0 < bits) (hbits : bits < 2 ^ (format.bits - 1))
    (hfinite : format.isFinite bits = true) :
    format.nearest? (format.magnitude bits).toRat = some bits := by
  obtain ⟨mantissa, steps, hmagnitude, hsplit, hmantissa, hhigh, hlow⟩ := exists_magnitude hpos hbits
  have hlow' : steps = 0 ∨ (2 : ℚ) ^ (format.precision - 1) ≤ mantissa :=
    hlow.imp_right fun h => by exact_mod_cast h
  rw [nearest?_eq_some_iff, hmagnitude, BinaryValue.toRat,
    rounded_mul (by exact_mod_cast hmantissa) (by exact_mod_cast hhigh) hlow', nearestEven_natCast]
  exact ⟨hsplit.symm, lt_top_of_isFinite hbits hfinite⟩

/-- The value behind that of some bits rounds to the next ones. -/
theorem rounded_next {mantissa steps : Nat} (hhigh : mantissa < 2 ^ format.precision)
    (hlow : steps = 0 ∨ 2 ^ (format.precision - 1) ≤ mantissa) :
    format.rounded ((mantissa + 1 : Nat) * 2 ^ (format.leastScale + steps))
      = steps * 2 ^ (format.precision - 1) + mantissa + 1 := by
  have hdouble := format.two_mul_unit
  rcases Nat.lt_or_ge (mantissa + 1) (2 ^ format.precision) with hfits | hcarry
  · have hlow' : steps = 0 ∨ (2 : ℚ) ^ (format.precision - 1) ≤ (mantissa + 1 : Nat) :=
      hlow.imp_right fun h => by exact_mod_cast h.trans (Nat.le_succ _)
    rw [rounded_mul (by exact_mod_cast Nat.succ_pos mantissa) (by exact_mod_cast hfits) hlow',
      nearestEven_natCast, Nat.add_assoc]
  · -- The mantissa overflows into the next scale, where it is the least one.
    have hvalue : ((mantissa + 1 : Nat) : ℚ) * 2 ^ (format.leastScale + steps)
        = (2 ^ (format.precision - 1) : Nat) * 2 ^ (format.leastScale + (steps + 1 : Nat)) := by
      have hmantissa : mantissa + 1 = 2 ^ (format.precision - 1) * 2 := by omega
      rw [hmantissa, Nat.cast_mul, Nat.cast_two, Nat.cast_succ, ← add_assoc,
        zpow_add_one₀ two_ne_zero, mul_assoc, mul_comm (2 : ℚ)]
    have hfits : (2 : ℚ) ^ (format.precision - 1) < 2 ^ format.precision :=
      pow_lt_pow_right₀ (by norm_num) (Nat.sub_lt format.precision_pos Nat.one_pos)
    rw [hvalue, rounded_mul (by positivity) (by exact_mod_cast hfits) (.inr (by push_cast; rfl)),
      nearestEven_natCast]
    rw [Nat.succ_mul]
    omega

theorem steps_lt {mantissa steps : Nat} (hsplit : bits = steps * 2 ^ (format.precision - 1) + mantissa)
    (hrange : bits < format.topExponent * 2 ^ (format.precision - 1)) : steps < format.topExponent := by
  by_contra h
  have hle := Nat.mul_le_mul_right (2 ^ (format.precision - 1)) (Nat.le_of_not_lt h)
  omega

/-- Numbers that round to some positive bits are neither too small nor too large. -/
theorem bounds_of_nearest? {format : FloatFormat} {r : ℚ} {bits : Nat} (hr : 0 < r) (hpos : 0 < bits)
    (h : format.nearest? r = some bits) :
    (2 : ℚ) ^ (format.leastScale - 1) ≤ r ∧
      r < 2 ^ (format.leastScale + format.precision + format.topExponent) := by
  simp only [nearest?] at h
  split at h
  next hrange =>
    have hbits := Option.some.inj h
    constructor
    · by_contra hsmall
      have hlt : r < 2 ^ (format.leastScale - 1) := not_le.mp hsmall
      have hscale : format.scaleAt r = format.leastScale :=
        scaleAt_of_lt hr (hlt.trans_le (zpow_le_zpow_right₀ (by norm_num) (by omega)))
      have hhalf : r / 2 ^ format.leastScale < 1 / 2 := by
        rw [div_lt_iff₀ (powerOfTwo_pos _)]
        rwa [zpow_sub_one₀ two_ne_zero, mul_comm, ← one_div] at hlt
      rw [hscale, nearestEven_eq_zero hhalf, sub_self, Int.toNat_zero, Nat.zero_mul] at hbits
      omega
    · by_contra hlarge
      have hlog : format.leastScale + format.precision + format.topExponent ≤ Int.log 2 r :=
        (Int.zpow_le_iff_le_log (by decide) hr).mp (by exact_mod_cast not_lt.mp hlarge)
      have hscale : format.leastScale + format.topExponent ≤ format.scaleAt r := by
        rw [scaleAt]
        omega
      have hsteps : format.topExponent ≤ (format.scaleAt r - format.leastScale).toNat := by omega
      have hle := Nat.mul_le_mul_right (2 ^ (format.precision - 1)) hsteps
      omega
  next => cases h

end FloatFormat

end SchemaJson
