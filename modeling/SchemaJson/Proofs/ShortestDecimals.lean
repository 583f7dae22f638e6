import SchemaJson.Proofs.FloatText

/-! The digits that are written of a floating-point number are the shortest ones that read back, and
of those the nearest to it. Rounding is monotone, so wherever any multiple of a power of ten rounds
to the bits, one of the two around their value does. -/

namespace SchemaJson

theorem BinaryValue.quotient_eq (value : BinaryValue) :
    0 < value.quotient.2 ∧ (value.quotient.1 : ℚ) / value.quotient.2 = value.toRat := by
  obtain ⟨mantissa, scale⟩ := value
  cases scale with
  | ofNat n => exact ⟨Nat.one_pos, by simp [quotient, toRat]⟩
  | negSucc n =>
    refine ⟨Nat.pow_pos (by decide), ?_⟩
    simp [quotient, toRat, zpow_negSucc, div_eq_mul_inv]

/-- The value lies between two multiples of the grid's step. -/
theorem BinaryValue.exists_place (value : BinaryValue) (exponent : Int) :
    ∃ below rest step : Nat, value.place exponent = (below, rest, step) ∧ rest < step ∧
      value.toRat = (below + rest / step : ℚ) * 10 ^ exponent := by
  obtain ⟨hden, hvalue⟩ := value.quotient_eq
  have hplace (num den : Nat) (hpos : 0 < den) : num % den < den ∧
      (num : ℚ) / den = (num / den : Nat) + (num % den : Nat) / (den : ℚ) := by
    refine ⟨Nat.mod_lt num hpos, ?_⟩
    have hdenPos : (den : ℚ) ≠ 0 := by exact_mod_cast hpos.ne'
    rw [div_eq_iff hdenPos, add_mul, div_mul_cancel₀ _ hdenPos]
    exact_mod_cast (Nat.div_add_mod' num den).symm
  have hten : (10 : ℚ) ≠ 0 := by norm_num
  cases exponent with
  | ofNat n =>
    have hstep : 0 < value.quotient.2 * Nat.pow 10 n := Nat.mul_pos hden (Nat.pow_pos (by decide))
    obtain ⟨hrest, hsplit⟩ := hplace value.quotient.1 _ hstep
    refine ⟨value.quotient.1 / (value.quotient.2 * Nat.pow 10 n),
      value.quotient.1 % (value.quotient.2 * Nat.pow 10 n),
      value.quotient.2 * Nat.pow 10 n, rfl, hrest, ?_⟩
    rw [← hsplit, ← hvalue, Nat.pow_eq, Nat.cast_mul, ← div_div, Nat.cast_pow, Nat.cast_ofNat,
      Int.ofNat_eq_natCast, zpow_natCast, div_mul_cancel₀ _ (pow_ne_zero n hten)]
  | negSucc n =>
    obtain ⟨hrest, hsplit⟩ := hplace (value.quotient.1 * Nat.pow 10 (n + 1)) _ hden
    refine ⟨value.quotient.1 * Nat.pow 10 (n + 1) / value.quotient.2,
      value.quotient.1 * Nat.pow 10 (n + 1) % value.quotient.2, value.quotient.2, rfl, hrest, ?_⟩
    rw [← hsplit, ← hvalue, Nat.pow_eq, Nat.cast_mul, mul_div_right_comm, Nat.cast_pow,
      Nat.cast_ofNat, zpow_negSucc, mul_assoc, mul_inv_cancel₀ (pow_ne_zero _ hten), mul_one]

namespace ShortDecimal

variable {format : FloatFormat} {bits : Nat}

/-- How far the number is from the value of the bits. -/
def distance (number : ShortDecimal) (format : FloatFormat) (bits : Nat) : ℚ :=
  |number.toRat - (format.magnitude bits).toRat|

/-- Of the numbers on its grid that round to the bits none is nearer to their value, and it is even
if another one is as near. -/
def IsNearest (format : FloatFormat) (bits : Nat) (number : ShortDecimal) : Prop :=
  ∀ digits, Rounds format bits ⟨digits, number.exponent⟩ →
    number.distance format bits ≤ distance ⟨digits, number.exponent⟩ format bits ∧
      (number.distance format bits = distance ⟨digits, number.exponent⟩ format bits →
        digits = number.digits ∨ number.digits % 2 = 0)

/-- No number on a coarser grid rounds to the bits, and none on the same grid is nearer. -/
structure IsShortest (format : FloatFormat) (bits : Nat) (number : ShortDecimal) : Prop where
  rounds : number.Rounds format bits
  coarsest : ∀ digits, ¬ Rounds format bits ⟨digits, number.exponent + 1⟩
  nearest : number.IsNearest format bits

/-- One of the two candidates of a grid: it rounds to the bits if any number on its side does, and is
the nearest of them to the value. -/
structure Leads (format : FloatFormat) (bits : Nat) (number : ShortDecimal) (side : Nat → Prop) :
    Prop where
  rounds : ∀ digits, side digits → Rounds format bits ⟨digits, number.exponent⟩ →
    number.Rounds format bits
  nearer : ∀ digits, side digits →
    number.distance format bits ≤ distance ⟨digits, number.exponent⟩ format bits
  only : ∀ digits, side digits →
    number.distance format bits = distance ⟨digits, number.exponent⟩ format bits →
    digits = number.digits

variable {first second number : ShortDecimal} {side : Nat → Prop}

theorem Leads.isNearest_first (hfirst : first.Leads format bits side)
    (hsecond : second.Leads format bits fun digits => ¬ side digits)
    (hgrid : second.exponent = first.exponent)
    (hle : first.distance format bits ≤ second.distance format bits)
    (htie : first.distance format bits = second.distance format bits → first.digits % 2 = 0) :
    first.IsNearest format bits := by
  intro digits hrounds
  by_cases hside : side digits
  · exact ⟨hfirst.nearer digits hside, fun heq => .inl (hfirst.only digits hside heq)⟩
  · have hother := hsecond.nearer digits hside
    rw [hgrid] at hother
    refine ⟨hle.trans hother, fun heq => .inr (htie ?_)⟩
    exact hle.antisymm (hother.trans_eq heq.symm)

theorem Leads.isNearest_second (hfirst : first.Leads format bits side)
    (hsecond : second.Leads format bits fun digits => ¬ side digits)
    (hgrid : second.exponent = first.exponent) (hnone : ¬ first.Rounds format bits) :
    second.IsNearest format bits := by
  intro digits hrounds
  have hside : ¬ side digits := fun hside =>
    hnone (hfirst.rounds digits hside (hgrid ▸ hrounds))
  exact ⟨hsecond.nearer digits hside, fun heq => .inl (hsecond.only digits hside heq)⟩

/-- The first candidate is taken if it rounds to the bits, and the second one if only that does. -/
theorem Leads.candidates_spec (hfirst : first.Leads format bits side)
    (hsecond : second.Leads format bits fun digits => ¬ side digits)
    (hgrid : second.exponent = first.exponent)
    (hle : first.distance format bits ≤ second.distance format bits)
    (htie : first.distance format bits = second.distance format bits → first.digits % 2 = 0) :
    match (if first.readsAs format bits then some first
      else if second.readsAs format bits then some second else none) with
    | some number => number.exponent = first.exponent ∧ number.IsNearest format bits
    | none => ∀ digits, ¬ Rounds format bits ⟨digits, first.exponent⟩ := by
  by_cases hone : first.readsAs format bits = true
  · rw [if_pos hone]
    exact ⟨rfl, hfirst.isNearest_first hsecond hgrid hle htie⟩
  rw [if_neg hone]
  by_cases hother : second.readsAs format bits = true
  · rw [if_pos hother]
    exact ⟨hgrid, hfirst.isNearest_second hsecond hgrid (mt readsAs_iff.mpr hone)⟩
  · rw [if_neg hother]
    intro digits hrounds
    by_cases hside : side digits
    · exact hone (readsAs_iff.mpr (hfirst.rounds digits hside hrounds))
    · exact hother (readsAs_iff.mpr (hsecond.rounds digits hside (hgrid ▸ hrounds)))

theorem distance_eq {x : ℚ} {exponent : Int}
    (h : (format.magnitude bits).toRat = x * 10 ^ exponent) (digits : Nat) :
    distance ⟨digits, exponent⟩ format bits = |(digits : ℚ) - x| * 10 ^ exponent := by
  rw [distance, toRat, h, ← sub_mul, abs_mul, abs_of_pos (DecimalNumber.powerOfTen_pos exponent)]

section Grid

variable {x : ℚ} {exponent : Int} {below : Nat}

theorem leads_below (hvalue : format.nearest? (format.magnitude bits).toRat = some bits)
    (hplace : (format.magnitude bits).toRat = x * 10 ^ exponent) (hx : below ≤ x) :
    Leads format bits ⟨below, exponent⟩ (· ≤ below) := by
  have hpower := DecimalNumber.powerOfTen_pos exponent
  have hfar (digits : Nat) (h : digits ≤ below) :
      |(below : ℚ) - x| + (below - digits) = |(digits : ℚ) - x| := by
    have hdigits : (digits : ℚ) ≤ below := by exact_mod_cast h
    rw [abs_of_nonpos (by linarith), abs_of_nonpos (by linarith)]
    ring
  refine ⟨fun digits h hrounds => ⟨hrounds.1.trans_le h, ?_⟩, fun digits h => ?_,
    fun digits h heq => ?_⟩
  · have hpositive : 0 < toRat ⟨digits, exponent⟩ := mul_pos (by exact_mod_cast hrounds.1) hpower
    have hup : toRat ⟨digits, exponent⟩ ≤ toRat ⟨below, exponent⟩ :=
      mul_le_mul_of_nonneg_right (by exact_mod_cast h) hpower.le
    have hvalueUp : toRat ⟨below, exponent⟩ ≤ (format.magnitude bits).toRat :=
      hplace ▸ mul_le_mul_of_nonneg_right hx hpower.le
    exact FloatFormat.nearest?_of_between hpositive hup hvalueUp hrounds.2 hvalue
  · rw [distance_eq hplace, distance_eq hplace, ← hfar digits h]
    refine mul_le_mul_of_nonneg_right ?_ hpower.le
    have hdigits : (digits : ℚ) ≤ below := by exact_mod_cast h
    linarith
  · rw [distance_eq hplace, distance_eq hplace, ← hfar digits h] at heq
    have hsame := mul_right_cancel₀ hpower.ne' heq
    have hdigits : (digits : ℚ) = below := by linarith
    exact_mod_cast hdigits

theorem leads_above (hvalue : format.nearest? (format.magnitude bits).toRat = some bits)
    (hpositive : 0 < (format.magnitude bits).toRat)
    (hplace : (format.magnitude bits).toRat = x * 10 ^ exponent) (hx : x < below + 1) :
    Leads format bits ⟨below + 1, exponent⟩ fun digits => ¬ digits ≤ below := by
  have hpower := DecimalNumber.powerOfTen_pos exponent
  have hfar (digits : Nat) (h : ¬ digits ≤ below) :
      |((below + 1 : Nat) : ℚ) - x| + (digits - (below + 1 : Nat)) = |(digits : ℚ) - x| := by
    have hdigits : ((below + 1 : Nat) : ℚ) ≤ digits := by exact_mod_cast Nat.lt_of_not_le h
    push_cast at hdigits ⊢
    rw [abs_of_nonneg (by linarith), abs_of_nonneg (by linarith)]
    ring
  refine ⟨fun digits h hrounds => ⟨Nat.succ_pos below, ?_⟩, fun digits h => ?_,
    fun digits h heq => ?_⟩
  · have hvalueDown : (format.magnitude bits).toRat ≤ toRat ⟨below + 1, exponent⟩ := by
      rw [hplace]
      refine mul_le_mul_of_nonneg_right ?_ hpower.le
      push_cast
      exact hx.le
    have hdown : toRat ⟨below + 1, exponent⟩ ≤ toRat ⟨digits, exponent⟩ :=
      mul_le_mul_of_nonneg_right (by exact_mod_cast Nat.lt_of_not_le h) hpower.le
    exact FloatFormat.nearest?_of_between hpositive hvalueDown hdown hvalue hrounds.2
  · rw [distance_eq hplace, distance_eq hplace, ← hfar digits h]
    refine mul_le_mul_of_nonneg_right ?_ hpower.le
    have hdigits : ((below + 1 : Nat) : ℚ) ≤ digits := by exact_mod_cast Nat.lt_of_not_le h
    linarith
  · rw [distance_eq hplace, distance_eq hplace, ← hfar digits h] at heq
    have hsame := mul_right_cancel₀ hpower.ne' heq
    have hdigits : (digits : ℚ) = (below + 1 : Nat) := by linarith
    exact_mod_cast hdigits

/-- Which of the two numbers around the value is nearer, by the rest of a division. -/
theorem distance_below_compare {rest step : Nat} (hrest : rest < step)
    (hplace : (format.magnitude bits).toRat = (below + rest / step : ℚ) * 10 ^ exponent) :
    (distance ⟨below, exponent⟩ format bits ≤ distance ⟨below + 1, exponent⟩ format bits ↔
      2 * rest ≤ step) ∧
    (distance ⟨below, exponent⟩ format bits = distance ⟨below + 1, exponent⟩ format bits ↔
      2 * rest = step) := by
  have hpower := DecimalNumber.powerOfTen_pos exponent
  have hstep : (0 : ℚ) < step := by exact_mod_cast (Nat.zero_le rest).trans_lt hrest
  have hfraction : (rest : ℚ) / step < 1 := by
    rw [div_lt_one hstep]
    exact_mod_cast hrest
  have hnonneg : (0 : ℚ) ≤ rest / step := by positivity
  have hbelow :
      distance ⟨below, exponent⟩ format bits = rest / step * 10 ^ exponent := by
    rw [distance_eq hplace, sub_add_cancel_left, abs_neg, abs_of_nonneg hnonneg]
  have habove :
      distance ⟨below + 1, exponent⟩ format bits = (1 - rest / step) * 10 ^ exponent := by
    have hgap : ((below + 1 : Nat) : ℚ) - (below + rest / step) = 1 - rest / step := by
      push_cast
      ring
    rw [distance_eq hplace, hgap, abs_of_nonneg (sub_nonneg.mpr hfraction.le)]
  rw [hbelow, habove, mul_le_mul_iff_left₀ hpower, mul_left_inj' hpower.ne']
  constructor
  · rw [le_sub_iff_add_le, ← two_mul, ← mul_div_assoc, div_le_one hstep]
    norm_cast
  · rw [eq_sub_iff_add_eq, ← two_mul, ← mul_div_assoc, div_eq_one_iff_eq hstep.ne']
    norm_cast

end Grid

end ShortDecimal

namespace ShortDecimal.IsShortest

variable {format : FloatFormat} {bits : Nat} {first second : ShortDecimal}

theorem exponent_le (hfirst : first.IsShortest format bits) (hsecond : second.IsShortest format bits) :
    second.exponent ≤ first.exponent := by
  by_contra hlt
  obtain ⟨n, hn⟩ := Int.eq_ofNat_of_zero_le (show 0 ≤ second.exponent - (first.exponent + 1) by omega)
  -- A number on a coarse grid is also one on the finer grid.
  have hsame : toRat ⟨second.digits * 10 ^ n, first.exponent + 1⟩ = second.toRat := by
    have hexponent : second.exponent = n + (first.exponent + 1) := by omega
    have hpower : (10 : ℚ) ^ second.exponent = 10 ^ n * 10 ^ (first.exponent + 1) := by
      rw [hexponent, zpow_add₀ (by norm_num) (n : Int), zpow_natCast]
    rw [toRat, toRat, hpower, Nat.cast_mul, Nat.cast_pow, Nat.cast_ofNat, mul_assoc]
  refine hfirst.coarsest (second.digits * 10 ^ n) ⟨?_, hsame ▸ hsecond.rounds.2⟩
  exact Nat.mul_pos hsecond.rounds.1 (Nat.pow_pos (by decide))

theorem digits_le (hfirst : first.IsShortest format bits) (hsecond : second.IsShortest format bits)
    (hgrid : second.exponent = first.exponent) : second.digits ≤ first.digits := by
  by_contra hlt
  obtain ⟨digits, exponent⟩ := first
  obtain ⟨digits', exponent'⟩ := second
  change exponent' = exponent at hgrid
  change ¬ digits' ≤ digits at hlt
  subst hgrid
  obtain ⟨hle, htie⟩ := hfirst.nearest digits' hsecond.rounds
  obtain ⟨hge, htie'⟩ := hsecond.nearest digits hfirst.rounds
  have hequal := hle.antisymm hge
  have heven : digits % 2 = 0 := (htie hequal).resolve_left (by dsimp only; omega)
  have heven' : digits' % 2 = 0 := (htie' hequal.symm).resolve_left (by dsimp only; omega)
  -- Two even numbers that are equally near have a nearer one in the middle.
  have hpower := DecimalNumber.powerOfTen_pos exponent'
  have hlow : toRat ⟨digits, exponent'⟩ < toRat ⟨digits + 1, exponent'⟩ :=
    mul_lt_mul_of_pos_right (by exact_mod_cast Nat.lt_succ_self digits) hpower
  have hhigh : toRat ⟨digits + 1, exponent'⟩ < toRat ⟨digits', exponent'⟩ :=
    mul_lt_mul_of_pos_right (by exact_mod_cast (show digits + 1 < digits' by omega)) hpower
  have hpositive : 0 < toRat ⟨digits, exponent'⟩ :=
    mul_pos (by exact_mod_cast hfirst.rounds.1) hpower
  have hmiddle : Rounds format bits ⟨digits + 1, exponent'⟩ := ⟨Nat.succ_pos digits,
    FloatFormat.nearest?_of_between hpositive hlow.le hhigh.le hfirst.rounds.2 hsecond.rounds.2⟩
  have hnearer := (hfirst.nearest (digits + 1) hmiddle).1
  simp only [distance] at hequal hnearer
  rcases abs_eq_abs.mp hequal with hsame | hopposite
  · linarith
  · have hdistance : |toRat ⟨digits + 1, exponent'⟩ - (format.magnitude bits).toRat|
        < |toRat ⟨digits, exponent'⟩ - (format.magnitude bits).toRat| := by
      rw [abs_of_neg (show toRat ⟨digits, exponent'⟩ - (format.magnitude bits).toRat < 0 by linarith),
        abs_lt]
      constructor <;> linarith
    exact absurd hdistance (not_lt.mpr hnearer)

/-- There is one shortest number. -/
theorem unique (hfirst : first.IsShortest format bits) (hsecond : second.IsShortest format bits) :
    first = second := by
  have hgrid : second.exponent = first.exponent :=
    (hfirst.exponent_le hsecond).antisymm (hsecond.exponent_le hfirst)
  have hdigits : second.digits = first.digits :=
    (hfirst.digits_le hsecond hgrid).antisymm (hsecond.digits_le hfirst hgrid.symm)
  obtain ⟨digits, exponent⟩ := first
  cases hdigits
  cases hgrid
  rfl

end ShortDecimal.IsShortest

namespace FloatFormat

variable {format : FloatFormat} {bits : Nat} {exponent : Int} {number : ShortDecimal}

/-- A grid is searched for the two multiples around the value only, which is enough: a hit is the
nearest of all, and without one there is none. -/
theorem onGrid?_spec (hpositive : 0 < (format.magnitude bits).toRat)
    (hvalue : format.nearest? (format.magnitude bits).toRat = some bits) (exponent : Int) :
    match format.onGrid? .toEven bits exponent with
    | some number => number.exponent = exponent ∧ number.IsNearest format bits
    | none => ∀ digits, ¬ ShortDecimal.Rounds format bits ⟨digits, exponent⟩ := by
  obtain ⟨below, rest, step, hplace, hrest, hsplit⟩ :=
    (format.magnitude bits).exists_place exponent
  have hstep : (0 : ℚ) < step := by exact_mod_cast (Nat.zero_le rest).trans_lt hrest
  have hfraction : (rest : ℚ) / step < 1 := by
    rw [div_lt_one hstep]
    exact_mod_cast hrest
  have hlow := ShortDecimal.leads_below hvalue hsplit (le_add_of_nonneg_right (by positivity))
  have hhigh := ShortDecimal.leads_above hvalue hpositive hsplit (by gcongr)
  obtain ⟨hle, heq⟩ := ShortDecimal.distance_below_compare hrest hsplit
  simp only [onGrid?, hplace, Tie.takesLower]
  by_cases hcloser : (decide (2 * rest < step) || 2 * rest == step && below % 2 == 0) = true
  · rw [if_pos hcloser]
    simp only [Bool.or_eq_true, decide_eq_true_eq, Bool.and_eq_true, beq_iff_eq] at hcloser
    refine hlow.candidates_spec hhigh rfl (hle.mpr (by omega)) fun htie => ?_
    have heven := heq.mp htie
    show below % 2 = 0
    omega
  · rw [if_neg hcloser]
    simp only [Bool.or_eq_true, decide_eq_true_eq, Bool.and_eq_true, beq_iff_eq] at hcloser
    have hbelow : ShortDecimal.Leads format bits ⟨below, exponent⟩
        fun digits => ¬ ¬ digits ≤ below := by
      simpa only [not_not] using hlow
    refine hhigh.candidates_spec hbelow rfl ?_ fun htie => ?_
    · by_cases htie : 2 * rest = step
      · exact (heq.mpr htie).ge
      · exact (not_le.mp (mt hle.mp (by omega))).le
    · have hodd := heq.mp htie.symm
      show (below + 1) % 2 = 0
      omega

theorem coarsest?_spec (hpositive : 0 < (format.magnitude bits).toRat)
    (hvalue : format.nearest? (format.magnitude bits).toRat = some bits) {count : Nat}
    (habove : ∀ digits, ¬ ShortDecimal.Rounds format bits ⟨digits, exponent + 1⟩) :
    match format.coarsest? .toEven bits count exponent with
    | some number => number.IsShortest format bits
    | none => ∀ passed < count, ∀ digits,
        ¬ ShortDecimal.Rounds format bits ⟨digits, exponent - passed⟩ := by
  induction count generalizing exponent with
  | zero =>
    intro passed hpassed
    omega
  | succ count ih =>
    have hgrid := onGrid?_spec hpositive hvalue exponent
    rw [coarsest?]
    cases hfound : format.onGrid? .toEven bits exponent with
    | some number =>
      rw [hfound] at hgrid
      exact ⟨onGrid?_rounds hfound, hgrid.1 ▸ habove, hgrid.2⟩
    | none =>
      rw [hfound] at hgrid
      have hrest := @ih (exponent - 1) (by simpa using hgrid)
      dsimp only
      cases hmore : format.coarsest? .toEven bits count (exponent - 1) with
      | some number =>
        rw [hmore] at hrest
        exact hrest
      | none =>
        rw [hmore] at hrest
        intro passed hpassed
        cases passed with
        | zero => simpa using hgrid
        | succ passed =>
          have hnext := hrest passed (by omega)
          rwa [show exponent - 1 - (passed : Int) = exponent - (passed + 1 : Nat) by omega] at hnext

/-- Powers of two and of ten compare as `93 / 28` and `196 / 59` do with the logarithm of ten. -/
theorem two_zpow_le_ten_pow {k : Int} {n : Nat} (h : 28 * k ≤ 93 * n) : (2 : ℚ) ^ k ≤ 10 ^ n := by
  have hten : (0 : ℚ) ≤ 10 ^ n := (pow_pos (by norm_num) n).le
  refine le_of_pow_le_pow_left₀ (by decide : (28 : Nat) ≠ 0) hten ?_
  calc ((2 : ℚ) ^ k) ^ 28 = 2 ^ (28 * k) := by rw [← zpow_natCast, ← zpow_mul, mul_comm]; rfl
    _ ≤ 2 ^ ((93 * n : Nat) : Int) := zpow_le_zpow_right₀ (by norm_num) (by exact_mod_cast h)
    _ = (2 ^ 93) ^ n := by rw [zpow_natCast, pow_mul]
    _ ≤ (10 ^ 28) ^ n := pow_le_pow_left₀ (by norm_num) (by norm_num) n
    _ = (10 ^ n) ^ 28 := by rw [← pow_mul, mul_comm, pow_mul]

theorem ten_pow_le_two_zpow {k : Int} {n : Nat} (h : 196 * n ≤ 59 * k) : (10 : ℚ) ^ n ≤ 2 ^ k := by
  refine le_of_pow_le_pow_left₀ (by decide : (59 : Nat) ≠ 0) (powerOfTwo_pos k).le ?_
  calc ((10 : ℚ) ^ n) ^ 59 = (10 ^ 59) ^ n := by rw [← pow_mul, mul_comm, pow_mul]
    _ ≤ (2 ^ 196) ^ n := pow_le_pow_left₀ (by norm_num) (by norm_num) n
    _ = 2 ^ ((196 * n : Nat) : Int) := by rw [zpow_natCast, pow_mul]
    _ ≤ 2 ^ (59 * k) := zpow_le_zpow_right₀ (by norm_num) (by exact_mod_cast h)
    _ = (2 ^ k) ^ 59 := by rw [← zpow_natCast, ← zpow_mul, mul_comm]; rfl

theorem two_zpow_le_ten_zpow {a b : Int} (hup : 28 * a ≤ 93 * b) (hdown : 59 * a ≤ 196 * b) :
    (2 : ℚ) ^ a ≤ 10 ^ b := by
  obtain ⟨n, rfl | rfl⟩ := b.eq_nat_or_neg
  · rw [zpow_natCast]
    exact two_zpow_le_ten_pow hup
  · have hinv := inv_anti₀ (pow_pos (by norm_num) n)
      (@ten_pow_le_two_zpow (-a) n (by rw [mul_neg] at hdown ⊢; omega))
    rwa [zpow_neg, inv_inv, ← zpow_natCast, ← zpow_neg] at hinv

theorem ten_zpow_le_two_zpow {a b : Int} (hup : 196 * b ≤ 59 * a) (hdown : 93 * b ≤ 28 * a) :
    (10 : ℚ) ^ b ≤ 2 ^ a := by
  obtain ⟨n, rfl | rfl⟩ := b.eq_nat_or_neg
  · rw [zpow_natCast]
    exact ten_pow_le_two_zpow hup
  · have hinv := inv_anti₀ (powerOfTwo_pos (-a))
      (@two_zpow_le_ten_pow (-a) n (by rw [mul_neg] at hdown ⊢; omega))
    rwa [zpow_neg, inv_inv, ← zpow_natCast, ← zpow_neg] at hinv

/-- The binary length and scale of positive bits, as bounds of their value. -/
theorem magnitude_bounds {mantissa : Nat} {scale : Int} (hpos : 0 < mantissa) :
    (2 : ℚ) ^ ((mantissa.log2 : Int) + scale) ≤ mantissa * 2 ^ scale ∧
      ((mantissa + 1 : Nat) : ℚ) * 2 ^ scale ≤ 2 ^ ((mantissa.log2 : Int) + 1 + scale) := by
  have hlow : 2 ^ mantissa.log2 ≤ mantissa := Nat.log2_self_le hpos.ne'
  have hhigh : mantissa + 1 ≤ 2 ^ (mantissa.log2 + 1) := Nat.lt_log2_self
  constructor
  · rw [zpow_add₀ two_ne_zero, zpow_natCast]
    refine mul_le_mul_of_nonneg_right ?_ (powerOfTwo_pos scale).le
    exact_mod_cast hlow
  · rw [zpow_add₀ two_ne_zero]
    refine mul_le_mul_of_nonneg_right ?_ (powerOfTwo_pos scale).le
    exact_mod_cast hhigh

theorem exists_multiple_above {value step : ℚ} (hvalue : 0 ≤ value) (hstep : 0 < step) :
    ∃ digits : Nat, value ≤ digits * step ∧ digits * step ≤ value + step := by
  refine ⟨⌈value / step⌉₊, (div_le_iff₀ hstep).mp (Nat.le_ceil _), ?_⟩
  have hlt := Nat.ceil_lt_add_one (div_nonneg hvalue hstep.le)
  rw [div_add_one hstep.ne', lt_div_iff₀ hstep] at hlt
  exact hlt.le

section Bounds

variable (hpos : 0 < bits) (hbits : bits < 2 ^ (format.bits - 1))
  (hfinite : format.isFinite bits = true)

include hpos hbits hfinite

/-- Above the first grid that is searched nothing rounds to the bits. -/
theorem not_rounds_above_ceiling (digits : Nat) :
    ¬ ShortDecimal.Rounds format bits ⟨digits, format.ceilingExponent bits + 1⟩ := by
  rintro ⟨hdigits, hrounds⟩
  obtain ⟨mantissa, steps, hmagnitude, hsplit, hmantissa, hhigh, hlow⟩ := exists_magnitude hpos hbits
  have hvalue := nearest?_magnitude hpos hbits hfinite
  have hsteps := steps_lt hsplit (nearest?_eq_some_iff.mp hvalue).2
  have hlog : mantissa.log2 < format.precision := (Nat.log2_lt hmantissa.ne').mpr hhigh
  have hnext : ((mantissa + 1 : Nat) : ℚ) * 2 ^ (format.leastScale + steps)
      ≤ ShortDecimal.toRat ⟨digits, format.ceilingExponent bits + 1⟩ := by
    calc ((mantissa + 1 : Nat) : ℚ) * 2 ^ (format.leastScale + steps)
        ≤ 2 ^ ((mantissa.log2 : Int) + 1 + (format.leastScale + steps)) :=
          (magnitude_bounds hmantissa).2
      _ ≤ 10 ^ (format.ceilingExponent bits + 1) := by
        simp only [ceilingExponent, hmagnitude]
        refine two_zpow_le_ten_zpow ?_ ?_ <;> cases format <;>
          simp only [leastScale, precision, topExponent] at * <;> omega
      _ ≤ ShortDecimal.toRat ⟨digits, format.ceilingExponent bits + 1⟩ :=
        le_mul_of_one_le_left (DecimalNumber.powerOfTen_pos _).le (by exact_mod_cast hdigits)
  -- Then the next value of the format would round to the bits as well.
  have hpower := powerOfTwo_pos (format.leastScale + steps)
  rw [hmagnitude] at hvalue
  have hbetween : format.nearest? ((mantissa + 1 : Nat) * 2 ^ (format.leastScale + steps))
      = some bits := by
    refine nearest?_of_between (mul_pos (by exact_mod_cast hmantissa) hpower) ?_ hnext hvalue hrounds
    exact mul_le_mul_of_nonneg_right (by exact_mod_cast Nat.le_succ mantissa) hpower.le
  have hrounded := (nearest?_eq_some_iff.mp hbetween).1
  rw [rounded_next hhigh hlow] at hrounded
  omega

/-- On the last grid that is searched the multiple above the value rounds to the bits. -/
theorem exists_rounds_below_ceiling :
    ∃ digits, ShortDecimal.Rounds format bits ⟨digits, format.ceilingExponent bits - 19⟩ := by
  obtain ⟨mantissa, steps, hmagnitude, hsplit, hmantissa, hhigh, hlow⟩ := exists_magnitude hpos hbits
  have hvalue := nearest?_magnitude hpos hbits hfinite
  have hrange := (nearest?_eq_some_iff.mp hvalue).2
  have hsteps := steps_lt hsplit hrange
  have hlog : mantissa.log2 < format.precision := (Nat.log2_lt hmantissa.ne').mpr hhigh
  have hpower := powerOfTwo_pos (format.leastScale + steps)
  have hgrid : (10 : ℚ) ^ (format.ceilingExponent bits - 19)
      ≤ 2 ^ (format.leastScale + steps - 2) := by
    simp only [ceilingExponent, hmagnitude]
    refine ten_zpow_le_two_zpow ?_ ?_ <;> cases format <;>
      simp only [leastScale, precision, topExponent] at * <;> omega
  have hten := DecimalNumber.powerOfTen_pos (format.ceilingExponent bits - 19)
  generalize format.ceilingExponent bits - 19 = exponent at *
  have hquarter : (2 : ℚ) ^ (format.leastScale + steps - 2)
      = 1 / 4 * 2 ^ (format.leastScale + steps) := by
    rw [zpow_sub₀ two_ne_zero]
    ring
  have hmantissaPos : (0 : ℚ) < mantissa := by exact_mod_cast hmantissa
  obtain ⟨digits, hfloor, hceiling⟩ :=
    exists_multiple_above (mul_pos hmantissaPos hpower).le hten
  obtain ⟨x, hx⟩ : ∃ x : ℚ, digits * (10 : ℚ) ^ exponent = x * 2 ^ (format.leastScale + steps) :=
    ⟨_, (div_mul_cancel₀ _ hpower.ne').symm⟩
  have hnear : (mantissa : ℚ) ≤ x ∧ x ≤ mantissa + 1 / 4 := by
    constructor
    · exact le_of_mul_le_mul_right (hx ▸ hfloor) hpower
    · refine le_of_mul_le_mul_right ?_ hpower
      rw [← hx, add_mul, ← hquarter]
      exact hceiling.trans (by gcongr)
  have hfits : x < 2 ^ format.precision := by
    have hnext : ((mantissa + 1 : Nat) : ℚ) ≤ 2 ^ format.precision := by exact_mod_cast hhigh
    push_cast at hnext
    linarith
  have hlow' : steps = 0 ∨ 2 ^ (format.precision - 1) ≤ x :=
    hlow.imp_right fun h => le_trans (by exact_mod_cast h) hnear.1
  refine ⟨digits, ?_, nearest?_eq_some_iff.mpr ⟨?_, hrange⟩⟩
  · refine Nat.pos_of_ne_zero fun (hzero : digits = 0) => ?_
    rw [hzero, Nat.cast_zero, zero_mul] at hfloor
    exact absurd (mul_pos hmantissaPos hpower) (not_lt.mpr hfloor)
  · rw [ShortDecimal.toRat, hx, rounded_mul (hmantissaPos.trans_le hnear.1) hfits hlow',
      nearestEven_of_near hnear.1 (by linarith), hsplit]

/-- The digits that are written of positive bits are the shortest ones. -/
theorem isShortest_shortest : (format.shortest .toEven bits).IsShortest format bits := by
  have hvalue := nearest?_magnitude hpos hbits hfinite
  have hpositive : 0 < (format.magnitude bits).toRat :=
    mul_pos (by exact_mod_cast mantissa_magnitude_pos hpos hbits) (powerOfTwo_pos _)
  have hspec := @coarsest?_spec format bits _ hpositive hvalue 20
    (not_rounds_above_ceiling hpos hbits hfinite)
  rw [shortest]
  cases hfound : format.coarsest? .toEven bits 20 (format.ceilingExponent bits) with
  | some number =>
    rw [hfound] at hspec
    exact hspec
  | none =>
    rw [hfound] at hspec
    obtain ⟨digits, hrounds⟩ := exists_rounds_below_ceiling hpos hbits hfinite
    exact absurd hrounds (hspec 19 (by decide) digits)

end Bounds

end FloatFormat

end SchemaJson
