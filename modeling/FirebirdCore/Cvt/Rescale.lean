import FirebirdCore.Cvt.Misread
import FirebirdCore.Lib.HalfAway

/-!
# Numbers of a given scale

`CVT_get_long` and `CVT_get_int64` for exact numbers and for text. Both adjust a value to a scale digit by
digit.
-/
namespace FirebirdCore.Cvt
open FirebirdCore.HalfAway

/-! ## The functions -/

/-- `LONG_LIMIT` -/
def LONG_LIMIT : ℤ := 2 ^ 30 / 5

/-- `INT64_LIMIT` -/
def INT64_LIMIT : ℤ := 2 ^ 62 / 5

/-- The loop that drops digits: what is left, and the last digit that was dropped. -/
def dropDigits : ℕ → ℤ → ℤ × ℤ
  | 0, value => (value, 0)
  | 1, value => (value.tdiv 10, value.tmod 10)
  | n + 2, value => dropDigits (n + 1) (value.tdiv 10)

/-- The loop that appends zeros. -/
def appendZeros (wrap : ℤ → ℤ) (limit : ℤ) : ℕ → ℤ → Except ConversionError ℤ
  | 0, value => .ok value
  | n + 1, value =>
      if value > limit ∨ value < -limit then .error .numericOutOfRange
      else appendZeros wrap limit n (wrap (value * 10))

/-- Adjust for scale, in an integer type. -/
def adjustScale (wrap : ℤ → ℤ) (limit scale value : ℤ) : Except ConversionError ℤ :=
  if scale > 0 then
    let r := dropDigits scale.toNat value
    if r.2 > 4 then .ok (wrap (r.1 + 1))
    else if r.2 < -4 then .ok (wrap (r.1 - 1))
    else .ok r.1
  else if scale < 0 then appendZeros wrap limit (-scale).toNat value
  else .ok value

/-- The sources that are exact numbers, with their `dsc_scale`, and text as an ASCII string, with what is
behind it in memory. -/
inductive Source where
  | dtype_short (value : Int16) (dsc_scale : Int8)
  | dtype_long (value : Int32) (dsc_scale : Int8)
  | dtype_int64 (value : Int64) (dsc_scale : Int8)
  | dtype_text (string behind : List UInt8)

def CVT_get_long (desc : Source) (scale : Int16) : Except ConversionError ℤ :=
  match desc with
  | .dtype_short value dsc_scale =>
      adjustScale SLONG LONG_LIMIT (SSHORT (scale.toInt - dsc_scale.toInt)) value.toInt
  | .dtype_long value dsc_scale =>
      adjustScale SLONG LONG_LIMIT (SSHORT (scale.toInt - dsc_scale.toInt)) value.toInt
  | .dtype_int64 value dsc_scale =>
      match adjustScale SINT64 INT64_LIMIT (SSHORT (scale.toInt - dsc_scale.toInt)) value.toInt with
      | .error e => .error e
      | .ok val64 =>
          if val64 > MAX_SLONG ∨ val64 < MIN_SLONG then .error .numericOutOfRange else .ok (SLONG val64)
  | .dtype_text string behind =>
      match CVT_decompose .dtype_long string behind with
      | .error e => .error e
      | .ok r => adjustScale SLONG LONG_LIMIT (SSHORT (scale.toInt - r.2)) r.1

def CVT_get_int64 (desc : Source) (scale : Int16) : Except ConversionError ℤ :=
  match desc with
  | .dtype_short value dsc_scale =>
      adjustScale SINT64 INT64_LIMIT (SSHORT (scale.toInt - dsc_scale.toInt)) value.toInt
  | .dtype_long value dsc_scale =>
      adjustScale SINT64 INT64_LIMIT (SSHORT (scale.toInt - dsc_scale.toInt)) value.toInt
  | .dtype_int64 value dsc_scale =>
      adjustScale SINT64 INT64_LIMIT (SSHORT (scale.toInt - dsc_scale.toInt)) value.toInt
  | .dtype_text string behind =>
      match CVT_decompose .dtype_int64 string behind with
      | .error e => .error e
      | .ok r => adjustScale SINT64 INT64_LIMIT (SSHORT (scale.toInt - r.2)) r.1

/-! ## Adjusting -/

/-- The number rounded half away from zero, if it fits the type. -/
def rounded (dtype : DType) (x : ℚ) : Except ConversionError ℤ :=
  if dtype.lower_limit ≤ roundHalfAway x ∧ roundHalfAway x ≤ dtype.upper_limit then .ok (roundHalfAway x)
  else .error .numericOutOfRange

section Drop
variable (k n : ℕ) (value : ℤ)

theorem dropDigits_natCast :
    dropDigits (n + 1) (k : ℤ) = (((k / 10 ^ (n + 1) : ℕ) : ℤ), ((k / 10 ^ n % 10 : ℕ) : ℤ)) := by
  induction n generalizing k with
  | zero =>
    rw [dropDigits, Nat.pow_zero, Nat.div_one, zero_add, Nat.pow_one]
    rfl
  | succ n ih =>
    have hten : ((k : ℤ).tdiv 10) = ((k / 10 : ℕ) : ℤ) := rfl
    rw [dropDigits, hten, ih, Nat.div_div_eq_div_mul, Nat.div_div_eq_div_mul, ← Nat.pow_succ', ← Nat.pow_succ']

theorem dropDigits_neg :
    dropDigits (n + 1) (-value) = (-(dropDigits (n + 1) value).1, -(dropDigits (n + 1) value).2) := by
  induction n generalizing value with
  | zero => rw [dropDigits, dropDigits, Int.neg_tdiv, Int.neg_tmod]
  | succ n ih => rw [dropDigits, dropDigits, Int.neg_tdiv, ih]

/-- What the last digit that was dropped does to the value. -/
def roundDropped (r : ℤ × ℤ) : ℤ := if r.2 > 4 then r.1 + 1 else if r.2 < -4 then r.1 - 1 else r.1

theorem roundDropped_neg (r : ℤ × ℤ) : roundDropped (-r.1, -r.2) = -roundDropped r := by
  rw [roundDropped, roundDropped]
  dsimp only
  split_ifs <;> omega

theorem roundDropped_dropDigits :
    roundDropped (dropDigits (n + 1) value) = roundHalfAway ((value : ℚ) / 10 ^ (n + 1)) := by
  have hnat : ∀ k : ℕ, roundDropped (dropDigits (n + 1) (k : ℤ)) =
      roundHalfAway (((k : ℤ) : ℚ) / 10 ^ (n + 1)) := fun k => by
    rw [Int.cast_natCast, roundHalfAway_digits, dropDigits_natCast, roundDropped]
    dsimp only
    split_ifs <;> omega
  obtain ⟨k, rfl | rfl⟩ := value.eq_nat_or_neg
  · exact hnat k
  · rw [dropDigits_neg, roundDropped_neg, hnat, Int.cast_neg, neg_div, roundHalfAway_neg]

/-- A number without its last digit is a tenth at most. -/
theorem dropDigits_abs_le : 10 * |(dropDigits (n + 1) value).1| ≤ |value| := by
  have hnat : ∀ k : ℕ, 10 * |(dropDigits (n + 1) (k : ℤ)).1| ≤ |(k : ℤ)| := fun k => by
    rw [dropDigits_natCast, Nat.abs_cast, Nat.abs_cast, pow_succ, mul_comm (10 ^ n), ← Nat.div_div_eq_div_mul]
    have hle := Nat.div_le_self (k / 10) (10 ^ n)
    omega
  obtain ⟨k, rfl | rfl⟩ := value.eq_nat_or_neg
  · exact hnat k
  · rw [dropDigits_neg, abs_neg, abs_neg]
    exact hnat k

end Drop

/-- The integer type of a target type. -/
def DType.wrap : DType → ℤ → ℤ
  | dtype_long => SLONG
  | dtype_int64 => SINT64

def DType.limit : DType → ℤ
  | dtype_long => LONG_LIMIT
  | dtype_int64 => INT64_LIMIT

/-- The value is one of the type. -/
def DType.Holds (dtype : DType) (value : ℤ) : Prop := dtype.lower_limit ≤ value ∧ value ≤ dtype.upper_limit

section Adjust
variable {dtype : DType} {value : ℤ}

theorem wrap_eq (h : dtype.Holds value) : dtype.wrap value = value := by
  cases dtype with
  | dtype_long => exact SLONG_of_mem h
  | dtype_int64 =>
    obtain ⟨hlower, hupper⟩ := h
    rw [DType.lower_limit, MIN_SINT64] at hlower
    rw [DType.upper_limit, MAX_SINT64] at hupper
    exact SINT64_of_lt (by omega) (by omega)

/-- The test in front of the multiplication. -/
theorem holds_mul_ten : dtype.Holds (value * 10) ↔ ¬ (value > dtype.limit ∨ value < -dtype.limit) := by
  cases dtype with
  | dtype_long =>
    rw [DType.Holds, DType.lower_limit, DType.upper_limit, DType.limit, MIN_SLONG, MAX_SLONG, LONG_LIMIT]
    omega
  | dtype_int64 =>
    rw [DType.Holds, DType.lower_limit, DType.upper_limit, DType.limit, MIN_SINT64, MAX_SINT64, INT64_LIMIT]
    omega

theorem holds_of_mul_pow {n : ℕ} (h : dtype.Holds (value * 10 ^ n)) : dtype.Holds value := by
  have hpow : (1 : ℤ) ≤ 10 ^ n := one_le_pow₀ (by norm_num)
  have hzero : dtype.lower_limit ≤ 0 ∧ 0 ≤ dtype.upper_limit := by
    cases dtype <;> decide
  obtain ⟨hlower, hupper⟩ := h
  rcases le_total 0 value with hvalue | hvalue
  · exact ⟨hzero.1.trans hvalue, (le_mul_of_one_le_right hvalue hpow).trans hupper⟩
  · exact ⟨hlower.trans (mul_le_of_one_le_right hvalue hpow), hvalue.trans hzero.2⟩

/-- Zeros are appended as long as the number fits. -/
theorem appendZeros_eq (n : ℕ) (h : dtype.Holds value) : appendZeros dtype.wrap dtype.limit n value =
    if dtype.lower_limit ≤ value * 10 ^ n ∧ value * 10 ^ n ≤ dtype.upper_limit then .ok (value * 10 ^ n)
    else .error .numericOutOfRange := by
  induction n generalizing value with
  | zero =>
    rw [appendZeros, pow_zero, mul_one, if_pos ⟨h.1, h.2⟩]
  | succ n ih =>
    rw [appendZeros]
    by_cases hten : dtype.Holds (value * 10)
    · rw [if_neg (holds_mul_ten.1 hten), wrap_eq hten, ih hten, pow_succ', mul_assoc]
    · rw [if_pos (not_not.1 (mt holds_mul_ten.2 hten)), if_neg fun hfits => hten ?_]
      refine holds_of_mul_pow (n := n) ?_
      rw [mul_assoc, ← pow_succ']
      exact hfits

theorem holds_roundDropped (n : ℕ) (h : dtype.Holds value) :
    dtype.Holds (roundDropped (dropDigits (n + 1) value)) := by
  have hle := dropDigits_abs_le n value
  have habs : |roundDropped (dropDigits (n + 1) value)| ≤ |(dropDigits (n + 1) value).1| + 1 := by
    rw [roundDropped]
    split_ifs
    · exact (abs_add_le _ _).trans (by norm_num)
    · exact (abs_sub _ _).trans (by norm_num)
    · exact le_add_of_nonneg_right (by norm_num)
  have hwide : 100 ≤ dtype.upper_limit ∧ -dtype.upper_limit - 1 = dtype.lower_limit := by
    cases dtype <;> decide
  obtain ⟨hlower, hupper⟩ := h
  have hvalue : |value| ≤ dtype.upper_limit + 1 := abs_le.2 ⟨by omega, by omega⟩
  rw [DType.Holds]
  have hbound : |roundDropped (dropDigits (n + 1) value)| ≤ dtype.upper_limit := by omega
  obtain ⟨hleft, hright⟩ := abs_le.1 hbound
  exact ⟨by omega, hright⟩

theorem wrap_roundDropped {r : ℤ × ℤ} (h : dtype.Holds (roundDropped r)) :
    (if r.2 > 4 then .ok (dtype.wrap (r.1 + 1)) else if r.2 < -4 then .ok (dtype.wrap (r.1 - 1)) else .ok r.1 :
      Except ConversionError ℤ) = .ok (roundDropped r) := by
  rw [roundDropped] at h ⊢
  by_cases hup : r.2 > 4
  · rw [if_pos hup] at h
    rw [if_pos hup, if_pos hup, wrap_eq h]
  · rw [if_neg hup] at h
    rw [if_neg hup, if_neg hup]
    by_cases hdown : r.2 < -4
    · rw [if_pos hdown] at h
      rw [if_pos hdown, if_pos hdown, wrap_eq h]
    · rw [if_neg hdown, if_neg hdown]

/-- The value is multiplied or divided by a power of ten, and rounded. -/
theorem adjustScale_eq (scale : ℤ) (h : dtype.Holds value) :
    adjustScale dtype.wrap dtype.limit scale value = rounded dtype (value * (10 : ℚ) ^ (-scale)) := by
  rw [adjustScale]
  rcases lt_trichotomy scale 0 with hscale | rfl | hscale
  · obtain ⟨n, rfl⟩ : ∃ n : ℕ, scale = -n := ⟨(-scale).toNat, by omega⟩
    have hexact : (value : ℚ) * (10 : ℚ) ^ (n : ℤ) = ((value * 10 ^ n : ℤ) : ℚ) := by
      rw [zpow_natCast]
      push_cast
      rfl
    rw [if_neg hscale.not_gt, if_pos hscale, neg_neg, Int.toNat_natCast, appendZeros_eq n h, hexact, rounded,
      roundHalfAway_intCast]
  · rw [if_neg (lt_irrefl _), if_neg (lt_irrefl _), neg_zero, zpow_zero, mul_one, rounded,
      roundHalfAway_intCast, if_pos ⟨h.1, h.2⟩]
  · obtain ⟨n, rfl⟩ : ∃ n : ℕ, scale = (n + 1 : ℕ) := ⟨(scale - 1).toNat, by omega⟩
    have hexact : (value : ℚ) * (10 : ℚ) ^ (-((n + 1 : ℕ) : ℤ)) = (value : ℚ) / 10 ^ (n + 1) := by
      rw [zpow_neg, zpow_natCast, div_eq_mul_inv]
    have hholds := holds_roundDropped n h
    have hrounded : rounded dtype ((value : ℚ) / 10 ^ (n + 1)) =
        .ok (roundDropped (dropDigits (n + 1) value)) := by
      rw [rounded, ← roundDropped_dropDigits]
      exact if_pos hholds
    rw [if_pos hscale, hexact, hrounded, Int.toNat_natCast]
    exact wrap_roundDropped hholds

/-- The scales are subtracted in 16 bits, which is no matter for zero. -/
def ScalesFit (value source scale : ℤ) : Prop := value = 0 ∨ -2 ^ 15 ≤ scale - source ∧ scale - source < 2 ^ 15

theorem SSHORT_sub_SSHORT (scale source : ℤ) : SSHORT (scale - SSHORT source) = SSHORT (scale - source) :=
  Int.sub_bmod_bmod

theorem adjustScale_difference {source scale : ℤ} (h : dtype.Holds value) (hfit : ScalesFit value source scale) :
    adjustScale dtype.wrap dtype.limit (SSHORT (scale - source)) value =
      rounded dtype (value * (10 : ℚ) ^ (source - scale)) := by
  rw [adjustScale_eq _ h]
  obtain rfl | ⟨hlower, hupper⟩ := hfit
  · rw [Int.cast_zero, zero_mul, zero_mul]
  · have hdifference : SSHORT (scale - source) = scale - source := by
      rw [SSHORT, Int.bmod_eq_of_le] <;> norm_num <;> omega
    rw [hdifference, neg_sub]

/-- What fits 32 bits fits 64. -/
theorem rounded_long (x : ℚ) :
    (match rounded .dtype_int64 x with
      | .error e => .error e
      | .ok val64 =>
          if val64 > MAX_SLONG ∨ val64 < MIN_SLONG then .error .numericOutOfRange else .ok (SLONG val64)) =
      rounded .dtype_long x := by
  have hlower : DType.dtype_long.lower_limit = MIN_SLONG := rfl
  have hupper : DType.dtype_long.upper_limit = MAX_SLONG := rfl
  rw [rounded, rounded, hlower, hupper]
  generalize roundHalfAway x = n
  by_cases hlong : MIN_SLONG ≤ n ∧ n ≤ MAX_SLONG
  · rw [if_pos (lower_le_upper_of_mem hlong _), if_pos hlong]
    dsimp only
    rw [if_neg (not_or.2 ⟨hlong.2.not_gt, hlong.1.not_gt⟩), SLONG_of_mem hlong]
  · rw [if_neg hlong]
    split_ifs with h64
    · dsimp only
      rw [if_pos (by omega)]
    · rfl

end Adjust

/-! ## Sources -/

/-- The value and the scale of an exact number or of the digits of a decimal literal that fit the type. -/
inductive Source.Denotes (dtype : DType) : Source → ℤ → ℤ → Prop where
  | short (value : Int16) (dsc_scale : Int8) :
      Denotes dtype (dtype_short value dsc_scale) value.toInt dsc_scale.toInt
  | long (value : Int32) (dsc_scale : Int8) :
      Denotes dtype (dtype_long value dsc_scale) value.toInt dsc_scale.toInt
  | int64 (value : Int64) (dsc_scale : Int8) :
      Denotes dtype (dtype_int64 value dsc_scale) value.toInt dsc_scale.toInt
  | text {string : List UInt8} (behind : List UInt8) {negative : Bool} {digits : List ℕ} {places : ℕ}
      {exponent : ℤ} (hliteral : literal? string = some (.decimal negative digits places exponent))
      (hfits : (Literal.decimal negative digits places exponent).Fits dtype) :
      Denotes dtype (dtype_text string behind) (Literal.decimal negative digits places exponent).integer
        (Literal.decimal negative digits places exponent).scale

/-- The function for a target type. -/
def CVT_get : DType → Source → Int16 → Except ConversionError ℤ
  | .dtype_long => CVT_get_long
  | .dtype_int64 => CVT_get_int64

section Text
variable {string : List UInt8} {negative : Bool} {digits : List ℕ} {places : ℕ} {exponent : ℤ}

theorem CVT_decompose_decimal (hliteral : literal? string = some (.decimal negative digits places exponent))
    (dtype : DType) (behind : List UInt8) :
    CVT_decompose dtype string behind = decimalOutcome dtype negative digits places exponent ∧
      ∀ d ∈ digits, d < 10 := by
  obtain ⟨body, -, -, hhex, -⟩ | ⟨-, decimal, hdecimal, hrun⟩ := hexBody_cases string
  · rw [hhex] at hliteral
    exact absurd (hexadecimal?_eq_some_iff.1 hliteral).2 (by simp)
  · rw [hdecimal] at hliteral
    have hspec := decomposeDecimal_spec dtype decimal
    rw [hliteral] at hspec
    obtain ⟨negative', digits', places', exponent', heq, hdigits⟩ := decimal?_eq_some hliteral
    cases heq
    exact ⟨(hrun dtype behind).trans hspec, hdigits⟩

/-- Digits that fit are read with their scale in 16 bits. -/
theorem CVT_decompose_fits {dtype : DType}
    (hliteral : literal? string = some (.decimal negative digits places exponent))
    (hfits : (Literal.decimal negative digits places exponent).Fits dtype) (behind : List UInt8) :
    CVT_decompose dtype string behind =
      .ok ((Literal.decimal negative digits places exponent).integer, SSHORT (exponent - places)) := by
  obtain ⟨hrun, hdigits⟩ := CVT_decompose_decimal hliteral dtype behind
  obtain ⟨hle, hexponent⟩ := (fits_decimal negative digits places exponent).1 hfits
  have hvalues : values dtype negative digits 0 = some (SINT64 (numberFrom 10 0 digits)) :=
    @values_of_le _ _ _ 0 hdigits hle
  rw [hrun, decimalOutcome, hvalues]
  dsimp only
  rw [if_pos hexponent, signed_of_le hle]
  rfl

/-- Any other digits or exponent are out of range, if the digits do not begin again. -/
theorem CVT_decompose_not_fits {dtype : DType}
    (hliteral : literal? string = some (.decimal negative digits places exponent))
    (hfits : ¬ (Literal.decimal negative digits places exponent).Fits dtype) (hagain : ¬ StartsAgain digits)
    (behind : List UInt8) : CVT_decompose dtype string behind = .error .numericOutOfRange := by
  obtain ⟨hrun, hdigits⟩ := CVT_decompose_decimal hliteral dtype behind
  rw [fits_decimal] at hfits
  rw [hrun, decimalOutcome]
  cases hvalues : values dtype negative digits 0 with
  | none => rfl
  | some v =>
    have hle : numberFrom 10 0 digits ≤ dtype.bound negative := by
      by_contra hle
      exact hagain (startsAgain_of_values hdigits hvalues (by omega)).2.2
    exact if_neg fun hexponent => hfits ⟨hle, hexponent⟩

end Text

theorem holds_short (value : Int16) (dtype : DType) : dtype.Holds value.toInt :=
  lower_le_upper_of_mem ⟨le_trans (by decide) value.le_toInt, value.toInt_lt.le.trans (by decide)⟩ dtype

theorem holds_long (value : Int32) (dtype : DType) : dtype.Holds value.toInt :=
  lower_le_upper_of_mem ⟨value.le_toInt, Int.le_sub_one_of_lt value.toInt_lt⟩ dtype

theorem holds_int64 (value : Int64) : DType.dtype_int64.Holds value.toInt :=
  ⟨value.le_toInt, Int.le_sub_one_of_lt value.toInt_lt⟩

/-- An exact number is rescaled and rounded half away from zero, and what does not fit the type is out of
range. So are the digits of a text that do not fit it before they are rescaled. -/
theorem CVT_get_rescales (dtype : DType) (desc : Source) (scale : Int16) :
    (∀ value source : ℤ, desc.Denotes dtype value source → ScalesFit value source scale.toInt →
      CVT_get dtype desc scale = rounded dtype (value * (10 : ℚ) ^ (source - scale.toInt))) ∧
    (∀ (string behind : List UInt8) (negative : Bool) (digits : List ℕ) (places : ℕ) (exponent : ℤ),
      desc = .dtype_text string behind →
      literal? string = some (.decimal negative digits places exponent) → ¬ StartsAgain digits →
      ¬ (Literal.decimal negative digits places exponent).Fits dtype →
      CVT_get dtype desc scale = .error .numericOutOfRange) := by
  constructor
  · intro value source hdenotes hfit
    cases hdenotes with
    | short value dsc_scale =>
      have hrescale := adjustScale_difference (holds_short value dtype) hfit
      cases dtype <;> exact hrescale
    | long value dsc_scale =>
      have hrescale := adjustScale_difference (holds_long value dtype) hfit
      cases dtype <;> exact hrescale
    | int64 value dsc_scale =>
      have hrescale := adjustScale_difference (holds_int64 value) hfit
      cases dtype with
      | dtype_int64 => exact hrescale
      | dtype_long =>
        rw [DType.wrap, DType.limit] at hrescale
        rw [CVT_get, CVT_get_long, hrescale, rounded_long]
    | text behind hliteral hfits =>
      have hread := CVT_decompose_fits hliteral hfits behind
      have hrescale := adjustScale_difference ⟨hfits.1, hfits.2.1⟩ hfit
      rw [Literal.scale, ← SSHORT_sub_SSHORT] at hrescale
      cases dtype with
      | dtype_long =>
        rw [CVT_get, CVT_get_long, hread]
        exact hrescale
      | dtype_int64 =>
        rw [CVT_get, CVT_get_int64, hread]
        exact hrescale
  · rintro string behind negative digits places exponent rfl hliteral hagain hfits
    have hrun := CVT_decompose_not_fits hliteral hfits hagain behind
    cases dtype with
    | dtype_long => rw [CVT_get, CVT_get_long, hrun]
    | dtype_int64 => rw [CVT_get, CVT_get_int64, hrun]

/-- `-2.5` -/
def halves : List UInt8 := [45, 50, 46, 53]

/-- `1.2345678901` -/
def tenPlaces : List UInt8 := [49, 46, 50, 51, 52, 53, 54, 55, 56, 57, 48, 49]

theorem halves_rescaled :
    CVT_get .dtype_int64 (.dtype_text halves []) 0 = rounded .dtype_int64 ((-25 : ℤ) * (10 : ℚ) ^ ((-1 : ℤ) - 0)) ∧
      CVT_get .dtype_long (.dtype_text tenPlaces []) 0 = .error .numericOutOfRange := by
  have hliteral : literal? halves = some (.decimal true [2, 5] 1 0) := by decide +kernel
  have hfits : (Literal.decimal true [2, 5] 1 0).Fits .dtype_int64 := by
    rw [fits_decimal]
    decide +kernel
  have hwide : literal? tenPlaces = some (.decimal false [1, 2, 3, 4, 5, 6, 7, 8, 9, 0, 1] 10 0) := by
    decide +kernel
  have hnot : ¬ (Literal.decimal false [1, 2, 3, 4, 5, 6, 7, 8, 9, 0, 1] 10 0).Fits .dtype_long := by
    rw [fits_decimal]
    decide +kernel
  have hagain : ¬ StartsAgain [1, 2, 3, 4, 5, 6, 7, 8, 9, 0, 1] := fun h => absurd h.lt (by decide +kernel)
  exact ⟨(CVT_get_rescales .dtype_int64 (.dtype_text halves []) 0).1 (-25) (-1) (.text [] hliteral hfits)
      (.inr (by decide)),
    (CVT_get_rescales .dtype_long (.dtype_text tenPlaces []) 0).2 tenPlaces [] false _ 10 0 rfl hwide hagain hnot⟩

/-- The digits are out of range, though the rounded number is one. So is a number that rounds to zero where the
difference of the scales wraps. -/
theorem tenPlaces_not_rescaled :
    (literal? tenPlaces = some (.decimal false [1, 2, 3, 4, 5, 6, 7, 8, 9, 0, 1] 10 0) ∧
      CVT_get_long (.dtype_text tenPlaces []) 0 = .error .numericOutOfRange ∧
      rounded .dtype_long ((12345678901 : ℤ) * (10 : ℚ) ^ ((-10 : ℤ) - 0)) = .ok 1) ∧
    (CVT_get_long (.dtype_short 1 (-1)) 32767 = .error .numericOutOfRange ∧
      rounded .dtype_long ((1 : ℤ) * (10 : ℚ) ^ ((-1 : ℤ) - 32767)) = .ok 0) := by
  have hone : roundHalfAway ((12345678901 : ℤ) * (10 : ℚ) ^ ((-10 : ℤ) - 0)) = 1 := by
    rw [roundHalfAway_of_nonneg (by positivity), Int.floor_eq_iff]
    norm_num
  have hzero : roundHalfAway ((1 : ℤ) * (10 : ℚ) ^ ((-1 : ℤ) - 32767)) = 0 := by
    have hpos : (0 : ℚ) < (10 : ℚ) ^ ((-1 : ℤ) - 32767) := zpow_pos (by norm_num) _
    have hsmall : (10 : ℚ) ^ ((-1 : ℤ) - 32767) < 1 / 2 :=
      calc (10 : ℚ) ^ ((-1 : ℤ) - 32767) ≤ (10 : ℚ) ^ (-1 : ℤ) := zpow_le_zpow_right₀ (by norm_num) (by norm_num)
        _ < 1 / 2 := by norm_num
    rw [Int.cast_one, one_mul, roundHalfAway_of_nonneg hpos.le, Int.floor_eq_zero_iff]
    generalize (10 : ℚ) ^ ((-1 : ℤ) - 32767) = tiny at hpos hsmall ⊢
    exact ⟨by linarith, by linarith⟩
  refine ⟨⟨by decide +kernel, by decide +kernel, ?_⟩, by decide +kernel, ?_⟩
  · rw [rounded, hone]
    rfl
  · rw [rounded, hzero]
    rfl

end FirebirdCore.Cvt
