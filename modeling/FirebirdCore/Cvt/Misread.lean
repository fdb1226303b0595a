import FirebirdCore.Cvt.Literal
import Mathlib.Data.FinEnum

/-!
# What `CVT_decompose` misreads

The kinds of strings for which the value is not the number of the literal, or for which there is an
error in spite of a literal.
-/
namespace FirebirdCore.Cvt

variable {dtype : DType}

/-! ## Hexadecimal literals -/

theorem allSpaces_takeWhile {text : List UInt8} (h : AllSpaces text) :
    text.takeWhile (fun c => c ≠ 0 && c ≠ space) = [] ∧
      text.dropWhile (fun c => c ≠ 0 && c ≠ space) = text := by
  cases text with
  | nil => exact ⟨rfl, rfl⟩
  | cons c text =>
    obtain ⟨rfl, -⟩ := (allSpaces_cons c text).1 h
    exact ⟨rfl, rfl⟩

theorem takeWhile_hex {body : List UInt8} (h : AllSpaces (body.dropWhile isHex)) :
    body.takeWhile (fun c => c ≠ 0 && c ≠ space) = body.takeWhile isHex ∧
      body.dropWhile (fun c => c ≠ 0 && c ≠ space) = body.dropWhile isHex := by
  have hsplit : body = body.takeWhile isHex ++ body.dropWhile isHex :=
    List.takeWhile_append_dropWhile.symm
  have hblank : ∀ c ∈ body.takeWhile isHex, (c ≠ 0 && c ≠ space) = true :=
    fun c hc => not_blank_of_isHex (List.mem_takeWhile_imp hc)
  obtain ⟨htake, hdrop⟩ := allSpaces_takeWhile h
  generalize body.takeWhile isHex = digits at *
  generalize body.dropWhile isHex = tail at *
  subst hsplit
  rw [List.takeWhile_append_of_pos hblank, List.dropWhile_append_of_pos hblank, htake, hdrop,
    List.append_nil]
  exact ⟨rfl, rfl⟩

/-- Something else than digits and spaces is an error. -/
theorem decomposeHex_error {body : List UInt8} (behind : List UInt8)
    (h : ¬ AllSpaces (body.dropWhile isHex)) :
    decomposeHex dtype body behind = .error .conversion := by
  have hsplit : body.takeWhile isHex ++ body.dropWhile isHex = body := List.takeWhile_append_dropWhile
  have hsplit' := List.takeWhile_append_dropWhile (p := fun c : UInt8 => c ≠ 0 && c ≠ space) (l := body)
  unfold decomposeHex
  dsimp only
  by_cases hrest : (body.dropWhile fun c => c ≠ 0 && c ≠ space).dropWhile (· = space) ≠ [] ∨
      body.length = 0 ∨ body.length > 16
  · exact if_pos hrest
  · rw [if_neg hrest, if_pos]
    · push Not at hrest
      rw [hex_to_value, hexLoop_read, zero_add]
      intro hread
      -- the digits end at a character in the string, so all of it would be digits and spaces
      have hne : body.dropWhile isHex ≠ [] := fun hnil => h (by rw [hnil]; rfl)
      have hmemory : (body ++ behind).takeWhile isHex = body.takeWhile isHex := by
        rw [List.takeWhile_append, if_neg]
        intro hlength
        have := congrArg List.length hsplit
        rw [List.length_append, hlength] at this
        exact hne (List.eq_nil_of_length_eq_zero (by omega))
      rw [hmemory] at hread
      obtain ⟨-, htail⟩ := List.append_inj (hsplit.trans hsplit'.symm) hread
      exact h (by rw [htail]; exact hrest.1)

theorem SLONG_SINT64 (x : ℤ) : SLONG (SINT64 x) = SLONG x :=
  Int.bmod_bmod_of_dvd (by norm_num)

theorem SLONG_mem (x : ℤ) : MIN_SLONG ≤ SLONG x ∧ SLONG x ≤ MAX_SLONG := by
  have hle : -(2 ^ 31 : ℤ) ≤ SLONG x := Int.le_bmod (by norm_num)
  have hlt : SLONG x < 2 ^ 31 := Int.bmod_lt (by norm_num)
  unfold MIN_SLONG MAX_SLONG
  omega

theorem SINT64_mem (x : ℤ) : MIN_SINT64 ≤ SINT64 x ∧ SINT64 x ≤ MAX_SINT64 := by
  have hle : -(2 ^ 63 : ℤ) ≤ SINT64 x := Int.le_bmod (by norm_num)
  have hlt : SINT64 x < 2 ^ 63 := Int.bmod_lt (by norm_num)
  unfold MIN_SINT64 MAX_SINT64
  omega

theorem SLONG_of_mem {x : ℤ} (h : MIN_SLONG ≤ x ∧ x ≤ MAX_SLONG) : SLONG x = x := by
  unfold MIN_SLONG MAX_SLONG at h
  unfold SLONG
  rw [Int.bmod_eq_of_le] <;> norm_num <;> omega

theorem return_value_of_mem {x : ℤ} (h : MIN_SLONG ≤ x ∧ x ≤ MAX_SLONG) : return_value dtype x = x := by
  cases dtype with
  | dtype_long => exact SLONG_of_mem h
  | dtype_int64 => rfl

theorem lower_le_upper_of_mem {x : ℤ} (h : MIN_SLONG ≤ x ∧ x ≤ MAX_SLONG) (dtype : DType) :
    dtype.lower_limit ≤ x ∧ x ≤ dtype.upper_limit := by
  unfold MIN_SLONG MAX_SLONG at h
  cases dtype <;> simp only [DType.lower_limit, DType.upper_limit, MIN_SLONG, MAX_SLONG, MIN_SINT64,
    MAX_SINT64] <;> omega

theorem decomposeHex_spaces {body : List UInt8} (behind : List UInt8)
    (h : AllSpaces (body.dropWhile isHex)) (hne : body ≠ []) :
    decomposeHex dtype body behind =
      if body.length > 16 ∨ (∀ c ∈ body, isHex c = true) ∧ (∃ c ∈ behind.head?, isHex c = true) then
        .error .conversion
      else
        let value := (Literal.hexadecimal ((body.takeWhile isHex).map nibble)).integer
        if dtype.lower_limit ≤ value ∧ value ≤ dtype.upper_limit then .ok (value, 0)
        else .error .numericOutOfRange := by
  obtain ⟨htake, hdrop⟩ := takeWhile_hex h
  have hsplit : body.takeWhile isHex ++ body.dropWhile isHex = body := List.takeWhile_append_dropWhile
  have hspaces : (body.dropWhile isHex).dropWhile (· = space) = [] := h
  have hpos : body.length ≠ 0 := fun hzero => hne (List.eq_nil_of_length_eq_zero hzero)
  have hdigits : ∀ c ∈ body.takeWhile isHex, isHex c = true := fun c hc => List.mem_takeWhile_imp hc
  unfold decomposeHex
  rw [htake, hdrop]
  dsimp only
  by_cases hlong : body.length > 16
  · rw [if_pos (.inr (.inr hlong)), if_pos (.inl hlong)]
  · rw [if_neg (not_or.2 ⟨not_not.2 hspaces, not_or.2 ⟨hpos, hlong⟩⟩)]
    -- what is behind the digits in memory
    have hmemory : body ++ behind = body.takeWhile isHex ++ (body.dropWhile isHex ++ behind) := by
      rw [← List.append_assoc, hsplit]
    have hread : (hex_to_value (body ++ behind) (body.takeWhile isHex).length).2 =
        (body.takeWhile isHex).length + ((body.dropWhile isHex ++ behind).takeWhile isHex).length := by
      rw [hex_to_value, hexLoop_read, zero_add, hmemory, List.takeWhile_append_of_pos hdigits,
        List.length_append]
    by_cases hon : ∃ c ∈ (body.dropWhile isHex ++ behind).head?, isHex c = true
    · obtain ⟨c, hc, hhex⟩ := hon
      have hmore : ((body.dropWhile isHex ++ behind).takeWhile isHex).length ≠ 0 := by
        obtain ⟨rest, hrest⟩ := List.head?_eq_some_iff.1 hc
        rw [hrest, List.takeWhile_cons, if_pos hhex]
        simp
      have hnil : body.dropWhile isHex = [] := by
        cases htail : body.dropWhile isHex with
        | nil => rfl
        | cons d tail =>
          rw [htail] at hc
          cases hc
          have hnot := head?_dropWhile_not (p := isHex) body c (by rw [htail]; rfl)
          exact absurd hhex (by simp [hnot])
      have hall : ∀ c ∈ body, isHex c = true := List.dropWhile_eq_nil_iff.1 hnil
      rw [hnil, List.nil_append] at hc
      rw [if_pos (by rw [hread]; omega), if_pos (.inr ⟨hall, c, hc, hhex⟩)]
    · have hstop : ∀ c ∈ (body.dropWhile isHex ++ behind).head?, isHex c = false := by
        intro c hc
        simpa using fun hhex => hon ⟨c, hc, hhex⟩
      have hzero : (body.dropWhile isHex ++ behind).takeWhile isHex = [] := by
        cases hrest : body.dropWhile isHex ++ behind with
        | nil => rfl
        | cons c rest =>
          rw [List.takeWhile_cons, if_neg]
          simp [hstop c (by rw [hrest]; rfl)]
      have hinside : ¬ ((∀ c ∈ body, isHex c = true) ∧ ∃ c ∈ behind.head?, isHex c = true) := by
        rintro ⟨hall, c, hc, hhex⟩
        refine hon ⟨c, ?_, hhex⟩
        rwa [List.dropWhile_eq_nil_iff.2 hall]
      have hnot : ¬ (body.length > 16 ∨
          (∀ c ∈ body, isHex c = true) ∧ ∃ c ∈ behind.head?, isHex c = true) := by
        rintro (h | h)
        · exact hlong h
        · exact hinside h
      rw [if_neg (by rw [hread, hzero]; simp), if_neg hnot, hmemory, hex_to_value_spec hdigits hstop]
      simp only [Literal.integer, List.length_map]
      generalize numberFrom 16 0 ((body.takeWhile isHex).map nibble) = n
      generalize (body.takeWhile isHex).length = length
      rw [SLONG_SINT64]
      by_cases hshort : length ≤ 8
      · have hmem := SLONG_mem n
        simp only [hshort, if_true]
        rw [if_pos (lower_le_upper_of_mem hmem dtype), if_neg (by omega), return_value_of_mem hmem]
      · simp only [hshort, if_false]
        cases dtype with
        | dtype_long =>
          have hlower : DType.dtype_long.lower_limit = MIN_SLONG := rfl
          have hupper : DType.dtype_long.upper_limit = MAX_SLONG := rfl
          rw [hlower, hupper]
          by_cases hmem : MIN_SLONG ≤ SINT64 n ∧ SINT64 n ≤ MAX_SLONG
          · rw [if_neg (by omega), if_pos hmem, return_value_of_mem hmem]
          · rw [if_pos ⟨rfl, by omega⟩, if_neg hmem]
        | dtype_int64 =>
          have hmem : DType.dtype_int64.lower_limit ≤ SINT64 n ∧
              SINT64 n ≤ DType.dtype_int64.upper_limit := SINT64_mem n
          rw [if_neg (by simp), if_pos hmem]
          rfl

/-! ## Decimal literals -/

/-- The most negative number is not negated. Its digits have already wrapped to it. -/
theorem eq_lower_limit {n : ℕ} (h : n ≤ dtype.bound true) (heq : SINT64 n = dtype.lower_limit) :
    dtype.lower_limit = -(n : ℤ) := by
  cases dtype with
  | dtype_long =>
    have hle : n ≤ 2 ^ 31 := h
    rw [SINT64_of_lt (by omega) (by omega)] at heq
    have hlower : DType.dtype_long.lower_limit = -2 ^ 31 := rfl
    omega
  | dtype_int64 =>
    have hle : n ≤ 2 ^ 63 := h
    have hlower : DType.dtype_int64.lower_limit = -2 ^ 63 := rfl
    by_contra hne
    rw [SINT64_of_lt (by omega) (by omega)] at heq
    omega

theorem SINT64_neg_of_ne {n : ℕ} (h : n ≤ dtype.bound true) (hne : SINT64 n ≠ dtype.lower_limit) :
    SINT64 (-SINT64 n) = -(n : ℤ) := by
  have hbound := bound_le dtype true
  have hlt : n < 2 ^ 63 := by
    by_contra hlt
    obtain ⟨rfl, rfl, -⟩ := eq_of_le_bound h hlt
    exact hne (by decide)
  have hvalue : SINT64 n = n := SINT64_of_lt (by omega) (by omega)
  rw [hvalue, SINT64_of_lt (by omega) (by omega)]

theorem return_value_of_le {negative : Bool} {n : ℕ} (h : n ≤ dtype.bound negative) :
    return_value dtype (if negative then -(n : ℤ) else n) = if negative then -(n : ℤ) else n := by
  cases dtype with
  | dtype_int64 => rfl
  | dtype_long =>
    refine SLONG_of_mem ?_
    unfold MIN_SLONG MAX_SLONG
    cases negative <;> simp [DType.bound] at * <;> omega

/-- Where the digits fit, the value is their number. -/
theorem signed_of_le {negative : Bool} {n : ℕ} (h : n ≤ dtype.bound negative) :
    signed dtype negative (SINT64 n) = if negative then -(n : ℤ) else n := by
  have hstored := return_value_of_le h
  unfold signed
  cases negative with
  | false =>
    have hlt : n < 2 ^ 63 := by
      by_contra hlt
      exact absurd (eq_of_le_bound h hlt).2.2 (by decide)
    simp only [Bool.false_eq_true, false_and, if_false] at hstored ⊢
    rw [SINT64_of_lt (by omega) (by omega), hstored]
  | true =>
    simp only [true_and, if_true] at hstored ⊢
    by_cases hlower : SINT64 n = dtype.lower_limit
    · rw [if_neg (not_not.2 hlower), hlower, eq_lower_limit h hlower, hstored]
    · rw [if_pos hlower, SINT64_neg_of_ne h hlower, hstored]

theorem fits_decimal (negative : Bool) (digits : List ℕ) (places : ℕ) (exponent : ℤ) :
    (Literal.decimal negative digits places exponent).Fits dtype ↔
      numberFrom 10 0 digits ≤ dtype.bound negative ∧ |exponent| < SHORT_LIMIT := by
  simp only [Literal.Fits, Literal.integer]
  rw [← and_assoc]
  refine and_congr_left fun _ => ?_
  generalize numberFrom 10 0 digits = n
  cases dtype <;> cases negative <;> simp only [DType.lower_limit, DType.upper_limit, DType.bound,
    MIN_SLONG, MAX_SLONG, MIN_SINT64, MAX_SINT64, if_true, if_false, Bool.false_eq_true] <;> omega

/-- The value is exact as long as the scale is that of the literal. -/
theorem number_eq_iff (n scale scale' : ℤ) :
    (n : ℚ) * (10 : ℚ) ^ scale = n * (10 : ℚ) ^ scale' ↔ n = 0 ∨ scale = scale' := by
  rw [mul_eq_mul_left_iff, zpow_right_inj₀ (by norm_num) (by norm_num), Int.cast_eq_zero, or_comm]

theorem SSHORT_eq_iff {exponent : ℤ} (h : |exponent| < SHORT_LIMIT) (places : ℕ) :
    SSHORT (exponent - places) = exponent - places ↔ -2 ^ 15 ≤ exponent - places := by
  have hlimit : SHORT_LIMIT = 3276 := rfl
  rw [hlimit, abs_lt] at h
  constructor
  · intro heq
    rw [← heq]
    exact Int.le_bmod (by norm_num)
  · intro hle
    unfold SSHORT
    rw [Int.bmod_eq_of_le] <;> norm_num <;> omega

theorem Literal.number_decimal_eq_iff {negative : Bool} {digits : List ℕ} {places : ℕ} {exponent : ℤ}
    (hfits : (decimal negative digits places exponent).Fits dtype) :
    ((signed dtype negative (SINT64 (numberFrom 10 0 digits)) : ℤ) : ℚ) *
        (10 : ℚ) ^ SSHORT (exponent - places) = (decimal negative digits places exponent).number ↔
      numberFrom 10 0 digits = 0 ∨ -2 ^ 15 ≤ exponent - places := by
  obtain ⟨hle, hexponent⟩ := (fits_decimal negative digits places exponent).1 hfits
  rw [signed_of_le hle, Literal.number, Literal.integer, Literal.scale, number_eq_iff,
    SSHORT_eq_iff hexponent]
  cases negative <;> simp

/-! ## All literals -/

/-- What is behind `0x`. -/
def hexBody (text : List UInt8) : Option (List UInt8) :=
  match text.dropWhile (· = space) with
  | 48 :: x :: c :: body => if UPPER x = 88 then some (c :: body) else none
  | _ => none

/-- The kinds of strings that are misread. -/
inductive Misread (dtype : DType) (text behind : List UInt8) : Prop where
  /-- Only spaces are behind `0x`, which is read as zero. -/
  | noDigit {body : List UInt8} (hbody : hexBody text = some body) (hspaces : AllSpaces body)
      (hlength : body.length ≤ 16)
  /-- The trailing spaces are counted as digits. -/
  | padded {body : List UInt8} {l : Literal} (hbody : hexBody text = some body)
      (hliteral : literal? text = some l) (hfits : l.Fits dtype) (hlength : body.length > 16)
  /-- The digits go on behind the string. -/
  | runsOn {body : List UInt8} {l : Literal} (hbody : hexBody text = some body)
      (hliteral : literal? text = some l) (hfits : l.Fits dtype) (hdigits : ∀ c ∈ body, isHex c = true)
      (hbehind : ∃ c ∈ behind.head?, isHex c = true)
  /-- The digits begin again behind the most negative integer. -/
  | startsAgain {digits : List ℕ} {places : ℕ} {exponent : ℤ}
      (hliteral : literal? text = some (.decimal true digits places exponent))
      (hdtype : dtype = .dtype_int64) (hexponent : |exponent| < SHORT_LIMIT) (hdigits : StartsAgain digits)
  /-- The places are more than a scale can hold. -/
  | scaleWraps {negative : Bool} {digits : List ℕ} {places : ℕ} {exponent : ℤ}
      (hliteral : literal? text = some (.decimal negative digits places exponent))
      (hfits : (Literal.decimal negative digits places exponent).Fits dtype)
      (hne : numberFrom 10 0 digits ≠ 0) (hscale : exponent - places < -2 ^ 15)

theorem hexBody_cases (text : List UInt8) :
    (∃ body, hexBody text = some body ∧ body ≠ [] ∧ literal? text = hexadecimal? body ∧
      ∀ dtype behind, CVT_decompose dtype text behind = decomposeHex dtype body behind) ∨
    (hexBody text = none ∧ ∃ decimal, literal? text = decimal? decimal ∧
      ∀ dtype behind, CVT_decompose dtype text behind = decomposeDecimal dtype decimal) := by
  unfold hexBody literal? CVT_decompose
  generalize text.dropWhile (· = space) = trimmed
  by_cases h : ∃ x c body, trimmed = 48 :: x :: c :: body
  · obtain ⟨x, c, body, rfl⟩ := h
    by_cases hx : UPPER x = 88
    · simp only [hx, if_true]
      exact .inl ⟨c :: body, rfl, by simp, rfl, fun _ _ => rfl⟩
    · simp only [hx, if_false]
      exact .inr ⟨trivial, _, rfl, fun _ _ => rfl⟩
  · refine .inr ⟨?_, trimmed, ?_, fun dtype behind => ?_⟩ <;> split
    all_goals first
      | rfl
      | exact absurd ⟨_, _, _, rfl⟩ h

/-- A literal of a body is read. -/
theorem hexadecimal?_eq_some_iff {body : List UInt8} {l : Literal} : hexadecimal? body = some l ↔
    (body.takeWhile isHex ≠ [] ∧ (body.takeWhile isHex).length ≤ 16 ∧
      AllSpaces (body.dropWhile isHex)) ∧ Literal.hexadecimal ((body.takeWhile isHex).map nibble) = l := by
  unfold hexadecimal?
  rw [Option.ite_none_right_eq_some, Option.some_inj]

theorem allSpaces_iff {body : List UInt8} (h : AllSpaces (body.dropWhile isHex)) :
    body.takeWhile isHex = [] ↔ AllSpaces body := by
  have hsplit : body.takeWhile isHex ++ body.dropWhile isHex = body := List.takeWhile_append_dropWhile
  constructor
  · intro hnil
    rw [hnil, List.nil_append] at hsplit
    rwa [hsplit] at h
  · intro hspaces
    cases body with
    | nil => rfl
    | cons c body =>
      obtain ⟨rfl, -⟩ := (allSpaces_cons c body).1 hspaces
      rfl

theorem right_error_iff {text : List UInt8} {e : ConversionError} :
    Right dtype text (.error e) ↔ ∀ l, literal? text = some l → ¬ l.Fits dtype :=
  Iff.rfl

theorem right_ok_iff {text : List UInt8} {l : Literal} (hliteral : literal? text = some l)
    {value scale : ℤ} : Right dtype text (.ok (value, scale)) ↔
      l.Fits dtype ∧ (value : ℚ) * (10 : ℚ) ^ scale = l.number := by
  constructor
  · rintro ⟨l', hliteral', h⟩
    rw [hliteral] at hliteral'
    cases hliteral'
    exact h
  · intro h
    exact ⟨l, hliteral, h⟩

theorem Misread.hex_iff {text behind body : List UInt8} (hbody : hexBody text = some body)
    (hliteral : literal? text = hexadecimal? body) :
    Misread dtype text behind ↔ (AllSpaces body ∧ body.length ≤ 16) ∨
      ∃ l, hexadecimal? body = some l ∧ l.Fits dtype ∧ (body.length > 16 ∨
        (∀ c ∈ body, isHex c = true) ∧ ∃ c ∈ behind.head?, isHex c = true) := by
  have hdecimal {negative digits places exponent} :
      literal? text ≠ some (.decimal negative digits places exponent) := by
    rw [hliteral]
    intro h
    exact absurd (hexadecimal?_eq_some_iff.1 h).2 (by simp)
  constructor
  · intro h
    cases h with
    | noDigit hbody' hspaces hlength =>
      cases hbody.symm.trans hbody'
      exact .inl ⟨hspaces, hlength⟩
    | padded hbody' hl hfits hlength =>
      cases hbody.symm.trans hbody'
      exact .inr ⟨_, hliteral.symm.trans hl, hfits, .inl hlength⟩
    | runsOn hbody' hl hfits hdigits hbehind =>
      cases hbody.symm.trans hbody'
      exact .inr ⟨_, hliteral.symm.trans hl, hfits, .inr ⟨hdigits, hbehind⟩⟩
    | startsAgain hl => exact absurd hl hdecimal
    | scaleWraps hl => exact absurd hl hdecimal
  · rintro (⟨hspaces, hlength⟩ | ⟨l, hl, hfits, hlength | ⟨hdigits, hbehind⟩⟩)
    · exact .noDigit hbody hspaces hlength
    · exact .padded hbody (hliteral.trans hl) hfits hlength
    · exact .runsOn hbody (hliteral.trans hl) hfits hdigits hbehind

theorem Literal.fits_hexadecimal (digits : List ℕ) : (hexadecimal digits).Fits dtype ↔
    dtype.lower_limit ≤ (hexadecimal digits).integer ∧
      (hexadecimal digits).integer ≤ dtype.upper_limit := by
  simp [Literal.Fits]

theorem Literal.number_hexadecimal (digits : List ℕ) :
    ((hexadecimal digits).integer : ℚ) * (10 : ℚ) ^ (0 : ℤ) = (hexadecimal digits).number := rfl

theorem right_hex_iff {text body : List UInt8} (hne : body ≠ []) (hbody : hexBody text = some body)
    (hliteral : literal? text = hexadecimal? body) (behind : List UInt8) :
    Right dtype text (decomposeHex dtype body behind) ↔ ¬ Misread dtype text behind := by
  rw [Misread.hex_iff hbody hliteral]
  by_cases hrest : AllSpaces (body.dropWhile isHex)
  · have hblank := allSpaces_iff hrest
    rw [decomposeHex_spaces behind hrest hne]
    cases hl : hexadecimal? body with
    | none =>
      rw [hl] at hliteral
      -- there is no digit, or there are too many of them
      have hdigits : AllSpaces body ∨ body.length > 16 := by
        by_contra h
        push Not at h
        have hle := (List.takeWhile_prefix isHex (l := body)).length_le
        have hsome := hexadecimal?_eq_some_iff.2
          ⟨⟨fun hnil => h.1 (hblank.1 hnil), hle.trans h.2, hrest⟩, rfl⟩
        rw [hl] at hsome
        cases hsome
      by_cases hlength : body.length > 16
      · rw [if_pos (.inl hlength), right_error_iff, hliteral]
        simp
        omega
      · have hspaces := hdigits.resolve_right hlength
        have hfirst : ¬ ∀ c ∈ body, isHex c = true := by
          intro hall
          rw [List.takeWhile_eq_self_iff.2 hall] at hblank
          exact hne (hblank.2 hspaces)
        rw [if_neg (by tauto), hblank.2 hspaces]
        have hzero : dtype.lower_limit ≤ (Literal.hexadecimal []).integer ∧
            (Literal.hexadecimal []).integer ≤ dtype.upper_limit := by cases dtype <;> decide
        simp only [List.map_nil, hzero, and_self, if_true]
        refine iff_of_false ?_ (not_not.2 (.inl ⟨hspaces, by omega⟩))
        rintro ⟨l, hsome, -⟩
        rw [hliteral] at hsome
        cases hsome
    | some l =>
      rw [hl] at hliteral
      obtain ⟨⟨hdigits, -, -⟩, rfl⟩ := hexadecimal?_eq_some_iff.1 hl
      have hspaces : ¬ AllSpaces body := fun h => hdigits (hblank.2 h)
      have hiff : ((AllSpaces body ∧ body.length ≤ 16) ∨ ∃ l, some (Literal.hexadecimal
          ((body.takeWhile isHex).map nibble)) = some l ∧ l.Fits dtype ∧ (body.length > 16 ∨
            (∀ c ∈ body, isHex c = true) ∧ ∃ c ∈ behind.head?, isHex c = true)) ↔
          (Literal.hexadecimal ((body.takeWhile isHex).map nibble)).Fits dtype ∧ (body.length > 16 ∨
            (∀ c ∈ body, isHex c = true) ∧ ∃ c ∈ behind.head?, isHex c = true) := by
        simp [hspaces]
      rw [hiff]
      split_ifs with hwrong
      · rw [right_error_iff, hliteral]
        simp only [Option.some_inj, forall_eq', hwrong, and_true]
      · simp only [hwrong, and_false, not_false_eq_true, iff_true]
        split_ifs with hfits
        · exact (right_ok_iff hliteral).2
            ⟨(Literal.fits_hexadecimal _).2 hfits, Literal.number_hexadecimal _⟩
        · rw [right_error_iff, hliteral]
          simp only [Option.some_inj, forall_eq']
          rwa [Literal.fits_hexadecimal]
  · have herror : decomposeHex dtype body behind = .error .conversion := decomposeHex_error behind hrest
    have hnone : hexadecimal? body = none := by
      cases hl : hexadecimal? body with
      | none => rfl
      | some l => exact absurd (hexadecimal?_eq_some_iff.1 hl).1.2.2 hrest
    have hspaces : ¬ AllSpaces body := by
      intro h
      cases body with
      | nil => exact hne rfl
      | cons c body =>
        obtain ⟨rfl, -⟩ := (allSpaces_cons c body).1 h
        exact hrest h
    rw [herror, right_error_iff, hliteral, hnone]
    simp [hspaces]

theorem decimal?_eq_some {text : List UInt8} {l : Literal} (h : decimal? text = some l) :
    ∃ negative digits places exponent, l = .decimal negative digits places exponent ∧
      ∀ d ∈ digits, d < 10 := by
  unfold decimal? at h
  dsimp only at h
  split at h
  · cases h
  · split_ifs at h
    cases h
    refine ⟨_, _, _, _, rfl, ?_⟩
    intro d hd
    obtain ⟨c, hc, rfl⟩ := List.mem_map.1 hd
    have hfraction : ∀ t : List UInt8, ∀ c ∈ (splitFraction t).1, isDigit c = true := by
      intro t c hc
      unfold splitFraction at hc
      split at hc
      · cases hc
      · split_ifs at hc
        · exact List.mem_takeWhile_imp hc
        · cases hc
    obtain hc | hc := List.mem_append.1 hc
    · exact digit_lt (List.mem_takeWhile_imp hc)
    · exact digit_lt (hfraction _ c hc)

theorem Misread.decimal_iff {text behind : List UInt8} {negative : Bool} {digits : List ℕ} {places : ℕ}
    {exponent : ℤ} (hbody : hexBody text = none)
    (hliteral : literal? text = some (.decimal negative digits places exponent)) :
    Misread dtype text behind ↔
      (negative = true ∧ dtype = .dtype_int64 ∧ |exponent| < SHORT_LIMIT ∧ StartsAgain digits) ∨
      ((Literal.decimal negative digits places exponent).Fits dtype ∧ numberFrom 10 0 digits ≠ 0 ∧
        exponent - places < -2 ^ 15) := by
  constructor
  · intro h
    cases h with
    | noDigit hbody' => cases hbody.symm.trans hbody'
    | padded hbody' => cases hbody.symm.trans hbody'
    | runsOn hbody' => cases hbody.symm.trans hbody'
    | startsAgain hl hdtype hexponent hdigits =>
      cases hliteral.symm.trans hl
      exact .inl ⟨rfl, hdtype, hexponent, hdigits⟩
    | scaleWraps hl hfits hne hscale =>
      cases hliteral.symm.trans hl
      exact .inr ⟨hfits, hne, hscale⟩
  · rintro (⟨rfl, hdtype, hexponent, hdigits⟩ | ⟨hfits, hne, hscale⟩)
    · exact .startsAgain hliteral hdtype hexponent hdigits
    · exact .scaleWraps hliteral hfits hne hscale

theorem Misread.not_none {text behind : List UInt8} (hbody : hexBody text = none)
    (hliteral : literal? text = none) : ¬ Misread dtype text behind := by
  intro h
  cases h with
  | noDigit hbody' => cases hbody.symm.trans hbody'
  | padded hbody' => cases hbody.symm.trans hbody'
  | runsOn hbody' => cases hbody.symm.trans hbody'
  | startsAgain hl => cases hliteral.symm.trans hl
  | scaleWraps hl => cases hliteral.symm.trans hl

theorem right_outcome_iff {text : List UInt8} {negative : Bool} {digits : List ℕ} {places : ℕ}
    {exponent : ℤ} (hbody : hexBody text = none)
    (hliteral : literal? text = some (.decimal negative digits places exponent))
    (hdigits : ∀ d ∈ digits, d < 10) (behind : List UInt8) :
    Right dtype text (decimalOutcome dtype negative digits places exponent) ↔
      ¬ Misread dtype text behind := by
  rw [Misread.decimal_iff hbody hliteral]
  have hfits : (Literal.decimal negative digits places exponent).Fits dtype ↔
      numberFrom 10 0 digits ≤ dtype.bound negative ∧ |exponent| < SHORT_LIMIT :=
    fits_decimal negative digits places exponent
  have hbound := bound_le dtype negative
  unfold decimalOutcome
  by_cases hle : numberFrom 10 0 digits ≤ dtype.bound negative
  · -- the digits fit
    have hvalues : values dtype negative digits 0 = some (SINT64 (numberFrom 10 0 digits)) :=
      @values_of_le _ _ _ 0 hdigits hle
    have hagain : ¬ StartsAgain digits := by
      intro h
      have := h.lt
      omega
    rw [hvalues]
    dsimp only
    split_ifs with hexponent
    · have hfits' := hfits.2 ⟨hle, hexponent⟩
      rw [right_ok_iff hliteral, Literal.number_decimal_eq_iff hfits']
      simp only [hfits', hagain, and_false, false_or, true_and, not_and_or, not_not, ne_eq, not_lt]
    · rw [right_error_iff, hliteral]
      simp only [Option.some_inj, forall_eq', hfits, hexponent, false_and, and_false, or_self,
        not_false_eq_true]
  · have hnot : ¬ (Literal.decimal negative digits places exponent).Fits dtype :=
      fun h => hle (hfits.1 h).1
    simp only [hnot, false_and, or_false]
    cases hvalues : values dtype negative digits 0 with
    | none =>
      have hagain : ¬ (negative = true ∧ dtype = .dtype_int64 ∧ |exponent| < SHORT_LIMIT ∧
          StartsAgain digits) := by
        rintro ⟨rfl, rfl, -, h⟩
        obtain ⟨v, hv⟩ := h.values hdigits
        rw [hvalues] at hv
        cases hv
      rw [right_error_iff, hliteral]
      simp only [Option.some_inj, forall_eq', hnot, hagain, not_false_eq_true]
    | some v =>
      obtain ⟨hdtype, hnegative, hagain⟩ := startsAgain_of_values hdigits hvalues (by omega)
      dsimp only
      split_ifs with hexponent
      · rw [right_ok_iff hliteral]
        exact iff_of_false (fun h => hnot h.1) (not_not.2 ⟨hnegative, hdtype, hexponent, hagain⟩)
      · rw [right_error_iff, hliteral]
        simp only [Option.some_inj, forall_eq', hnot, hexponent, false_and, and_false,
          not_false_eq_true]

/-- `CVT_decompose` gets the number of every string but those that are misread. -/
theorem right_iff (dtype : DType) (text behind : List UInt8) :
    Right dtype text (CVT_decompose dtype text behind) ↔ ¬ Misread dtype text behind := by
  obtain ⟨body, hbody, hne, hliteral, hrun⟩ | ⟨hbody, decimal, hliteral, hrun⟩ := hexBody_cases text
  · rw [hrun]
    exact right_hex_iff hne hbody hliteral behind
  · rw [hrun]
    have hspec := decomposeDecimal_spec dtype decimal
    cases hl : decimal? decimal with
    | none =>
      rw [hl] at hliteral hspec
      obtain ⟨e, herror⟩ := hspec
      rw [herror, right_error_iff, hliteral]
      simpa using Misread.not_none hbody hliteral
    | some l =>
      obtain ⟨negative, digits, places, exponent, rfl, hdigits⟩ := decimal?_eq_some hl
      rw [hl] at hliteral hspec
      rw [hspec]
      exact right_outcome_iff hbody hliteral hdigits behind

/-- A string that ends in the digits behind `0x`. -/
def EndsInHex (text : List UInt8) : Prop :=
  ∃ body, hexBody text = some body ∧ (∀ c ∈ body, isHex c = true) ∧ body.length ≤ 16

/-- The outcome is the same whatever is behind the string. -/
def IgnoresBehind (dtype : DType) (text : List UInt8) : Prop :=
  ∀ behind behind', CVT_decompose dtype text behind = CVT_decompose dtype text behind'

theorem ignoresBehind_iff (dtype : DType) (text : List UInt8) :
    IgnoresBehind dtype text ↔ ¬ EndsInHex text := by
  obtain ⟨body, hbody, hne, hliteral, hrun⟩ | ⟨hbody, decimal, hliteral, hrun⟩ := hexBody_cases text
  · have hends : EndsInHex text ↔ (∀ c ∈ body, isHex c = true) ∧ body.length ≤ 16 := by
      simp [EndsInHex, hbody]
    simp only [IgnoresBehind, hrun, hends]
    constructor
    · rintro h ⟨hdigits, hlength⟩
      have hnil : body.dropWhile isHex = [] := List.dropWhile_eq_nil_iff.2 hdigits
      have hspaces : AllSpaces (body.dropWhile isHex) := by
        rw [hnil]
        rfl
      -- with nothing behind, the digits are read
      have heq := h [48] []
      rw [decomposeHex_spaces [48] hspaces hne, decomposeHex_spaces [] hspaces hne,
        if_pos (.inr ⟨hdigits, 48, rfl, rfl⟩), if_neg (by simp; omega)] at heq
      dsimp only at heq
      split_ifs at heq <;> cases heq
    · intro hnot behind behind'
      by_cases hspaces : AllSpaces (body.dropWhile isHex)
      · rw [decomposeHex_spaces behind hspaces hne, decomposeHex_spaces behind' hspaces hne]
        by_cases hlength : body.length > 16
        · rw [if_pos (.inl hlength), if_pos (.inl hlength)]
        · have hdigits : ¬ ∀ c ∈ body, isHex c = true := fun h => hnot ⟨h, by omega⟩
          simp only [hlength, hdigits, false_and, or_self, if_false]
      · rw [decomposeHex_error behind hspaces, decomposeHex_error behind' hspaces]
  · simp [EndsInHex, hbody, IgnoresBehind, hrun]

/-- A string is decomposed as its literal says, whatever is behind it, exactly if it is none of the
strings that are misread, and the outcome depends on nothing behind it exactly if it does not end in
hexadecimal digits. -/
theorem CVT_decompose_right_iff (dtype : DType) (text : List UInt8) :
    (∀ behind, Right dtype text (CVT_decompose dtype text behind) ↔ ¬ Misread dtype text behind) ∧
      (IgnoresBehind dtype text ↔ ¬ EndsInHex text) :=
  ⟨right_iff dtype text, ignoresBehind_iff dtype text⟩

/-- `-92233720368547758081`. -/
def wrapping : List UInt8 :=
  [45, 57, 50, 50, 51, 51, 55, 50, 48, 51, 54, 56, 53, 52, 55, 55, 53, 56, 48, 56, 49]

theorem wrapping_wraps : CVT_decompose .dtype_int64 wrapping [] = .ok (-1, 0) ∧
    ¬ Right .dtype_int64 wrapping (CVT_decompose .dtype_int64 wrapping []) := by
  have hrun : CVT_decompose .dtype_int64 wrapping [] = .ok (-1, 0) := by decide +kernel
  have hliteral : ∃ l, literal? wrapping = some l ∧ ¬ l.Fits .dtype_int64 :=
    ⟨.decimal true [9, 2, 2, 3, 3, 7, 2, 0, 3, 6, 8, 5, 4, 7, 7, 5, 8, 0, 8, 1] 0 0, by decide +kernel, by
      rw [fits_decimal]
      decide +kernel⟩
  obtain ⟨l, hl, hnot⟩ := hliteral
  refine ⟨hrun, ?_⟩
  rw [hrun, right_ok_iff hl]
  exact fun h => hnot h.1

end FirebirdCore.Cvt
