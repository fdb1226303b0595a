import FirebirdCore.Cvt.Decompose
import Mathlib.Data.List.TakeWhile
import Mathlib.Data.Rat.Cast.Order

/-!
# Literals and what is read of them

The grammar of literals with the numbers that they stand for, and when `CVT_decompose` gets the number.
-/
namespace FirebirdCore.Cvt

/-! ## The grammar -/

/-- `places` of the digits of a decimal literal are behind the point. -/
inductive Literal where
  | decimal (negative : Bool) (digits : List ℕ) (places : ℕ) (exponent : ℤ)
  | hexadecimal (digits : List ℕ)
  deriving DecidableEq, Repr

/-- The number that goes on from `n` with the digits. -/
def numberFrom (base n : ℕ) (digits : List ℕ) : ℕ := digits.foldl (fun n d => n * base + d) n

def AllSpaces (text : List UInt8) : Prop := text.dropWhile (· = space) = []

instance (text : List UInt8) : Decidable (AllSpaces text) := inferInstanceAs (Decidable (_ = _))

/-- A sign, and what is behind it. -/
def splitSign : List UInt8 → ℤ × List UInt8
  | [] => (0, [])
  | c :: rest => if c = 45 then (-1, rest) else if c = 43 then (1, rest) else (0, c :: rest)

/-- The characters of the fraction, and what is behind them. -/
def splitFraction : List UInt8 → List UInt8 × List UInt8
  | [] => ([], [])
  | c :: rest =>
      if c = 46 then (rest.takeWhile isDigit, rest.dropWhile isDigit) else ([], c :: rest)

def splitExponent : List UInt8 → Option (ℤ × List UInt8)
  | [] => some (0, [])
  | c :: rest =>
      if c = 101 ∨ c = 69 then
        let sign := splitSign rest
        let digits := sign.2.takeWhile isDigit
        let exponent : ℤ := numberFrom 10 0 (digits.map digit)
        if digits = [] then none
        else some (if sign.1 = -1 then -exponent else exponent, sign.2.dropWhile isDigit)
      else some (0, c :: rest)

def decimal? (text : List UInt8) : Option Literal :=
  let sign := splitSign text
  let whole := sign.2.takeWhile isDigit
  let fraction := splitFraction (sign.2.dropWhile isDigit)
  match splitExponent fraction.2 with
  | none => none
  | some (exponent, rest) =>
      if whole ++ fraction.1 ≠ [] ∧ AllSpaces rest then
        some (.decimal (sign.1 = -1) ((whole ++ fraction.1).map digit) fraction.1.length exponent)
      else none

def hexadecimal? (body : List UInt8) : Option Literal :=
  let digits := body.takeWhile isHex
  if digits ≠ [] ∧ digits.length ≤ 16 ∧ AllSpaces (body.dropWhile isHex) then
    some (.hexadecimal (digits.map nibble))
  else none

/-- The literal with which spaces in front and behind are allowed. -/
def literal? (text : List UInt8) : Option Literal :=
  match text.dropWhile (· = space) with
  | 48 :: x :: c :: body =>
      if UPPER x = 88 then hexadecimal? (c :: body) else decimal? (48 :: x :: c :: body)
  | text => decimal? text

namespace Literal

/-- The digits of a decimal literal with their sign, and a hexadecimal literal as a two's complement. -/
def integer : Literal → ℤ
  | decimal negative digits _ _ =>
      if negative then -(numberFrom 10 0 digits : ℤ) else numberFrom 10 0 digits
  | hexadecimal digits =>
      if digits.length ≤ 8 then SLONG (numberFrom 16 0 digits) else SINT64 (numberFrom 16 0 digits)

def scale : Literal → ℤ
  | decimal _ _ places exponent => exponent - places
  | hexadecimal _ => 0

def number (l : Literal) : ℚ := l.integer * (10 : ℚ) ^ l.scale

/-- The digits fit the type, and those of the exponent are in the range that is allowed for it. -/
def Fits (dtype : DType) (l : Literal) : Prop :=
  dtype.lower_limit ≤ l.integer ∧ l.integer ≤ dtype.upper_limit ∧
    match l with
    | decimal _ _ _ exponent => |exponent| < SHORT_LIMIT
    | hexadecimal _ => True

end Literal

/-- A value stands for the number of the literal, and an error means that there is none that fits. -/
def Right (dtype : DType) (text : List UInt8) : Except ConversionError (ℤ × ℤ) → Prop
  | .ok (value, scale) =>
      ∃ l, literal? text = some l ∧ l.Fits dtype ∧ (value : ℚ) * (10 : ℚ) ^ scale = l.number
  | .error _ => ∀ l, literal? text = some l → ¬ l.Fits dtype

/-! ## Digits -/

@[simp] theorem numberFrom_nil (base n : ℕ) : numberFrom base n [] = n := rfl

@[simp] theorem numberFrom_cons (base n d : ℕ) (ds : List ℕ) :
    numberFrom base n (d :: ds) = numberFrom base (n * base + d) ds := rfl

theorem numberFrom_append (base n : ℕ) (ds es : List ℕ) :
    numberFrom base n (ds ++ es) = numberFrom base (numberFrom base n ds) es :=
  List.foldl_append ..

theorem le_numberFrom {base : ℕ} (hbase : 0 < base) (n : ℕ) (ds : List ℕ) :
    n ≤ numberFrom base n ds := by
  induction ds generalizing n with
  | nil => exact le_rfl
  | cons d ds ih =>
    calc n ≤ n * base + d := le_add_right (Nat.le_mul_of_pos_right n hbase)
      _ ≤ _ := ih _

/-- The check and the step that a digit of the mantissa leads to. -/
def digitStep (dtype : DType) (negative : Bool) (value : ℤ) (d : ℕ) : Option ℤ :=
  if value ≥ dtype.limit_by_10 ∧ (value > dtype.limit_by_10 ∨ d > if negative then 8 else 7) then none
  else some (SINT64 (value * 10 + d))

/-- The value of the mantissa. -/
def values (dtype : DType) (negative : Bool) : List ℕ → ℤ → Option ℤ
  | [], value => some value
  | d :: ds, value =>
      match digitStep dtype negative value d with
      | none => none
      | some value => values dtype negative ds value

/-- The largest number that fits, without its sign. -/
def DType.bound (dtype : DType) (negative : Bool) : ℕ :=
  (match dtype with
    | dtype_long => 2 ^ 31 - 1
    | dtype_int64 => 2 ^ 63 - 1) + if negative then 1 else 0

theorem SINT64_of_lt {x : ℤ} (h : -2 ^ 63 ≤ x) (h' : x < 2 ^ 63) : SINT64 x = x := by
  unfold SINT64
  rw [Int.bmod_eq_of_le] <;> norm_num <;> omega

theorem SINT64_most_negative : SINT64 (2 ^ 63) = -2 ^ 63 := by decide

theorem digitStep_of_lt {dtype : DType} {negative : Bool} {n d : ℕ} (hd : d < 10) (hn : n < 2 ^ 63) :
    digitStep dtype negative (SINT64 n) d =
      if n * 10 + d ≤ dtype.bound negative then some (SINT64 (n * 10 + d : ℕ)) else none := by
  rw [SINT64_of_lt (by omega) (by exact_mod_cast hn), digitStep]
  have hcast : ((n * 10 + d : ℕ) : ℤ) = (n : ℤ) * 10 + d := by push_cast; rfl
  rw [hcast]
  cases dtype <;> cases negative <;>
    simp only [DType.limit_by_10, DType.upper_limit, MAX_SLONG, MAX_SINT64, DType.bound] <;>
    norm_num <;> split_ifs <;> first | rfl | omega

/-- Behind the most negative number, the digits begin again. -/
theorem digitStep_most_negative {dtype : DType} (negative : Bool) (d : ℕ) :
    digitStep dtype negative (SINT64 (2 ^ 63)) d = digitStep dtype negative (SINT64 0) d := by
  have hwrap : SINT64 (-2 ^ 63 * 10 + d) = SINT64 (0 * 10 + d) := by
    unfold SINT64
    have hmul : (-2 ^ 63 * 10 + d : ℤ) = 0 * 10 + d + (2 ^ 64 : ℕ) * (-5) := by
      push_cast
      ring
    rw [hmul]
    exact Int.add_mul_bmod_self_left ..
  have hzero : SINT64 0 = 0 := by decide
  unfold digitStep
  rw [SINT64_most_negative, hzero, if_neg, if_neg, hwrap] <;> cases dtype <;>
    simp only [DType.limit_by_10, DType.upper_limit, MAX_SLONG, MAX_SINT64] <;> norm_num

/-- Digits the first of which are those of the most negative 64-bit integer, followed by digits that
again are such or fit. -/
inductive StartsAgain : List ℕ → Prop where
  | once {front back : List ℕ} (hfront : numberFrom 10 0 front = 2 ^ 63) (hne : back ≠ [])
      (hback : numberFrom 10 0 back ≤ 2 ^ 63) : StartsAgain (front ++ back)
  | again {front back : List ℕ} (hfront : numberFrom 10 0 front = 2 ^ 63) (hback : StartsAgain back) :
      StartsAgain (front ++ back)

theorem StartsAgain.ne_nil {digits : List ℕ} (h : StartsAgain digits) : digits ≠ [] := by
  induction h with
  | once _ hne _ => exact List.append_ne_nil_of_right_ne_nil _ hne
  | again _ _ ih => exact List.append_ne_nil_of_right_ne_nil _ ih

theorem StartsAgain.lt {digits : List ℕ} (h : StartsAgain digits) :
    2 ^ 63 < numberFrom 10 0 digits := by
  have hmore {front back : List ℕ} (hfront : numberFrom 10 0 front = 2 ^ 63) (hne : back ≠ []) :
      2 ^ 63 < numberFrom 10 0 (front ++ back) := by
    cases back with
    | nil => exact absurd rfl hne
    | cons d back =>
      rw [numberFrom_append, hfront, numberFrom_cons]
      have := le_numberFrom (by norm_num : 0 < 10) (2 ^ 63 * 10 + d) back
      omega
  cases h with
  | once hfront hne => exact hmore hfront hne
  | again hfront hback => exact hmore hfront hback.ne_nil

variable {dtype : DType} {negative : Bool} {ds front back : List ℕ} {n : ℕ} {v : ℤ}

theorem bound_le (dtype : DType) (negative : Bool) : dtype.bound negative ≤ 2 ^ 63 := by
  cases dtype <;> cases negative <;> decide

/-- A number that is no longer below `2 ^ 63` is that of the most negative integer. -/
theorem eq_of_le_bound (hn : n ≤ dtype.bound negative) (hlt : ¬ n < 2 ^ 63) :
    n = 2 ^ 63 ∧ dtype = .dtype_int64 ∧ negative = true := by
  have hle := bound_le dtype negative
  refine ⟨by omega, ?_⟩
  cases dtype <;> cases negative <;> simp [DType.bound] at hn ⊢ <;> omega

/-- As long as the digits fit, they are added up. -/
theorem values_of_le (hds : ∀ d ∈ ds, d < 10)
    (hle : numberFrom 10 n ds ≤ dtype.bound negative) :
    values dtype negative ds (SINT64 n) = some (SINT64 (numberFrom 10 n ds)) := by
  induction ds generalizing n with
  | nil => rfl
  | cons d ds ih =>
    obtain ⟨hd, hds⟩ := List.forall_mem_cons.1 hds
    rw [numberFrom_cons] at hle ⊢
    have hstep : n * 10 + d ≤ dtype.bound negative :=
      (le_numberFrom (by norm_num) _ ds).trans hle
    have hbound := bound_le dtype negative
    rw [values, digitStep_of_lt hd (by omega), if_pos hstep]
    exact ih hds hle

theorem values_most_negative (hne : ds ≠ []) :
    values dtype negative ds (SINT64 (2 ^ 63)) = values dtype negative ds 0 := by
  cases ds with
  | nil => exact absurd rfl hne
  | cons d ds =>
    rw [values, values, digitStep_most_negative negative d]
    rfl

/-- Digits that do not fit are passed only where the most negative integer stands in front. -/
theorem values_cases (hds : ∀ d ∈ ds, d < 10) (hn : n ≤ dtype.bound negative)
    (h : values dtype negative ds (SINT64 n) = some v) :
    numberFrom 10 n ds ≤ dtype.bound negative ∨
      ∃ front back, ds = front ++ back ∧ back ≠ [] ∧ numberFrom 10 n front = 2 ^ 63 ∧
        dtype = .dtype_int64 ∧ negative = true ∧ values dtype negative back 0 = some v := by
  induction ds generalizing n with
  | nil => exact .inl hn
  | cons d ds ih =>
    by_cases hlt : n < 2 ^ 63
    · obtain ⟨hd, hds'⟩ := List.forall_mem_cons.1 hds
      rw [values, digitStep_of_lt hd hlt] at h
      split_ifs at h with hstep
      obtain hle | ⟨front, back, rfl, hne, hfront, hdtype, hnegative, hback⟩ := ih hds' hstep h
      · exact .inl hle
      · exact .inr ⟨d :: front, back, rfl, hne, hfront, hdtype, hnegative, hback⟩
    · obtain ⟨rfl, hdtype, hnegative⟩ := eq_of_le_bound hn hlt
      refine .inr ⟨[], d :: ds, rfl, by simp, rfl, hdtype, hnegative, ?_⟩
      rw [← values_most_negative (by simp)]
      exact_mod_cast h

theorem startsAgain_of_values (hds : ∀ d ∈ ds, d < 10) (h : values dtype negative ds 0 = some v)
    (hlt : dtype.bound negative < numberFrom 10 0 ds) :
    dtype = .dtype_int64 ∧ negative = true ∧ StartsAgain ds := by
  induction hlength : ds.length using Nat.strong_induction_on generalizing ds with
  | _ length ih =>
    obtain hle | ⟨front, back, rfl, hne, hfront, hdtype, hnegative, hback⟩ :=
      @values_cases _ _ _ 0 _ hds (Nat.zero_le _) h
    · omega
    · refine ⟨hdtype, hnegative, ?_⟩
      by_cases hle : numberFrom 10 0 back ≤ 2 ^ 63
      · exact .once hfront hne hle
      · have hbound := bound_le dtype negative
        have hpos : front ≠ [] := by
          rintro rfl
          norm_num at hfront
        have hshorter : back.length < length := by
          have := List.length_pos_of_ne_nil hpos
          rw [List.length_append] at hlength
          omega
        exact .again hfront (ih back.length hshorter (fun d hd => hds d (List.mem_append_right _ hd))
          hback (by omega) rfl).2.2

theorem values_append (v : ℤ) : values dtype negative (front ++ back) v =
    (values dtype negative front v).bind (values dtype negative back) := by
  induction front generalizing v with
  | nil => rfl
  | cons d front ih =>
    rw [List.cons_append, values, values]
    cases digitStep dtype negative v d with
    | none => rfl
    | some w => exact ih w

theorem StartsAgain.values (h : StartsAgain ds) (hds : ∀ d ∈ ds, d < 10) :
    ∃ v, Cvt.values .dtype_int64 true ds 0 = some v := by
  have hsplit {front back : List ℕ} (hds : ∀ d ∈ front ++ back, d < 10)
      (hfront : numberFrom 10 0 front = 2 ^ 63) (hne : back ≠ []) :
      Cvt.values .dtype_int64 true (front ++ back) 0 = Cvt.values .dtype_int64 true back 0 := by
    have hpass := @values_of_le .dtype_int64 true front 0 (fun d hd => hds d (List.mem_append_left _ hd))
      (by rw [hfront]; decide)
    rw [hfront] at hpass
    rw [values_append, ← values_most_negative hne]
    exact congrArg (fun x => Option.bind x _) hpass
  induction h with
  | once hfront hne hback =>
    rw [hsplit hds hfront hne]
    exact ⟨_, @values_of_le .dtype_int64 true _ 0 (fun d hd => hds d (List.mem_append_right _ hd)) hback⟩
  | again hfront hback ih =>
    rw [hsplit hds hfront hback.ne_nil]
    exact ih fun d hd => hds d (List.mem_append_right _ hd)

/-! ## The mantissa -/

theorem digit_lt {c : UInt8} (h : isDigit c = true) : digit c < 10 := by
  unfold isDigit at h
  unfold digit
  simp only [Bool.and_eq_true, decide_eq_true_eq, UInt8.le_iff_toNat_le] at h
  have h57 : (57 : UInt8).toNat = 57 := rfl
  omega

/-- Digits change the value and the scale. -/
theorem mantissa_digits {chars rest : List UInt8} (hchars : ∀ c ∈ chars, isDigit c = true) (s : Scan)
    (hscale : SSHORT s.scale = s.scale) :
    mantissa dtype (chars ++ rest) s =
      match values dtype (s.sign = -1) (chars.map digit) s.value with
      | none => .error .numericOutOfRange
      | some value => mantissa dtype rest
          { s with
            value
            digit_seen := s.digit_seen || !chars.isEmpty
            scale := if s.fraction then SSHORT (s.scale - chars.length) else s.scale } := by
  induction chars generalizing s with
  | nil => simp [values, hscale]
  | cons c chars ih =>
    obtain ⟨hc, hchars⟩ := List.forall_mem_cons.1 hchars
    have hlast : (c > 56 ∧ s.sign = -1 ∨ c > 55 ∧ s.sign ≠ -1) ↔
        digit c > if decide (s.sign = -1) = true then 8 else 7 := by
      have h56 : c > 56 ↔ digit c > 8 := by
        rw [gt_iff_lt, UInt8.lt_iff_toNat_lt, digit]
        have : (56 : UInt8).toNat = 56 := rfl
        omega
      have h55 : c > 55 ↔ digit c > 7 := by
        rw [gt_iff_lt, UInt8.lt_iff_toNat_lt, digit]
        have : (55 : UInt8).toNat = 55 := rfl
        omega
      rw [h56, h55]
      by_cases hsign : s.sign = -1 <;> simp [hsign]
    rw [List.cons_append, mantissa, if_pos hc, List.map_cons, values, digitStep]
    simp only [hlast]
    generalize (if decide (s.sign = -1) = true then 8 else 7) = last
    by_cases hover : s.value ≥ dtype.limit_by_10 ∧ (s.value > dtype.limit_by_10 ∨ digit c > last)
    · rw [if_pos hover, if_pos hover]
    · rw [if_neg hover, if_neg hover]
      have hnorm : SSHORT (if s.fraction then SSHORT (s.scale - 1) else s.scale) =
          if s.fraction then SSHORT (s.scale - 1) else s.scale := by
        split_ifs
        · exact Int.bmod_bmod
        · exact hscale
      rw [ih hchars _ hnorm]
      dsimp only
      cases values dtype (s.sign = -1) (chars.map digit) (SINT64 (s.value * 10 + digit c)) with
      | none => rfl
      | some value =>
        dsimp only
        congr 2
        · by_cases hfraction : s.fraction = true
          · simp only [hfraction, if_true, SSHORT, List.length_cons]
            rw [Int.bmod_sub_bmod]
            congr 1
            push_cast
            ring
          · simp only [hfraction, Bool.false_eq_true, if_false]
        · simp

theorem allSpaces_cons (c : UInt8) (rest : List UInt8) :
    AllSpaces (c :: rest) ↔ c = space ∧ AllSpaces rest := by
  unfold AllSpaces
  rw [List.dropWhile_cons]
  by_cases hc : c = space <;> simp [hc]

/-- What becomes of the mantissa at a character that does not belong to it. -/
def endMantissa (s : Scan) : List UInt8 → Except ConversionError (Scan × List UInt8)
  | [] => .ok (s, [])
  | c :: rest =>
      if c = 101 ∨ c = 69 then .ok (s, c :: rest)
      else if AllSpaces (c :: rest) then .ok (s, [])
      else .error .conversion

theorem mantissa_end {tail : List UInt8} {s : Scan} (hdigit : ∀ c ∈ tail.head?, isDigit c = false)
    (hpoint : ∀ c ∈ tail.head?, c = 46 → s.fraction = true)
    (hsign : ∀ c ∈ tail.head?, c = 45 ∨ c = 43 →
      s.digit_seen = true ∨ s.sign ≠ 0 ∨ s.fraction = true) :
    mantissa dtype tail s = endMantissa s tail := by
  cases tail with
  | nil => rfl
  | cons c rest =>
    have hdigit := hdigit c rfl
    have hpoint := hpoint c rfl
    have hminus : ¬ (c = 45 ∧ !s.digit_seen ∧ s.sign = 0 ∧ !s.fraction) := by
      rintro ⟨hc, hseen, hzero, hfraction⟩
      rcases hsign c rfl (.inl hc) with h | h | h <;> simp_all
    have hplus : ¬ (c = 43 ∧ !s.digit_seen ∧ s.sign = 0 ∧ !s.fraction) := by
      rintro ⟨hc, hseen, hzero, hfraction⟩
      rcases hsign c rfl (.inr hc) with h | h | h <;> simp_all
    rw [mantissa, endMantissa, if_neg (by simp [hdigit])]
    simp only [allSpaces_cons]
    by_cases h46 : c = 46
    · have hother : ¬ (c = 101 ∨ c = 69) ∧ c ≠ space := by
        rw [h46]
        decide
      rw [if_pos h46, if_pos (hpoint h46), if_neg hother.1, if_neg (fun h => hother.2 h.1)]
    · rw [if_neg h46, if_neg hminus, if_neg hplus]
      by_cases hexponent : c = 101 ∨ c = 69
      · rw [if_pos hexponent, if_pos hexponent]
      · rw [if_neg hexponent, if_neg hexponent]
        by_cases hspace : c = space
        · unfold AllSpaces
          by_cases hrest : rest.dropWhile (· = space) = [] <;> simp [hspace, hrest]
        · simp [hspace]

theorem mantissa_sign (text : List UInt8) : mantissa dtype text ⟨0, 0, 0, false, false⟩ =
    mantissa dtype (splitSign text).2 ⟨0, 0, (splitSign text).1, false, false⟩ := by
  cases text with
  | nil => rfl
  | cons c rest =>
    unfold splitSign
    dsimp only
    split_ifs with hminus hplus
    · subst hminus
      rw [mantissa]
      simp [isDigit]
    · subst hplus
      rw [mantissa]
      simp [isDigit]
    · rfl

theorem splitSign_not_sign {text : List UInt8} (h : (splitSign text).1 = 0) :
    ∀ c ∈ (splitSign text).2.head?, c ≠ 45 ∧ c ≠ 43 := by
  cases text with
  | nil => simp [splitSign]
  | cons c rest =>
    unfold splitSign at h ⊢
    dsimp only at h ⊢
    split_ifs at h ⊢ with hminus hplus
    · simp at h
    · simp at h
    · simp [hminus, hplus]

theorem head?_dropWhile_not {p : UInt8 → Bool} (text : List UInt8) :
    ∀ c ∈ (text.dropWhile p).head?, p c = false := by
  intro c hc
  have := List.head?_dropWhile_not p text
  rw [hc] at this
  simpa using this

theorem splitFraction_append (text : List UInt8) :
    (∀ c ∈ (splitFraction text).1, isDigit c = true) ∧
      ((splitFraction text).2 = text ∧ (splitFraction text).1 = [] ∧ text.head? ≠ some 46 ∨
        text = 46 :: ((splitFraction text).1 ++ (splitFraction text).2) ∧
          ∀ c ∈ (splitFraction text).2.head?, isDigit c = false) := by
  cases text with
  | nil => simp [splitFraction]
  | cons c rest =>
    unfold splitFraction
    dsimp only
    split_ifs with hc
    · refine ⟨fun c hc => List.mem_takeWhile_imp hc, .inr ⟨?_, head?_dropWhile_not rest⟩⟩
      rw [hc, List.takeWhile_append_dropWhile]
    · simp [hc]

theorem SSHORT_zero : SSHORT 0 = 0 := by decide

/-- The digits in front of the point and behind it make the value, and those behind it the scale. -/
theorem mantissa_spec (dtype : DType) (text : List UInt8) :
    let sign := splitSign text
    let whole := sign.2.takeWhile isDigit
    let fraction := splitFraction (sign.2.dropWhile isDigit)
    ∃ point, mantissa dtype text ⟨0, 0, 0, false, false⟩ =
      match values dtype (sign.1 = -1) ((whole ++ fraction.1).map digit) 0 with
      | none => .error .numericOutOfRange
      | some value =>
          endMantissa ⟨value, SSHORT (-fraction.1.length), sign.1, !(whole ++ fraction.1).isEmpty, point⟩
            fraction.2 := by
  intro sign whole fraction
  have hwhole : ∀ c ∈ whole, isDigit c = true := fun c hc => List.mem_takeWhile_imp hc
  have hsplit : sign.2 = whole ++ sign.2.dropWhile isDigit := List.takeWhile_append_dropWhile.symm
  have hrest : ∀ c ∈ (sign.2.dropWhile isDigit).head?, isDigit c = false := head?_dropWhile_not _
  rw [mantissa_sign]
  change ∃ point, mantissa dtype sign.2 ⟨0, 0, sign.1, false, false⟩ = _
  rw [hsplit, mantissa_digits hwhole _ SSHORT_zero, List.map_append, values_append]
  obtain ⟨hdigits, ⟨hnext, hnone, hpoint⟩ | ⟨hnext, hnext'⟩⟩ :=
    splitFraction_append (sign.2.dropWhile isDigit)
  · refine ⟨false, ?_⟩
    change fraction.2 = _ at hnext
    change fraction.1 = _ at hnone
    rw [hnone, hnext]
    cases values dtype (sign.1 = -1) (whole.map digit) 0 with
    | none => rfl
    | some value =>
      simp only [Bool.false_or, Bool.false_eq_true, if_false, Option.bind_some, List.map_nil, values,
        List.append_nil, List.length_nil, Nat.cast_zero, neg_zero, SSHORT_zero]
      refine mantissa_end hrest (fun c hc h46 => ?_) fun c hc hsigns => ?_
      · rw [h46] at hc
        exact absurd hc hpoint
      · cases hempty : whole with
        | nil =>
          right
          left
          intro hzero
          rw [hempty, List.nil_append] at hsplit
          have := splitSign_not_sign hzero c (by rw [hsplit]; exact hc)
          tauto
        | cons d whole => exact .inl rfl
  · refine ⟨true, ?_⟩
    rw [hnext]
    change ∀ c ∈ fraction.1, isDigit c = true at hdigits
    change ∀ c ∈ fraction.2.head?, isDigit c = false at hnext'
    cases values dtype (sign.1 = -1) (whole.map digit) 0 with
    | none => rfl
    | some value =>
      have h46 : isDigit 46 = false := rfl
      simp only [Option.bind_some]
      rw [mantissa, h46]
      simp only [Bool.false_eq_true, if_false, if_true]
      rw [mantissa_digits hdigits _ SSHORT_zero]
      dsimp only
      cases values dtype (sign.1 = -1) (fraction.1.map digit) value with
      | none => rfl
      | some value =>
        dsimp only
        have hempty : (whole ++ fraction.1).isEmpty = (whole.isEmpty && fraction.1.isEmpty) := by
          cases whole <;> simp
        rw [mantissa_end hnext' (fun _ _ _ => rfl) (fun _ _ _ => .inr (.inr rfl)), hempty, Bool.not_and]
        simp

/-! ## The exponent -/

theorem exponent_digits {chars rest : List UInt8} (hchars : ∀ c ∈ chars, isDigit c = true) {n : ℕ}
    (hn : (n : ℤ) < SHORT_LIMIT) (sign : ℤ) (seen : Bool) :
    exponent (chars ++ rest) ⟨n, sign, seen⟩ =
      if (numberFrom 10 n (chars.map digit) : ℤ) < SHORT_LIMIT then
        exponent rest ⟨numberFrom 10 n (chars.map digit), sign, seen || !chars.isEmpty⟩
      else .error .numericOutOfRange := by
  induction chars generalizing n seen with
  | nil => simp [hn]
  | cons c chars ih =>
    obtain ⟨hc, hchars⟩ := List.forall_mem_cons.1 hchars
    have hd := digit_lt hc
    have hlimit : SHORT_LIMIT = 3276 := rfl
    rw [hlimit] at hn ⊢
    have hexp : SSHORT (n * 10 + digit c) = (n * 10 + digit c : ℕ) := by
      unfold SSHORT
      rw [Int.bmod_eq_of_le] <;> push_cast <;> omega
    rw [List.cons_append, exponent, if_pos hc, List.map_cons, numberFrom_cons]
    simp only [hexp, hlimit]
    by_cases hover : ((n * 10 + digit c : ℕ) : ℤ) ≥ 3276
    · have hle := le_numberFrom (by norm_num : 0 < 10) (n * 10 + digit c) (chars.map digit)
      rw [if_pos hover, if_neg (by omega)]
    · rw [if_neg hover, ih hchars (by rw [hlimit]; omega), hlimit]
      simp

theorem exponent_end {tail : List UInt8} {s : Exponent} (hdigit : ∀ c ∈ tail.head?, isDigit c = false)
    (hsign : ∀ c ∈ tail.head?, c = 45 ∨ c = 43 → s.digit_seen = true ∨ s.sign ≠ 0) :
    exponent tail s = if AllSpaces tail then .ok s else .error .conversion := by
  cases tail with
  | nil => simp [exponent, AllSpaces]
  | cons c rest =>
    have hdigit := hdigit c rfl
    have hminus : ¬ (c = 45 ∧ !s.digit_seen ∧ s.sign = 0) := by
      rintro ⟨hc, hseen, hzero⟩
      rcases hsign c rfl (.inl hc) with h | h <;> simp_all
    have hplus : ¬ (c = 43 ∧ !s.digit_seen ∧ s.sign = 0) := by
      rintro ⟨hc, hseen, hzero⟩
      rcases hsign c rfl (.inr hc) with h | h <;> simp_all
    rw [exponent, if_neg (by simp [hdigit]), if_neg hminus, if_neg hplus]
    simp only [allSpaces_cons]
    unfold AllSpaces
    by_cases hspace : c = space
    · by_cases hrest : rest.dropWhile (· = space) = [] <;> simp [hspace, hrest]
    · simp [hspace]

theorem exponent_sign (text : List UInt8) : exponent text ⟨0, 0, false⟩ =
    exponent (splitSign text).2 ⟨0, (splitSign text).1, false⟩ := by
  cases text with
  | nil => rfl
  | cons c rest =>
    unfold splitSign
    dsimp only
    split_ifs with hminus hplus
    · subst hminus
      rw [exponent]
      simp [isDigit]
    · subst hplus
      rw [exponent]
      simp [isDigit]
    · rfl

theorem exponent_spec (text : List UInt8) :
    let sign := splitSign text
    let digits := sign.2.takeWhile isDigit
    let n := numberFrom 10 0 (digits.map digit)
    exponent text ⟨0, 0, false⟩ =
      if (n : ℤ) < SHORT_LIMIT then
        if AllSpaces (sign.2.dropWhile isDigit) then .ok ⟨n, sign.1, !digits.isEmpty⟩
        else .error .conversion
      else .error .numericOutOfRange := by
  intro sign digits n
  have hdigits : ∀ c ∈ digits, isDigit c = true := fun c hc => List.mem_takeWhile_imp hc
  have hsplit : sign.2 = digits ++ sign.2.dropWhile isDigit := List.takeWhile_append_dropWhile.symm
  rw [exponent_sign]
  change exponent sign.2 ⟨0, sign.1, false⟩ = _
  conv_lhs => rw [hsplit]
  have hrun := @exponent_digits digits (sign.2.dropWhile isDigit) hdigits 0 (by decide) sign.1 false
  rw [Nat.cast_zero] at hrun
  rw [hrun]
  have hend := @exponent_end (sign.2.dropWhile isDigit) ⟨n, sign.1, false || !digits.isEmpty⟩
    (head?_dropWhile_not _) fun c hc hsigns => by
      cases hempty : digits with
      | nil =>
        right
        intro hzero
        rw [hempty, List.nil_append] at hsplit
        have := splitSign_not_sign hzero c (by rw [hsplit]; exact hc)
        tauto
      | cons d digits => exact .inl rfl
  rw [Bool.false_or] at hend ⊢
  rw [hend]

/-! ## Decimal literals -/

/-- The value with its sign. -/
def signed (dtype : DType) (negative : Bool) (value : ℤ) : ℤ :=
  return_value dtype (if negative = true ∧ value ≠ dtype.lower_limit then SINT64 (-value) else value)

/-- What is made of a decimal literal. -/
def decimalOutcome (dtype : DType) (negative : Bool) (digits : List ℕ) (places : ℕ) (exponent : ℤ) :
    Except ConversionError (ℤ × ℤ) :=
  match values dtype negative digits 0 with
  | none => .error .numericOutOfRange
  | some value =>
      if |exponent| < SHORT_LIMIT then .ok (signed dtype negative value, SSHORT (exponent - places))
      else .error .numericOutOfRange

/-- The sum of the scale and the exponent, in either of the forms of the source. -/
theorem SSHORT_add (places : ℕ) (x : ℤ) : SSHORT (SSHORT (-places) + x) = SSHORT (x - places) := by
  unfold SSHORT
  rw [Int.bmod_add_bmod]
  congr 1
  ring

theorem decomposeDecimal_spec (dtype : DType) (text : List UInt8) :
    match decimal? text with
    | some (.decimal negative digits places exponent) =>
        decomposeDecimal dtype text = decimalOutcome dtype negative digits places exponent
    | some (.hexadecimal _) => False
    | none => ∃ e, decomposeDecimal dtype text = .error e := by
  obtain ⟨point, hmantissa⟩ := mantissa_spec dtype text
  unfold decimal? decomposeDecimal
  rw [hmantissa]
  dsimp only
  generalize splitFraction ((splitSign text).2.dropWhile isDigit) = fraction
  generalize (splitSign text).2.takeWhile isDigit = whole
  generalize (splitSign text).1 = sign
  generalize whole ++ fraction.1 = chars
  have hsigned (value : ℤ) : return_value dtype
      (if sign = -1 ∧ value ≠ dtype.lower_limit then SINT64 (-value) else value) =
      signed dtype (decide (sign = -1)) value := by
    simp [signed]
  by_cases hempty : chars = []
  · subst hempty
    have hnone : (match splitExponent fraction.2 with
        | none => none
        | some (exponent, rest) =>
            if ([] : List UInt8) ≠ [] ∧ AllSpaces rest then
              some (Literal.decimal (sign = -1) (([] : List UInt8).map digit) fraction.1.length exponent)
            else none) = none := by
      cases splitExponent fraction.2 with
      | none => rfl
      | some x => exact if_neg (by simp)
    rw [hnone]
    simp only [List.map_nil, values, List.isEmpty_nil, Bool.not_true]
    cases hend : endMantissa ⟨0, SSHORT (-fraction.1.length), sign, false, point⟩ fraction.2 with
    | error e => exact ⟨e, rfl⟩
    | ok result =>
      obtain ⟨s, rest⟩ := result
      have hseen : s.digit_seen = false := by
        unfold endMantissa at hend
        cases htail : fraction.2 <;> simp only [htail] at hend
        · cases hend
          rfl
        · split_ifs at hend <;> cases hend <;> rfl
      simp [hseen]
  · have hisEmpty : chars.isEmpty = false := by simpa using hempty
    rw [hisEmpty]
    cases htail : fraction.2 with
    | nil =>
      have hspaces : AllSpaces [] := rfl
      have hlimit : |(0 : ℤ)| < SHORT_LIMIT := by decide
      simp only [splitExponent, hempty, hspaces, ne_eq, not_false_eq_true, and_self, if_true, endMantissa,
        decimalOutcome, hlimit]
      cases values dtype (decide (sign = -1)) (chars.map digit) 0 with
      | none => rfl
      | some value => simp [hsigned]
    | cons c rest =>
      rw [splitExponent]
      simp only [endMantissa]
      by_cases hexponent : c = 101 ∨ c = 69
      · rw [if_pos hexponent]
        have hspec := exponent_spec rest
        dsimp only at hspec ⊢
        generalize (splitSign rest).2.dropWhile isDigit = tail at hspec ⊢
        generalize (splitSign rest).2.takeWhile isDigit = digits at hspec ⊢
        generalize (splitSign rest).1 = exponentSign at hspec ⊢
        by_cases hdigits : digits = []
        · rw [if_pos hdigits]
          simp only [hexponent, if_true]
          cases values dtype (decide (sign = -1)) (chars.map digit) 0 with
          | none => exact ⟨_, rfl⟩
          | some value =>
            subst hdigits
            have hlimit : ((numberFrom 10 0 [] : ℕ) : ℤ) < SHORT_LIMIT := by decide
            simp only [List.map_nil, hlimit, if_true, List.isEmpty_nil, Bool.not_true] at hspec
            simp only [hspec, Bool.not_false]
            by_cases hspaces : AllSpaces tail <;> simp [hspaces]
        · rw [if_neg hdigits]
          have hseen : digits.isEmpty = false := by simpa using hdigits
          rw [hseen] at hspec
          have habs (n : ℕ) : |if exponentSign = -1 then -(n : ℤ) else n| = n := by
            split_ifs <;> simp
          by_cases hspaces : AllSpaces tail
          · simp only [hempty, hspaces, ne_eq, not_false_eq_true, and_self, if_true, hexponent,
              decimalOutcome, habs] at hspec ⊢
            cases values dtype (decide (sign = -1)) (chars.map digit) 0 with
            | none => rfl
            | some value =>
              simp only [hspec]
              by_cases hlimit : (numberFrom 10 0 (digits.map digit) : ℤ) < SHORT_LIMIT
              · have hscale : SSHORT (if exponentSign = -1 then
                      SSHORT (-fraction.1.length) - numberFrom 10 0 (digits.map digit)
                    else SSHORT (-fraction.1.length) + numberFrom 10 0 (digits.map digit)) =
                    SSHORT ((if exponentSign = -1 then -(numberFrom 10 0 (digits.map digit) : ℤ)
                      else numberFrom 10 0 (digits.map digit)) - fraction.1.length) := by
                  rw [← SSHORT_add]
                  split_ifs
                  · rw [sub_eq_add_neg]
                  · rfl
                simp [hlimit, hsigned, hscale]
              · simp [hlimit]
          · simp only [hspaces, and_false, if_false, hexponent, if_true] at hspec ⊢
            cases values dtype (decide (sign = -1)) (chars.map digit) 0 with
            | none => exact ⟨_, rfl⟩
            | some value =>
              simp only [hspec]
              by_cases hlimit : (numberFrom 10 0 (digits.map digit) : ℤ) < SHORT_LIMIT <;> simp [hlimit]
      · have hlimit : |(0 : ℤ)| < SHORT_LIMIT := by decide
        simp only [hexponent, if_false]
        by_cases hspaces : AllSpaces (c :: rest)
        · simp only [hempty, hspaces, ne_eq, not_false_eq_true, and_self, if_true, decimalOutcome, hlimit]
          cases values dtype (decide (sign = -1)) (chars.map digit) 0 with
          | none => rfl
          | some value => simp [hsigned]
        · simp only [hspaces, and_false, if_false]
          cases values dtype (decide (sign = -1)) (chars.map digit) 0 with
          | none => exact ⟨_, rfl⟩
          | some value => exact ⟨_, rfl⟩

/-! ## Hexadecimal literals -/

theorem nibble_lt {c : UInt8} (h : isHex c = true) : nibble c < 16 := by
  have h57 : (57 : UInt8).toNat = 57 := rfl
  have h65 : (65 : UInt8).toNat = 65 := rfl
  have h70 : (70 : UInt8).toNat = 70 := rfl
  unfold isHex isDigit at h
  unfold nibble
  simp only [Bool.or_eq_true, Bool.and_eq_true, decide_eq_true_eq, UInt8.le_iff_toNat_le] at h
  simp only [ge_iff_le, UInt8.le_iff_toNat_le]
  split_ifs <;> omega

theorem not_blank_of_isHex {c : UInt8} (h : isHex c = true) : (c ≠ 0 && c ≠ space) = true := by
  have h0 : c ≠ 0 := by
    rintro rfl
    exact absurd h (by decide)
  have hspace : c ≠ space := by
    rintro rfl
    exact absurd h (by decide)
  simp [h0, hspace]

/-- The loop stops at the first other character. -/
theorem hexLoop_read (memory : List UInt8) (second : Bool) (byte : ℕ) (value : ℤ) (read : ℕ) :
    (hexLoop memory second byte value read).2 = read + (memory.takeWhile isHex).length := by
  induction memory generalizing second byte value read with
  | nil => rfl
  | cons c memory ih =>
    rw [hexLoop, List.takeWhile_cons]
    by_cases hc : isHex c = true
    · cases second <;> simp only [hc, if_true, Bool.false_eq_true, if_false, ih, List.length_cons] <;> omega
    · simp [hc]

theorem bmod_step (n : ℕ) (a k b : ℤ) :
    Int.bmod (Int.bmod a n * k + b) n = Int.bmod (a * k + b) n := by
  rw [Int.add_bmod, Int.bmod_mul_bmod, ← Int.add_bmod]

/-- Two digits make a byte. -/
theorem hexLoop_pairs {chars rest : List UInt8} (hchars : ∀ c ∈ chars, isHex c = true)
    (hrest : ∀ c ∈ rest.head?, isHex c = false) (heven : chars.length % 2 = 0) (byte m read : ℕ) :
    (hexLoop (chars ++ rest) false byte (SINT64 m) read).1 =
      SINT64 (numberFrom 16 m (chars.map nibble)) := by
  induction hlength : chars.length using Nat.strong_induction_on generalizing chars byte m read with
  | _ length ih =>
    match chars, hlength with
    | [], _ =>
      cases rest with
      | nil => simp [hexLoop]
      | cons c rest => simp [hexLoop, hrest c rfl]
    | [c], hlength => simp at heven
    | c :: d :: chars, hlength =>
      obtain ⟨hc, hchars⟩ := List.forall_mem_cons.1 hchars
      obtain ⟨hd, hchars⟩ := List.forall_mem_cons.1 hchars
      have hcl := nibble_lt hc
      have hdl := nibble_lt hd
      have hbyte : (nibble c * 16 + nibble d) % 256 = nibble c * 16 + nibble d :=
        Nat.mod_eq_of_lt (by omega)
      have hvalue : SINT64 (SINT64 m * 256 + (nibble c * 16 + nibble d : ℕ)) =
          SINT64 ((m * 16 + nibble c) * 16 + nibble d : ℕ) := by
        unfold SINT64
        rw [bmod_step]
        congr 1
        push_cast
        ring
      simp only [List.cons_append, hexLoop, hc, hd, if_true, Bool.false_eq_true, if_false, hbyte, hvalue]
      simp only [List.length_cons] at hlength heven
      rw [ih chars.length (by omega) hchars (by omega) _ _ _ rfl]
      simp only [List.map_cons, numberFrom_cons]

theorem hex_to_value_spec {chars rest : List UInt8} (hchars : ∀ c ∈ chars, isHex c = true)
    (hrest : ∀ c ∈ rest.head?, isHex c = false) :
    (hex_to_value (chars ++ rest) chars.length).1 = SINT64 (numberFrom 16 0 (chars.map nibble)) := by
  have hzero : SINT64 (0 : ℕ) = 0 := by decide
  unfold hex_to_value
  by_cases heven : chars.length % 2 = 0
  · have hpairs := hexLoop_pairs hchars hrest heven 0 0 0
    rw [hzero] at hpairs
    simp only [heven, Nat.zero_ne_one, decide_false]
    exact hpairs
  · have hodd : chars.length % 2 = 1 := by omega
    cases chars with
    | nil => simp at hodd
    | cons c chars =>
      obtain ⟨hc, hchars⟩ := List.forall_mem_cons.1 hchars
      have hcl := nibble_lt hc
      have hbyte : (0 * 16 + nibble c) % 256 = nibble c := by omega
      rw [List.length_cons] at hodd
      have hpairs := hexLoop_pairs hchars hrest (by omega) (nibble c) (nibble c) 1
      simp only [List.length_cons, hodd, decide_true, List.cons_append, hexLoop, hc, if_true,
        zero_mul, zero_add, List.map_cons, numberFrom_cons]
      simp only [zero_mul, zero_add] at hbyte hpairs
      simp only [hbyte]
      exact hpairs

end FirebirdCore.Cvt
