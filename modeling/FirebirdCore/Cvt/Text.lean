import FirebirdCore.Cvt.Rescale

/-!
# Integers to text

`integer_to_text` writes an integer with its scale, and `CVT_decompose` reads it back.
-/
namespace FirebirdCore.Cvt

/-! ## The function -/

inductive TextType where
  | dtype_text
  | dtype_cstring
  | dtype_varying
  deriving DecidableEq, Repr

/-- A target. A varying string has room for its length. -/
structure TextTarget where
  dsc_dtype : TextType
  dsc_length : UInt16
  /-- The character set is `ttype_binary`. -/
  binary : Bool
  varying : dsc_dtype = .dtype_varying → 2 ≤ dsc_length.toNat

inductive TextError where
  | conversion
  | truncation
  deriving DecidableEq, Repr

def TEXT_LEN (target : TextTarget) : ℕ :=
  match target.dsc_dtype with
  | .dtype_text => target.dsc_length.toNat
  | .dtype_cstring => (target.dsc_length - 1).toNat
  | .dtype_varying => target.dsc_length.toNat - 2

/-- The digits, from the last one. -/
def digitsOf (u : ℕ) : List UInt8 :=
  .ofNat (u % 10 + 48) :: if u / 10 = 0 then [] else digitsOf (u / 10)

/-- At least one digit is in front of the decimal point. -/
def leadingZeros (scale : ℤ) (temp : List UInt8) : List UInt8 :=
  if temp.length + scale ≤ 0 then leadingZeros scale (temp ++ [48]) else temp
termination_by (1 - scale - temp.length).toNat
decreasing_by
  rw [List.length_append, List.length_singleton]
  omega

/-- The number without its sign, in 64 bits. -/
def magnitude (n : Int64) : ℕ := if n ≥ 0 then n.toUInt64.toNat else (-n).toUInt64.toNat

/-- The digits with their sign and the decimal point. They are taken from the end of `temp`. -/
def formatted (neg : Bool) (scale : ℤ) (temp : List UInt8) : List UInt8 :=
  (if neg then [45] else []) ++
    if scale ≥ 0 then temp.reverse
    else
      let l := (temp.length + scale).toNat
      temp.reverse.take l ++ 46 :: (temp.reverse.drop l).take (-scale).toNat

/-- The length that is computed before anything is written. -/
def computedLength (neg : Bool) (scale : ℤ) (temp : List UInt8) : ℕ :=
  (temp.length + (if neg then 1 else 0) + (if scale < 0 then 1 else 0) + scale.toNat) % 2 ^ 16

/-- `characters` is the text, and `bytes` what the target is filled with. -/
structure Written where
  characters : List UInt8
  bytes : List UInt8
  deriving DecidableEq, Repr

/-- `n` is the source, moved to an integer of the same scale. The callback `validateLength` gets the length, what
is at the start of the text, and the room for it. `old` is what has been there. -/
def integer_to_text (validateLength : ℕ → List UInt8 → ℕ → Bool) (n : Int64) (scale : Int8) (target : TextTarget)
    (old : List UInt8) : Except TextError Written :=
  let neg : Bool := n < 0
  let temp := leadingZeros scale.toInt (digitsOf (magnitude n))
  let length := computedLength neg scale.toInt temp
  if (target.dsc_dtype = .dtype_text ∧ length > target.dsc_length.toNat) ∨
      (target.dsc_dtype = .dtype_cstring ∧ length ≥ target.dsc_length.toNat) ∨
      (target.dsc_dtype = .dtype_varying ∧ length > target.dsc_length.toNat - 2) then
    .error .conversion
  else
    let q := formatted neg scale.toInt temp
    -- the zeros at the end are not there yet
    if !validateLength length (q ++ old.drop q.length) (TEXT_LEN target) then .error .truncation
    else
      let q := q ++ List.replicate scale.toInt.toNat 48
      .ok
        { characters := q
          bytes :=
            match target.dsc_dtype with
            | .dtype_text =>
                q ++ List.replicate (target.dsc_length.toNat - length) (if target.binary then 0 else space)
            | .dtype_cstring => q ++ [0]
            | .dtype_varying => .ofNat q.length :: .ofNat (q.length / 256) :: q }

/-! ## Digits -/

section Digits
variable (u : ℕ)

theorem isDigit_ofNat {d : ℕ} (h : d < 10) : isDigit (.ofNat (d + 48)) = true ∧ digit (.ofNat (d + 48)) = d := by
  have hvalue : (UInt8.ofNat (d + 48)).toNat = d + 48 := by
    rw [UInt8.toNat_ofNat', Nat.mod_eq_of_lt (by omega)]
  rw [isDigit, digit, hvalue, Bool.and_eq_true, decide_eq_true_eq, decide_eq_true_eq, UInt8.le_iff_toNat_le,
    UInt8.le_iff_toNat_le, hvalue]
  have h48 : (48 : UInt8).toNat = 48 := rfl
  have h57 : (57 : UInt8).toNat = 57 := rfl
  omega

theorem isDigit_of_mem_digitsOf : ∀ c ∈ digitsOf u, isDigit c = true := by
  induction u using Nat.strong_induction_on with
  | _ u ih =>
    have hfirst := (isDigit_ofNat (Nat.mod_lt u (by norm_num : 10 > 0))).1
    rw [digitsOf]
    split_ifs with hzero
    · exact List.forall_mem_singleton.2 hfirst
    · exact List.forall_mem_cons.2 ⟨hfirst, ih (u / 10) (by omega)⟩

theorem numberFrom_digitsOf : numberFrom 10 0 ((digitsOf u).reverse.map digit) = u := by
  induction u using Nat.strong_induction_on with
  | _ u ih =>
    have hlast := (isDigit_ofNat (Nat.mod_lt u (by norm_num : 10 > 0))).2
    rw [digitsOf, List.reverse_cons, List.map_append, numberFrom_append, List.map_singleton, hlast,
      numberFrom_cons, numberFrom_nil]
    split_ifs with hzero
    · rw [List.reverse_nil, List.map_nil, numberFrom_nil]
      omega
    · rw [ih (u / 10) (by omega)]
      omega

theorem length_digitsOf_pos : 0 < (digitsOf u).length := by
  rw [digitsOf]
  exact Nat.succ_pos _

theorem length_digitsOf_le {k : ℕ} (h : u < 10 ^ (k + 1)) : (digitsOf u).length ≤ k + 1 := by
  induction k generalizing u with
  | zero =>
    rw [digitsOf, if_pos (by omega)]
    exact le_rfl
  | succ k ih =>
    rw [digitsOf]
    split_ifs with hzero
    · exact Nat.succ_le_succ (Nat.zero_le _)
    · exact Nat.succ_le_succ (ih (u / 10) (by omega))

end Digits

theorem leadingZeros_eq (scale : ℤ) (temp : List UInt8) :
    leadingZeros scale temp = temp ++ List.replicate (1 - scale - temp.length).toNat 48 := by
  induction h : (1 - scale - temp.length).toNat generalizing temp with
  | zero =>
    rw [leadingZeros, if_neg (by omega)]
    exact (List.append_nil temp).symm
  | succ k ih =>
    have hlength : (temp ++ [48]).length = temp.length + 1 := List.length_append
    rw [leadingZeros, if_pos (by omega), ih _ (by rw [hlength]; omega), List.append_assoc, List.singleton_append,
      List.replicate_succ]

theorem magnitude_eq (n : Int64) : magnitude n = n.toInt.natAbs := by
  have hint : n.toInt = n.toBitVec.toInt := rfl
  have hnat : n.toUInt64.toNat = n.toBitVec.toNat := rfl
  have hneg : (-n).toUInt64.toNat = (2 ^ 64 - n.toBitVec.toNat) % 2 ^ 64 := by
    rw [← BitVec.toNat_neg, ← Int64.toBitVec_neg]
    rfl
  have hzero : (0 : Int64).toInt = 0 := rfl
  have hcases := BitVec.toInt_eq_toNat_cond n.toBitVec
  have hlt := n.toBitVec.isLt
  have hsign : n ≥ 0 ↔ 0 ≤ n.toBitVec.toInt := by rw [ge_iff_le, Int64.le_iff_toInt_le, hzero, hint]
  rw [magnitude, hnat, hneg, hint]
  by_cases hn : n ≥ 0
  · rw [if_pos hn]
    have := hsign.1 hn
    split_ifs at hcases <;> omega
  · rw [if_neg hn]
    have := mt hsign.2 hn
    split_ifs at hcases <;> omega

/-! ## What is read -/

section Literal
variable {neg : Bool} {whole tail fraction text : List UInt8} {k : ℕ}

theorem literal?_eq_decimal? (hspace : ∀ c ∈ text.head?, c ≠ space) (hx : ∀ c ∈ text, UPPER c ≠ 88) :
    literal? text = decimal? text := by
  have htrimmed : text.dropWhile (· = space) = text := by
    cases text with
    | nil => rfl
    | cons c text => rw [List.dropWhile_cons_of_neg]; simpa using hspace c rfl
  rw [literal?, htrimmed]
  split
  · rw [if_neg (hx _ (by simp))]
  · rfl

theorem ne_of_isDigit {c : UInt8} (h : isDigit c = true) : c ≠ 45 ∧ c ≠ 43 ∧ c ≠ space ∧ UPPER c ≠ 88 := by
  refine ⟨?_, ?_, ?_, ?_⟩
  · rintro rfl
    exact absurd h (by decide)
  · rintro rfl
    exact absurd h (by decide)
  · rintro rfl
    exact absurd h (by decide)
  · intro hupper
    rw [UPPER] at hupper
    rw [isDigit, Bool.and_eq_true, decide_eq_true_eq, decide_eq_true_eq] at h
    split_ifs at hupper with hlower
    · exact absurd (UInt8.le_trans hlower.1 h.2) (by decide)
    · rw [hupper] at h
      exact absurd h.2 (by decide)

theorem allSpaces_replicate (k : ℕ) : AllSpaces (List.replicate k space) :=
  List.dropWhile_eq_nil_iff.2 fun _ hc => decide_eq_true (List.eq_of_mem_replicate hc)

theorem splitExponent_replicate (k : ℕ) :
    splitExponent (List.replicate k space) = some (0, List.replicate k space) := by
  cases k with
  | zero => rfl
  | succ k =>
    rw [List.replicate_succ, splitExponent, if_neg]
    decide

theorem splitSign_number (hwhole : ∀ c ∈ whole, isDigit c = true) (hne : whole ≠ []) :
    splitSign ((if neg then [45] else []) ++ (whole ++ tail)) = (if neg then -1 else 0, whole ++ tail) := by
  cases neg with
  | true => rfl
  | false =>
    cases whole with
    | nil => exact absurd rfl hne
    | cons c whole =>
      obtain ⟨hminus, hplus, -⟩ := ne_of_isDigit (hwhole c (List.mem_cons_self ..))
      exact (if_neg hminus).trans (if_neg hplus)

theorem takeWhile_digits (hwhole : ∀ c ∈ whole, isDigit c = true) (hhead : ∀ c ∈ tail.head?, isDigit c = false) :
    (whole ++ tail).takeWhile isDigit = whole ∧ (whole ++ tail).dropWhile isDigit = tail := by
  rw [List.takeWhile_append_of_pos hwhole, List.dropWhile_append_of_pos hwhole]
  cases tail with
  | nil => exact ⟨List.append_nil whole, rfl⟩
  | cons c tail =>
    have hc := hhead c rfl
    rw [List.takeWhile_cons_of_neg (by rw [hc]; decide), List.dropWhile_cons_of_neg (by rw [hc]; decide),
      List.append_nil]
    exact ⟨rfl, rfl⟩

/-- The literal of a sign, digits, and what stands for a fraction and spaces. -/
theorem literal?_number (neg : Bool) (hwhole : ∀ c ∈ whole, isDigit c = true) (hne : whole ≠ [])
    (htail : ∀ c ∈ tail, isDigit c = true ∨ c = 46 ∨ c = space) (hhead : ∀ c ∈ tail.head?, isDigit c = false)
    (hfraction : splitFraction tail = (fraction, List.replicate k space)) :
    literal? ((if neg then [45] else []) ++ (whole ++ tail)) =
      some (.decimal neg ((whole ++ fraction).map digit) fraction.length 0) := by
  obtain ⟨htake, hdrop⟩ := takeWhile_digits hwhole hhead
  rw [literal?_eq_decimal?]
  · rw [decimal?, splitSign_number hwhole hne]
    dsimp only
    rw [htake, hdrop, hfraction]
    dsimp only
    rw [splitExponent_replicate]
    dsimp only
    rw [if_pos ⟨List.append_ne_nil_of_left_ne_nil hne _, allSpaces_replicate k⟩]
    cases neg <;> rfl
  · cases neg with
    | true =>
      intro c hc
      cases hc
      decide
    | false =>
      cases whole with
      | nil => exact absurd rfl hne
      | cons c whole =>
        intro d hd
        cases hd
        exact (ne_of_isDigit (hwhole c (List.mem_cons_self ..))).2.2.1
  · intro c hc
    have hsign : c ∈ (if neg then [45] else []) → UPPER c ≠ 88 := by
      cases neg with
      | true =>
        intro hc
        rw [List.mem_singleton.1 hc]
        decide
      | false => exact fun hc => absurd hc List.not_mem_nil
    rcases List.mem_append.1 hc with hc | hc
    · exact hsign hc
    · rcases List.mem_append.1 hc with hc | hc
      · exact (ne_of_isDigit (hwhole c hc)).2.2.2
      · rcases htail c hc with hdigit | rfl | rfl
        · exact (ne_of_isDigit hdigit).2.2.2
        · decide
        · decide

end Literal

/-! ## What is written -/

section Zeros
variable (m k : ℕ)

theorem numberFrom_zeros : numberFrom 10 m ((List.replicate k 48).map digit) = m * 10 ^ k := by
  induction k generalizing m with
  | zero => rw [List.replicate_zero, List.map_nil, numberFrom_nil, pow_zero, mul_one]
  | succ k ih =>
    have hzero : digit 48 = 0 := rfl
    rw [List.replicate_succ, List.map_cons, numberFrom_cons, ih, hzero, add_zero, pow_succ', mul_assoc]

/-- Zeros behind a smaller number do not make the digits begin again. -/
theorem not_startsAgain {ds : List ℕ} (h : numberFrom 10 0 ds < 2 ^ 63) :
    ¬ StartsAgain (ds ++ (List.replicate k 48).map digit) := by
  intro hagain
  obtain ⟨front, back, hsplit, hfront⟩ : ∃ front back, ds ++ (List.replicate k 48).map digit = front ++ back ∧
      numberFrom 10 0 front = 2 ^ 63 := by
    generalize ds ++ (List.replicate k 48).map digit = all at hagain
    cases hagain with
    | once hfront _ _ => exact ⟨_, _, rfl, hfront⟩
    | again hfront _ => exact ⟨_, _, rfl, hfront⟩
  rcases List.append_eq_append_iff.1 hsplit with ⟨zeros, rfl, hzeros⟩ | ⟨behind, rfl, -⟩
  · -- no power of two ends in a zero
    obtain ⟨j, rfl⟩ : ∃ j, zeros = (List.replicate j 48).map digit := by
      rw [List.map_replicate] at hzeros
      obtain ⟨-, hall, -⟩ := List.replicate_eq_append_iff.1 hzeros
      exact ⟨zeros.length, by rw [List.map_replicate]; exact hall⟩
    rw [numberFrom_append, numberFrom_zeros] at hfront
    cases j with
    | zero => omega
    | succ j =>
      rw [pow_succ, ← mul_assoc] at hfront
      omega
  · rw [numberFrom_append, hfront] at h
    have hle := le_numberFrom (by norm_num : 0 < 10) (2 ^ 63) behind
    omega

theorem isDigit_of_mem_zeros : ∀ c ∈ List.replicate k (48 : UInt8), isDigit c = true := fun c hc => by
  rw [List.eq_of_mem_replicate hc]
  rfl

end Zeros

/-- The digits that are written in front of the zeros at the end. -/
def digits (n : Int64) (scale : Int8) : List UInt8 :=
  (leadingZeros scale.toInt (digitsOf (magnitude n))).reverse

section Digits
variable (n : Int64) (scale : Int8)

theorem isDigit_of_mem_digits : ∀ c ∈ digits n scale, isDigit c = true := by
  intro c hc
  rw [digits, List.mem_reverse, leadingZeros_eq, List.mem_append] at hc
  rcases hc with hc | hc
  · exact isDigit_of_mem_digitsOf _ c hc
  · exact isDigit_of_mem_zeros _ c hc

theorem numberFrom_digits : numberFrom 10 0 ((digits n scale).map digit) = n.toInt.natAbs := by
  rw [digits, leadingZeros_eq, List.reverse_append, List.map_append, List.reverse_replicate, numberFrom_append,
    numberFrom_zeros, zero_mul, numberFrom_digitsOf, magnitude_eq]

theorem length_digits_add_pos : 0 < (digits n scale).length + scale.toInt := by
  have hpos := length_digitsOf_pos (magnitude n)
  rw [digits, List.length_reverse, leadingZeros_eq, List.length_append, List.length_replicate]
  omega

theorem digits_ne_nil : digits n scale ≠ [] := by
  have hpos := length_digitsOf_pos (magnitude n)
  rw [← List.length_pos_iff, digits, List.length_reverse, leadingZeros_eq, List.length_append]
  omega

theorem length_digits_le : (digits n scale).length ≤ 148 := by
  have hmagnitude : magnitude n < 10 ^ 20 := by
    have := n.le_toInt
    have := n.toInt_lt
    rw [magnitude_eq]
    omega
  have hle := length_digitsOf_le (magnitude n) hmagnitude
  have hscale := scale.le_toInt
  rw [digits, List.length_reverse, leadingZeros_eq, List.length_append, List.length_replicate]
  omega

/-- The length does not wrap, and it is the number of characters. -/
theorem computedLength_eq (neg : Bool) : computedLength neg scale.toInt (digits n scale).reverse =
    (formatted neg scale.toInt (digits n scale).reverse ++ List.replicate scale.toInt.toNat 48).length := by
  have hle := length_digits_le n scale
  have hpos := length_digits_add_pos n scale
  have hscale := scale.toInt_lt
  rw [computedLength, formatted, List.reverse_reverse, List.length_reverse, List.length_append, List.length_append,
    List.length_replicate, Nat.mod_eq_of_lt (by split_ifs <;> omega)]
  have hsign : (if neg then [45] else [] : List UInt8).length = if neg then 1 else 0 := by cases neg <;> rfl
  rw [hsign]
  split_ifs with hneg hlow hhigh
  all_goals
    try rw [List.length_append, List.length_cons, List.length_take, List.length_take, List.length_drop]
    omega

end Digits

/-- The text of a number. -/
def characters (n : Int64) (scale : Int8) : List UInt8 :=
  formatted (n < 0) scale.toInt (digits n scale).reverse ++ List.replicate scale.toInt.toNat 48

section Read
variable (n : Int64) (scale : Int8) (k : ℕ)

theorem splitFraction_replicate : splitFraction (List.replicate k space) = ([], List.replicate k space) := by
  cases k with
  | zero => rfl
  | succ k => rfl

theorem head?_replicate : ∀ c ∈ (List.replicate k space).head?, isDigit c = false := fun c hc => by
  rw [List.eq_of_mem_replicate (List.mem_of_mem_head? hc)]
  rfl

theorem literal?_characters_of_nonneg (h : 0 ≤ scale.toInt) :
    literal? (characters n scale ++ List.replicate k space) =
      some (.decimal (n < 0) ((digits n scale ++ List.replicate scale.toInt.toNat 48).map digit) 0 0) := by
  have hwhole : ∀ c ∈ digits n scale ++ List.replicate scale.toInt.toNat 48, isDigit c = true :=
    List.forall_mem_append.2 ⟨isDigit_of_mem_digits n scale, isDigit_of_mem_zeros _⟩
  have hne : digits n scale ++ List.replicate scale.toInt.toNat 48 ≠ [] :=
    List.append_ne_nil_of_left_ne_nil (digits_ne_nil n scale) _
  have hliteral := literal?_number (n < 0) hwhole hne
    (fun c hc => .inr (.inr (List.eq_of_mem_replicate hc))) (head?_replicate k) (splitFraction_replicate k)
  rw [List.append_nil] at hliteral
  rw [characters, formatted, if_pos h, List.reverse_reverse, List.append_assoc, List.append_assoc,
    ← List.append_assoc (digits n scale)]
  exact hliteral

theorem literal?_characters_of_neg (h : scale.toInt < 0) :
    literal? (characters n scale ++ List.replicate k space) =
      some (.decimal (n < 0) ((digits n scale).map digit) (-scale.toInt).toNat 0) := by
  have hpos := length_digits_add_pos n scale
  obtain ⟨whole, fraction, hsplit, hlength, hplaces⟩ : ∃ whole fraction, digits n scale = whole ++ fraction ∧
      whole.length = ((digits n scale).length + scale.toInt).toNat ∧ fraction.length = (-scale.toInt).toNat :=
    ⟨_, _, (List.take_append_drop ((digits n scale).length + scale.toInt).toNat _).symm,
      by rw [List.length_take]; omega, by rw [List.length_drop]; omega⟩
  have hdigits := isDigit_of_mem_digits n scale
  rw [hsplit] at hdigits
  obtain ⟨hwhole, hfraction⟩ := List.forall_mem_append.1 hdigits
  have hrest : splitFraction (46 :: (fraction ++ List.replicate k space)) = (fraction, List.replicate k space) := by
    obtain ⟨htake, hdrop⟩ := takeWhile_digits hfraction (head?_replicate k)
    rw [splitFraction, if_pos rfl, htake, hdrop]
  have htail : ∀ c ∈ 46 :: (fraction ++ List.replicate k space), isDigit c = true ∨ c = 46 ∨ c = space := by
    refine List.forall_mem_cons.2 ⟨.inr (.inl rfl), List.forall_mem_append.2 ⟨fun c hc => .inl (hfraction c hc), ?_⟩⟩
    exact fun c hc => .inr (.inr (List.eq_of_mem_replicate hc))
  have hne : whole ≠ [] := List.ne_nil_of_length_pos (by omega)
  have hliteral := literal?_number (n < 0) hwhole hne htail (fun c hc => by cases hc; rfl) hrest
  have hwritten : characters n scale =
      (if decide (n < 0) = true then [45] else []) ++ (whole ++ 46 :: fraction) := by
    rw [characters, formatted, if_neg h.not_ge, List.reverse_reverse, List.length_reverse, ← hlength, ← hplaces, hsplit]
    dsimp only
    rw [List.take_left, List.drop_left, List.take_length, Int.toNat_of_nonpos h.le, List.replicate_zero,
      List.append_nil]
  rw [hwritten, hsplit, ← hplaces, List.append_assoc, List.append_assoc, List.cons_append]
  exact hliteral

theorem integer_eq : (if decide (n < 0) = true then -(n.toInt.natAbs : ℤ) else n.toInt.natAbs) = n.toInt := by
  have hsign : n < 0 ↔ n.toInt < 0 := Int64.lt_iff_toInt_lt
  simp only [decide_eq_true_eq, hsign]
  split_ifs <;> omega

/-- A scale that is not positive is read back. -/
theorem CVT_decompose_of_nonpos (h : scale.toInt ≤ 0) (behind : List UInt8) :
    CVT_decompose .dtype_int64 (characters n scale ++ List.replicate k space) behind =
      .ok (n.toInt, scale.toInt) := by
  have hscale := scale.le_toInt
  have hliteral : literal? (characters n scale ++ List.replicate k space) =
      some (.decimal (n < 0) ((digits n scale).map digit) (-scale.toInt).toNat 0) := by
    rcases h.lt_or_eq with hneg | hzero
    · exact literal?_characters_of_neg n scale k hneg
    · have hwhole := literal?_characters_of_nonneg n scale k hzero.ge
      rw [hzero, Int.toNat_zero, List.replicate_zero, List.append_nil] at hwhole
      rw [hzero]
      exact hwhole
  have hinteger : (Literal.decimal (n < 0) ((digits n scale).map digit) (-scale.toInt).toNat 0).integer = n.toInt := by
    rw [Literal.integer, numberFrom_digits, integer_eq]
  have hfits : (Literal.decimal (n < 0) ((digits n scale).map digit) (-scale.toInt).toNat 0).Fits .dtype_int64 := by
    rw [Literal.Fits, hinteger]
    exact ⟨n.le_toInt, Int.le_sub_one_of_lt n.toInt_lt, by decide⟩
  have hplaces : SSHORT (0 - (-scale.toInt).toNat) = scale.toInt := by
    have hnat : (0 - (-scale.toInt).toNat : ℤ) = scale.toInt := by omega
    rw [hnat, SSHORT, Int.bmod_eq_of_le] <;> norm_num <;> omega
  rw [CVT_decompose_fits hliteral hfits, hinteger, hplaces]

/-- A number of a positive scale is read with all its zeros, if that fits. -/
theorem CVT_decompose_of_pos (h : 0 < scale.toInt) (hn : n.toInt ≠ MIN_SINT64) (behind : List UInt8) :
    CVT_decompose .dtype_int64 (characters n scale ++ List.replicate k space) behind =
      if MIN_SINT64 ≤ n.toInt * 10 ^ scale.toInt.toNat ∧ n.toInt * 10 ^ scale.toInt.toNat ≤ MAX_SINT64 then
        .ok (n.toInt * 10 ^ scale.toInt.toNat, 0)
      else .error .numericOutOfRange := by
  have hliteral := literal?_characters_of_nonneg n scale k h.le
  rw [List.map_append] at hliteral
  have hinteger : (Literal.decimal (n < 0) ((digits n scale).map digit ++
      (List.replicate scale.toInt.toNat 48).map digit) 0 0).integer = n.toInt * 10 ^ scale.toInt.toNat := by
    rw [Literal.integer, numberFrom_append, numberFrom_digits, numberFrom_zeros]
    calc (if decide (n < 0) = true then -((n.toInt.natAbs * 10 ^ scale.toInt.toNat : ℕ) : ℤ)
          else (n.toInt.natAbs * 10 ^ scale.toInt.toNat : ℕ))
        = (if decide (n < 0) = true then -(n.toInt.natAbs : ℤ) else n.toInt.natAbs) *
            10 ^ scale.toInt.toNat := by
          push_cast
          rw [ite_mul, neg_mul]
      _ = _ := by rw [integer_eq]
  have hfits : (Literal.decimal (n < 0) ((digits n scale).map digit ++
      (List.replicate scale.toInt.toNat 48).map digit) 0 0).Fits .dtype_int64 ↔
      MIN_SINT64 ≤ n.toInt * 10 ^ scale.toInt.toNat ∧ n.toInt * 10 ^ scale.toInt.toNat ≤ MAX_SINT64 := by
    rw [Literal.Fits, hinteger]
    exact and_congr_right fun _ => and_iff_left (by decide)
  have hlt : numberFrom 10 0 ((digits n scale).map digit) < 2 ^ 63 := by
    have := n.le_toInt
    have := n.toInt_lt
    rw [MIN_SINT64] at hn
    rw [numberFrom_digits]
    omega
  split_ifs with hrange
  · rw [CVT_decompose_fits hliteral (hfits.2 hrange), hinteger]
    rfl
  · exact CVT_decompose_not_fits hliteral (mt hfits.1 hrange) (not_startsAgain _ hlt) behind

end Read

/-- What a type needs beside the characters. -/
def TextType.overhead : TextType → ℕ
  | dtype_text => 0
  | dtype_cstring => 1
  | dtype_varying => 2

/-- The length that is computed for a number. -/
def textLength (n : Int64) (scale : Int8) : ℕ := computedLength (n < 0) scale.toInt (digits n scale).reverse

/-- What the callback finds at the start of the text, where the zeros at the end are not there yet. -/
def startOfText (n : Int64) (scale : Int8) (old : List UInt8) : List UInt8 :=
  let q := formatted (n < 0) scale.toInt (digits n scale).reverse
  q ++ old.drop q.length

/-- A text is read back, whatever spaces and other memory are behind it. Nothing is said of the most negative
number with zeros behind it. -/
def ReadsBack (n : Int64) (scale : Int8) (text : List UInt8) : Prop :=
  ∀ (k : ℕ) (behind : List UInt8),
    (scale.toInt ≤ 0 → CVT_decompose .dtype_int64 (text ++ List.replicate k space) behind =
      .ok (n.toInt, scale.toInt)) ∧
    (0 < scale.toInt → n.toInt ≠ MIN_SINT64 →
      CVT_decompose .dtype_int64 (text ++ List.replicate k space) behind =
        if MIN_SINT64 ≤ n.toInt * 10 ^ scale.toInt.toNat ∧ n.toInt * 10 ^ scale.toInt.toNat ≤ MAX_SINT64 then
          .ok (n.toInt * 10 ^ scale.toInt.toNat, 0)
        else .error .numericOutOfRange)

theorem characters_readsBack (n : Int64) (scale : Int8) : ReadsBack n scale (characters n scale) :=
  fun k behind => ⟨fun h => CVT_decompose_of_nonpos n scale k h behind,
    fun h hn => CVT_decompose_of_pos n scale k h hn behind⟩

section Write
variable (validateLength : ℕ → List UInt8 → ℕ → Bool) (n : Int64) (scale : Int8) (target : TextTarget)
  (old : List UInt8)

/-- The checks of the length, for all types. -/
theorem too_long_iff (length : ℕ) :
    (target.dsc_dtype = .dtype_text ∧ length > target.dsc_length.toNat) ∨
      (target.dsc_dtype = .dtype_cstring ∧ length ≥ target.dsc_length.toNat) ∨
      (target.dsc_dtype = .dtype_varying ∧ length > target.dsc_length.toNat - 2) ↔
    ¬ length + target.dsc_dtype.overhead ≤ target.dsc_length.toNat := by
  have hvarying := target.varying
  cases htype : target.dsc_dtype with
  | dtype_text => simp [TextType.overhead]
  | dtype_cstring => simp [TextType.overhead]
  | dtype_varying =>
    have hroom := hvarying htype
    simp [TextType.overhead]
    omega

/-- The bytes of the target. -/
def TextTarget.filled (text : List UInt8) (length : ℕ) : List UInt8 :=
  match target.dsc_dtype with
  | .dtype_text => text ++ List.replicate (target.dsc_length.toNat - length) (if target.binary then 0 else space)
  | .dtype_cstring => text ++ [0]
  | .dtype_varying => .ofNat text.length :: .ofNat (text.length / 256) :: text

theorem length_filled {text : List UInt8} (h : text.length + target.dsc_dtype.overhead ≤ target.dsc_length.toNat) :
    (target.filled text text.length).length ≤ target.dsc_length.toNat ∧ text <:+: target.filled text text.length := by
  rw [TextTarget.filled]
  cases htype : target.dsc_dtype with
  | dtype_text =>
    rw [htype, TextType.overhead] at h
    refine ⟨?_, [], _, rfl⟩
    rw [List.length_append, List.length_replicate]
    omega
  | dtype_cstring =>
    rw [htype, TextType.overhead] at h
    refine ⟨?_, [], _, rfl⟩
    rw [List.length_append, List.length_singleton]
    exact h
  | dtype_varying =>
    rw [htype, TextType.overhead] at h
    exact ⟨h, [_, _], [], List.append_nil _⟩

theorem integer_to_text_eq : integer_to_text validateLength n scale target old =
    if ¬ textLength n scale + target.dsc_dtype.overhead ≤ target.dsc_length.toNat then .error .conversion
    else if !validateLength (textLength n scale) (startOfText n scale old) (TEXT_LEN target) then
      .error .truncation
    else .ok ⟨characters n scale, target.filled (characters n scale) (textLength n scale)⟩ := by
  have htemp : leadingZeros scale.toInt (digitsOf (magnitude n)) = (digits n scale).reverse :=
    (List.reverse_reverse _).symm
  rw [integer_to_text, htemp]
  exact if_congr (too_long_iff target _) rfl rfl

/-- The text is written if it fits and the character set accepts it, and its length is the one that has been
computed. It stays in the target and is read back. -/
theorem integer_to_text_reads_back :
    ((∃ w, integer_to_text validateLength n scale target old = .ok w) ↔
      textLength n scale + target.dsc_dtype.overhead ≤ target.dsc_length.toNat ∧
        validateLength (textLength n scale) (startOfText n scale old) (TEXT_LEN target) = true) ∧
    (∀ w, integer_to_text validateLength n scale target old = .ok w →
      w.characters.length = textLength n scale ∧ w.bytes.length ≤ target.dsc_length.toNat ∧
        w.characters <:+: w.bytes ∧ ReadsBack n scale w.characters) := by
  have hlength : textLength n scale = (characters n scale).length := computedLength_eq n scale _
  rw [integer_to_text_eq]
  by_cases hfits : textLength n scale + target.dsc_dtype.overhead ≤ target.dsc_length.toNat
  · rw [if_neg (not_not.2 hfits)]
    cases hvalid : validateLength (textLength n scale) (startOfText n scale old) (TEXT_LEN target) with
    | false => simp
    | true =>
      refine ⟨iff_of_true ⟨_, rfl⟩ ⟨hfits, rfl⟩, ?_⟩
      rintro w hw
      cases hw
      rw [hlength] at hfits ⊢
      obtain ⟨hbytes, hinside⟩ := length_filled target hfits
      exact ⟨rfl, hbytes, hinside, characters_readsBack n scale⟩
  · rw [if_pos hfits]
    exact ⟨iff_of_false (fun ⟨w, hw⟩ => by cases hw) fun h => hfits h.1, fun w hw => by cases hw⟩

end Write

/-- A column of five characters. -/
def five : TextTarget := ⟨.dtype_varying, 7, false, fun _ => Nat.le_add_left 2 5⟩

/-- `-0.05` -/
theorem five_readsBack :
    integer_to_text (fun _ _ _ => true) (-5) (-2) five [] = .ok ⟨[45, 48, 46, 48, 53], [5, 0, 45, 48, 46, 48, 53]⟩ ∧
      ReadsBack (-5) (-2) [45, 48, 46, 48, 53] := by
  have hrun : integer_to_text (fun _ _ _ => true) (-5) (-2) five [] =
      .ok ⟨[45, 48, 46, 48, 53], [5, 0, 45, 48, 46, 48, 53]⟩ := by decide +kernel
  exact ⟨hrun, ((integer_to_text_reads_back _ (-5) (-2) five []).2 _ hrun).2.2.2⟩

/-- A column of thirty characters. -/
def thirty : TextTarget := ⟨.dtype_varying, 32, false, fun _ => Nat.le_add_left 2 30⟩

/-- With its zeros, the number no longer fits 64 bits. -/
theorem thirty_not_read_back :
    ∃ w, integer_to_text (fun _ _ _ => true) 1000000000000000000 2 thirty [] = .ok w ∧
      ∀ value scale : ℤ, CVT_decompose .dtype_int64 w.characters [] = .ok (value, scale) →
        (value : ℚ) * (10 : ℚ) ^ scale ≠ 1000000000000000000 * 10 ^ 2 := by
  have hfits : textLength 1000000000000000000 2 + thirty.dsc_dtype.overhead ≤ thirty.dsc_length.toNat := by
    decide +kernel
  refine ⟨_, (integer_to_text_eq ..).trans (if_neg (not_not.2 hfits)), fun value scale hread => ?_⟩
  have herror : CVT_decompose .dtype_int64 (characters 1000000000000000000 2) [] = .error .numericOutOfRange := by
    decide +kernel
  cases herror.symm.trans hread

end FirebirdCore.Cvt
