import Mathlib.Data.Rat.Floor
import Mathlib.Tactic

/-!
# Rounding half away from zero

The nearest integer of a rational number, where the one farther from zero is taken of two. The last digit
that is dropped says which way a decimal number is rounded.
-/
namespace FirebirdCore.HalfAway

def roundHalfAway (x : ℚ) : ℤ := if 0 ≤ x then ⌊x + 1 / 2⌋ else -⌊-x + 1 / 2⌋

theorem roundHalfAway_of_nonneg {x : ℚ} (hx : 0 ≤ x) : roundHalfAway x = ⌊x + 1 / 2⌋ := if_pos hx

theorem roundHalfAway_zero : roundHalfAway 0 = 0 := by
  rw [roundHalfAway_of_nonneg le_rfl, Int.floor_eq_zero_iff]
  norm_num

theorem roundHalfAway_neg (x : ℚ) : roundHalfAway (-x) = -roundHalfAway x := by
  rcases lt_trichotomy x 0 with hx | rfl | hx
  · rw [roundHalfAway, roundHalfAway, if_pos (by linarith), if_neg (not_le.2 hx), neg_neg]
  · rw [neg_zero, roundHalfAway_zero]
    rfl
  · rw [roundHalfAway, roundHalfAway, if_neg (by linarith), if_pos hx.le, neg_neg]

theorem roundHalfAway_intCast (n : ℤ) : roundHalfAway n = n := by
  have hhalf : ⌊(1 / 2 : ℚ)⌋ = 0 := by
    rw [Int.floor_eq_zero_iff]
    norm_num
  rw [roundHalfAway]
  split_ifs
  · rw [Int.floor_intCast_add, hhalf, add_zero]
  · rw [← Int.cast_neg, Int.floor_intCast_add, hhalf, add_zero, neg_neg]

/-- No other integer is nearer. -/
theorem abs_sub_roundHalfAway_le (x : ℚ) : |x - roundHalfAway x| ≤ 1 / 2 := by
  rw [roundHalfAway, abs_le]
  split_ifs
  · have hle := Int.floor_le (x + 1 / 2)
    have hlt := Int.lt_floor_add_one (x + 1 / 2)
    constructor <;> linarith
  · have hle := Int.floor_le (-x + 1 / 2)
    have hlt := Int.lt_floor_add_one (-x + 1 / 2)
    push_cast
    constructor <;> linarith

/-- A number is rounded by the first of the digits that are dropped. -/
theorem roundHalfAway_digits (k n : ℕ) :
    roundHalfAway ((k : ℚ) / 10 ^ (n + 1)) =
      ((k / 10 ^ (n + 1) : ℕ) : ℤ) + if 4 < k / 10 ^ n % 10 then 1 else 0 := by
  have hpow : 0 < 10 ^ n := Nat.pow_pos (by norm_num)
  have hshift : (k : ℚ) / 10 ^ (n + 1) + 1 / 2 = ((k + 5 * 10 ^ n : ℕ) : ℚ) / ((10 ^ (n + 1) : ℕ) : ℚ) := by
    have hne : (10 : ℚ) ^ n ≠ 0 := pow_ne_zero _ (by norm_num)
    push_cast
    rw [pow_succ]
    field_simp
    ring
  have hdiv : (k + 5 * 10 ^ n) / 10 ^ (n + 1) = (k / 10 ^ n + 5) / 10 := by
    rw [Nat.pow_succ, ← Nat.div_div_eq_div_mul, Nat.add_mul_div_right _ _ hpow]
  have hdiv' : k / 10 ^ (n + 1) = k / 10 ^ n / 10 := by
    rw [Nat.pow_succ, ← Nat.div_div_eq_div_mul]
  rw [roundHalfAway_of_nonneg (by positivity), hshift, Rat.floor_natCast_div_natCast,
    ← Int.natCast_ediv, hdiv]
  rw [hdiv']
  split_ifs <;> omega

end FirebirdCore.HalfAway
