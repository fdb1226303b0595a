import Mathlib.Algebra.Order.Ring.Defs
import Mathlib.Order.MinMax
import Mathlib.Tactic

/-!
# Intervals

Sums, differences and products of intervals. The ends of a product are among the four products of the ends.
-/
namespace FirebirdCore.Lib

structure Interval (R : Type*) where
  lower : R
  upper : R
  deriving DecidableEq, Repr

namespace Interval

variable {R : Type*}

instance instMembership [LE R] : Membership R (Interval R) := ⟨fun I x => I.lower ≤ x ∧ x ≤ I.upper⟩

def single (x : R) : Interval R := ⟨x, x⟩

@[simp] theorem single_lower (x : R) : (single x).lower = x := rfl

@[simp] theorem single_upper (x : R) : (single x).upper = x := rfl

theorem mem_single [Preorder R] (x : R) : x ∈ single x := ⟨le_rfl, le_rfl⟩

variable [Ring R] [LinearOrder R] [IsStrictOrderedRing R] {I J : Interval R} {x y : R}

def add (I J : Interval R) : Interval R := ⟨I.lower + J.lower, I.upper + J.upper⟩

def sub (I J : Interval R) : Interval R := ⟨I.lower - J.upper, I.upper - J.lower⟩

def mul (I J : Interval R) : Interval R :=
  ⟨min (min (I.lower * J.lower) (I.lower * J.upper)) (min (I.upper * J.lower) (I.upper * J.upper)),
    max (max (I.lower * J.lower) (I.lower * J.upper)) (max (I.upper * J.lower) (I.upper * J.upper))⟩

theorem add_mem (hx : x ∈ I) (hy : y ∈ J) : x + y ∈ I.add J :=
  ⟨add_le_add hx.1 hy.1, add_le_add hx.2 hy.2⟩

theorem sub_mem (hx : x ∈ I) (hy : y ∈ J) : x - y ∈ I.sub J :=
  ⟨sub_le_sub hx.1 hy.2, sub_le_sub hx.2 hy.1⟩

/-- A product is between those of the ends of one factor. -/
theorem mul_between (hx : x ∈ I) (y : R) :
    min (I.lower * y) (I.upper * y) ≤ x * y ∧ x * y ≤ max (I.lower * y) (I.upper * y) := by
  rcases le_total 0 y with hy | hy
  · exact ⟨(min_le_left _ _).trans (mul_le_mul_of_nonneg_right hx.1 hy),
      (mul_le_mul_of_nonneg_right hx.2 hy).trans (le_max_right _ _)⟩
  · exact ⟨(min_le_right _ _).trans (mul_le_mul_of_nonpos_right hx.2 hy),
      (mul_le_mul_of_nonpos_right hx.1 hy).trans (le_max_left _ _)⟩

theorem mul_between' (x : R) (hy : y ∈ J) :
    min (x * J.lower) (x * J.upper) ≤ x * y ∧ x * y ≤ max (x * J.lower) (x * J.upper) := by
  rcases le_total 0 x with hx | hx
  · exact ⟨(min_le_left _ _).trans (mul_le_mul_of_nonneg_left hy.1 hx),
      (mul_le_mul_of_nonneg_left hy.2 hx).trans (le_max_right _ _)⟩
  · exact ⟨(min_le_right _ _).trans (mul_le_mul_of_nonpos_left hy.2 hx),
      (mul_le_mul_of_nonpos_left hy.1 hx).trans (le_max_left _ _)⟩

theorem mul_mem (hx : x ∈ I) (hy : y ∈ J) : x * y ∈ I.mul J := by
  obtain ⟨hleast, hgreatest⟩ := mul_between hx y
  obtain ⟨hlower, hlower'⟩ := mul_between' I.lower hy
  obtain ⟨hupper, hupper'⟩ := mul_between' I.upper hy
  exact ⟨(min_le_min hlower hupper).trans hleast, hgreatest.trans (max_le_max hlower' hupper')⟩

/-- Without negative factors, the product has the products of the lower and of the upper ends. -/
theorem mul_of_nonneg (hI : 0 ≤ I.lower) (hI' : I.lower ≤ I.upper) (hJ : 0 ≤ J.lower) (hJ' : J.lower ≤ J.upper) :
    I.mul J = ⟨I.lower * J.lower, I.upper * J.upper⟩ := by
  have hleft : I.lower * J.lower ≤ I.lower * J.upper := mul_le_mul_of_nonneg_left hJ' hI
  have hright : I.upper * J.lower ≤ I.upper * J.upper := mul_le_mul_of_nonneg_left hJ' (hI.trans hI')
  have hdown : I.lower * J.lower ≤ I.upper * J.lower := mul_le_mul_of_nonneg_right hI' hJ
  have hup : I.lower * J.upper ≤ I.upper * J.upper := mul_le_mul_of_nonneg_right hI' (hJ.trans hJ')
  rw [mul, min_eq_left hleft, min_eq_left hright, min_eq_left hdown, max_eq_right hleft, max_eq_right hright,
    max_eq_right hup]

end Interval

end FirebirdCore.Lib
