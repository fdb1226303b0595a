import FirebirdCore.Lib.Slots
import Mathlib.Data.Fin.Basic
import Mathlib.Order.Fin.Basic

/-!
# Quick sort of record pointers

Slots of record pointers between two guards. `quick` leaves pairs as they are, and `sort` puts them right
in a pass behind it. Going past a guard, comparing or moving a guard, and pushing more than fifty intervals
are faults.
-/
namespace FirebirdCore.Sort

open Slots (Rearranged elements)

abbrev ULONG := Fin (2 ^ 32)

scoped instance ulongNeZero : NeZero (2 ^ 32) := ⟨by norm_num⟩

def MAX_ULONG : ULONG := ⟨2 ^ 32 - 1, by norm_num⟩

/-- The room of the stacks of intervals. -/
def STACK_SIZE : ℕ := 50

/-- The keys and data of the records, of which `longs` is the length. A comparison goes on to the longword
behind them, which may be a part of a back pointer. -/
structure Records (ρ : Type*) where
  longs : ℕ
  key : ρ → List ULONG
  beyond : (ρ → ℕ) → ρ → ULONG
  longs_pos : 0 < longs
  key_length : ∀ p, (key p).length = longs

/-- The slots 1 to `size` hold the records, with the low key in front and the high key behind them. A record
has the number of its slot as its back pointer. -/
structure Pointers (ρ : Type*) where
  size : ℕ
  slots : ℕ → ρ
  back : ρ → ℕ

variable {ρ : Type*}

/-! ## The code -/

/-- `*p < *q` at the first difference in so many longwords. -/
def less : ℕ → List ULONG → List ULONG → Bool
  | tl + 1, a :: p, b :: q => if a = b then less tl p q else decide (a < b)
  | _, _, _ => false

namespace Records

/-- The longwords of a record from its key on. -/
def longwords (R : Records ρ) (m : Pointers ρ) (p : ρ) : List ULONG := R.key p ++ [R.beyond m.back p]

/-- Whether one record is found to be less than another. -/
def lessThan (R : Records ρ) (m : Pointers ρ) (p q : ρ) : Bool :=
  less (R.longs + 1) (R.longwords m p) (R.longwords m q)

/-- The longword that a pointer leads to. -/
def first (R : Records ρ) (m : Pointers ρ) (k : ℕ) : Option ULONG :=
  if k = 0 then some 0
  else if k ≤ m.size then some ((R.key (m.slots k)).headD 0)
  else if k = m.size + 1 then some MAX_ULONG
  else none

end Records

namespace Pointers

/-- The record of a slot. Guards are none. -/
def record (m : Pointers ρ) (k : ℕ) : Option ρ := if 1 ≤ k ∧ k ≤ m.size then some (m.slots k) else none

def swap [DecidableEq ρ] (m : Pointers ρ) (i j : ℕ) : Option (Pointers ρ) :=
  match m.record i, m.record j with
  | some p, some q => some { m with
      slots := m.slots ∘ Equiv.swap i j
      back := Function.update (Function.update m.back p j) q i }
  | _, _ => none

end Pointers

section Code
variable (R : Records ρ) (m : Pointers ρ) (key : ULONG) (r su : ℕ)

/-- `while (**i < key) i++` -/
def scanBelow (i : ℕ) : Option ℕ :=
  if i ≤ m.size + 1 then
    match R.first m i with
    | none => none
    | some longword => if longword < key then scanBelow (i + 1) else some i
  else none
termination_by m.size + 2 - i

/-- The loop up to `*su` for a longword that is equal. -/
def scanNotGreater (i : ℕ) : Option ℕ :=
  if i ≤ su then
    match m.record i, m.record r with
    | some p, some q => if R.lessThan m q p then some i else scanNotGreater (i + 1)
    | _, _ => none
  else some i
termination_by su + 1 - i

def scanUp (i : ℕ) : Option ℕ :=
  (scanBelow R m key i).bind fun i =>
    if R.first m i = some key then scanNotGreater R m r su i else some i

/-- `while (**j > key) j--` -/
def scanAbove : ℕ → Option ℕ
  | 0 => none
  | j + 1 =>
      match R.first m (j + 1) with
      | none => none
      | some longword => if longword > key then scanAbove j else some (j + 1)

/-- The loop down to `r` for a longword that is equal. -/
def scanNotLess : ℕ → Option ℕ
  | 0 => none
  | j + 1 =>
      if j + 1 ≠ r then
        match m.record (j + 1), m.record r with
        | some p, some q => if R.lessThan m p q then some (j + 1) else scanNotLess j
        | _, _ => none
      else some (j + 1)

def scanDown (j : ℕ) : Option ℕ :=
  (scanAbove R m key j).bind fun j =>
    if R.first m j = some key then scanNotLess R m r j else some j

end Code

variable [DecidableEq ρ]

/-- The loop in which both scans converge. -/
def partition (R : Records ρ) (key : ULONG) (r su : ℕ) :
    ℕ → Pointers ρ → ℕ → ℕ → Option (Pointers ρ × ℕ)
  | 0, _, _, _ => none
  | fuel + 1, m, i, j =>
      (scanUp R m key r su i).bind fun i =>
        (scanDown R m key r j).bind fun j =>
          if i ≥ j then some (m, j)
          else (m.swap i j).bind fun m => partition R key r su fuel m (i + 1) (j - 1)

/-- One interval is divided by the record in its middle, whose slot is returned. -/
def divide (R : Records ρ) (m : Pointers ρ) (r su : ℕ) : Option (Pointers ρ × ℕ) :=
  (m.swap (r + (su - r) / 2) r).bind fun m =>
    (R.first m r).bind fun key =>
      (partition R key r su (su + 1 - r) m (r + 1) su).bind fun result =>
        (result.1.swap r result.2).map fun m => (m, result.2)

/-- The intervals on the stacks, the last one in front. -/
def quick (R : Records ρ) : ℕ → Pointers ρ → List (ℕ × ℕ) → Option (Pointers ρ)
  | 0, _, _ => none
  | _ + 1, m, [] => some m
  | fuel + 1, m, (r, su) :: stack =>
      if su < r + 2 then quick R fuel m stack
      else
        (divide R m r su).bind fun result =>
          let j := result.2
          if stack.length + 2 > STACK_SIZE then none
          else if j - r > su - j + 1 then quick R fuel result.1 ((j + 1, su) :: (r, j - 1) :: stack)
          else quick R fuel result.1 ((r, j - 1) :: (j + 1, su) :: stack)

/-- The pass over so many pairs of neighbours from a slot on. -/
def pairs (R : Records ρ) : ℕ → Pointers ρ → ℕ → Option (Pointers ρ)
  | 0, m, _ => some m
  | count + 1, m, i =>
      match m.record i, m.record (i + 1) with
      | some p, some q =>
          if (R.key p).headD 0 ≥ (R.key q).headD 0 ∧ R.lessThan m q p = true then
            (m.swap i (i + 1)).bind fun m => pairs R count m (i + 1)
          else pairs R count m (i + 1)
      | _, _ => none

def sort (R : Records ρ) (fuel : ℕ) (m : Pointers ρ) : Option (Pointers ρ) :=
  (quick R fuel m [(1, m.size)]).bind fun m => pairs R (m.size - 1) m 1

/-! ## Comparing -/

section Comparing
omit [DecidableEq ρ]
variable {R : Records ρ} {m : Pointers ρ} {p q : ρ}

theorem le_of_less {tl : ℕ} {a b : List ULONG} (hlength : a.length = b.length) {x y : ULONG}
    (h : less tl (a ++ [x]) (b ++ [y]) = true) : a ≤ b := by
  induction a generalizing b tl with
  | nil =>
    rw [List.eq_nil_of_length_eq_zero hlength.symm]
  | cons c a ih =>
    obtain ⟨d, b, rfl⟩ := List.exists_cons_of_length_pos (by rw [← hlength]; exact Nat.succ_pos _)
    cases tl with
    | zero => cases h
    | succ tl =>
      rw [List.cons_append, List.cons_append, less] at h
      split_ifs at h with heq
      · rw [heq]
        exact List.cons_le_cons d (ih (Nat.succ.inj hlength) h)
      · exact le_of_lt (List.Lex.rel (of_decide_eq_true h))

theorem le_of_not_less {tl : ℕ} {a b : List ULONG} (hlength : a.length = b.length) {x y : ULONG}
    (htl : a.length ≤ tl) (h : less tl (a ++ [x]) (b ++ [y]) = false) : b ≤ a := by
  induction a generalizing b tl with
  | nil =>
    rw [List.eq_nil_of_length_eq_zero hlength.symm]
  | cons c a ih =>
    obtain ⟨d, b, rfl⟩ := List.exists_cons_of_length_pos (by rw [← hlength]; exact Nat.succ_pos _)
    obtain ⟨tl, rfl⟩ := Nat.exists_eq_succ_of_ne_zero (by rw [List.length_cons] at htl; omega : tl ≠ 0)
    rw [List.cons_append, List.cons_append, less] at h
    split_ifs at h with heq
    · rw [heq]
      exact List.cons_le_cons d (ih (Nat.succ.inj hlength) (Nat.le_of_succ_le_succ htl) h)
    · exact le_of_lt (List.Lex.rel (lt_of_le_of_ne (not_lt.1 (of_decide_eq_false h)) fun hdc => heq hdc.symm))

theorem key_le_of_lessThan (h : R.lessThan m p q = true) : R.key p ≤ R.key q :=
  le_of_less (by rw [R.key_length, R.key_length]) h

theorem key_le_of_not_lessThan (h : R.lessThan m p q = false) : R.key q ≤ R.key p :=
  le_of_not_less (by rw [R.key_length, R.key_length]) (by rw [R.key_length]; omega) h

theorem key_ne_nil (p : ρ) : R.key p ≠ [] := by
  have hpos := R.longs_pos
  rw [← R.key_length p] at hpos
  exact List.ne_nil_of_length_pos hpos

theorem head_le_of_key_le (h : R.key p ≤ R.key q) : (R.key p).headD 0 ≤ (R.key q).headD 0 := by
  obtain ⟨a, l, hp⟩ := List.exists_cons_of_ne_nil (@key_ne_nil _ R p)
  obtain ⟨b, l', hq⟩ := List.exists_cons_of_ne_nil (@key_ne_nil _ R q)
  rw [hp, hq] at h ⊢
  rcases h.lt_or_eq with hlt | heq
  · exact List.head_le_of_lt hlt
  · rw [heq]

theorem key_le_of_head_lt (h : (R.key p).headD 0 < (R.key q).headD 0) : R.key p ≤ R.key q := by
  by_contra hnot
  exact absurd (head_le_of_key_le (le_of_not_ge hnot)) (not_le.2 h)

theorem le_MAX_ULONG (x : ULONG) : x ≤ MAX_ULONG := Fin.le_last x

end Comparing

end FirebirdCore.Sort
