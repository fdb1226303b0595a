import Mathlib.Algebra.BigOperators.Group.List.Basic
import Mathlib.Data.List.Nodup
import Mathlib.Tactic

/-!
# Boxes in row-major order

A box has a lower and an upper bound for each dimension. Its cells are listed with the last subscript running
fastest, so that a front of the list falls into whole rows and a front of one row.
-/
namespace FirebirdCore.RowMajor

variable {α β : Type*} {r : ℤ × ℤ} {box : List (ℤ × ℤ)} {x : ℤ} {n : ℕ}

/-! ## Fronts of equal blocks -/

theorem take_flatMap_of_length {f : α → List β} {l : List α} {d k n : ℕ} (hf : ∀ a ∈ l, (f a).length = d) :
    (l.flatMap f).take (k * d + n) = (l.take k).flatMap f ++ ((l.drop k).flatMap f).take n := by
  induction k generalizing l with
  | zero => simp
  | succ k ih =>
    cases l with
    | nil => simp
    | cons a l =>
      have ha : (f a).length = d := hf a List.mem_cons_self
      have hle : (k + 1) * d + n = (f a).length + (k * d + n) := by rw [ha]; ring
      rw [List.flatMap_cons, hle, List.take_length_add_append, ih fun b hb => hf b (List.mem_cons_of_mem a hb),
        List.take_succ_cons, List.flatMap_cons, List.drop_succ_cons, List.append_assoc]

/-! ## Boxes -/

def extent (r : ℤ × ℤ) : ℤ := r.2 - r.1 + 1

/-- The number of cells, where no dimension is empty. -/
def size (box : List (ℤ × ℤ)) : ℤ := (box.map extent).prod

def indices (r : ℤ × ℤ) : List ℤ := (List.range (extent r).toNat).map fun (k : ℕ) => r.1 + k

def cells : List (ℤ × ℤ) → List (List ℤ)
  | [] => [[]]
  | r :: box => (indices r).flatMap fun i => (cells box).map (i :: ·)

/-- No dimension is empty. -/
def Filled (box : List (ℤ × ℤ)) : Prop := ∀ r ∈ box, r.1 ≤ r.2

@[simp] theorem size_nil : size [] = 1 := rfl

@[simp] theorem size_cons (r : ℤ × ℤ) (box : List (ℤ × ℤ)) : size (r :: box) = extent r * size box := by
  simp [size]

@[simp] theorem cells_nil : cells [] = [[]] := rfl

theorem extent_pos (h : r.1 ≤ r.2) : 0 < extent r := by
  unfold extent
  omega

theorem Filled.head (h : Filled (r :: box)) : r.1 ≤ r.2 := h r List.mem_cons_self

theorem Filled.tail (h : Filled (r :: box)) : Filled box := fun s hs => h s (List.mem_cons_of_mem r hs)

theorem Filled.cons (hr : r.1 ≤ r.2) (h : Filled box) : Filled (r :: box) := by
  intro s hs
  rcases List.mem_cons.1 hs with rfl | hs
  · exact hr
  · exact h s hs

theorem Filled.size_pos (h : Filled box) : 0 < size box := by
  induction box with
  | nil => exact Int.one_pos
  | cons r box ih =>
    rw [size_cons]
    exact Int.mul_pos (extent_pos h.head) (ih h.tail)

theorem length_cells_cons : (cells (r :: box)).length = (extent r).toNat * (cells box).length := by
  rw [cells, List.length_flatMap]
  simp [indices, Function.comp_def]

theorem length_cells (h : Filled box) : ((cells box).length : ℤ) = size box := by
  induction box with
  | nil => rfl
  | cons r box ih =>
    rw [length_cells_cons, Nat.cast_mul, ih h.tail, Int.toNat_of_nonneg (extent_pos h.head).le, size_cons]

theorem nodup_indices (r : ℤ × ℤ) : (indices r).Nodup :=
  List.nodup_range.map fun _ _ hij => Int.ofNat_inj.1 (add_left_cancel hij)

theorem nodup_cells (box : List (ℤ × ℤ)) : (cells box).Nodup := by
  induction box with
  | nil => exact List.nodup_singleton _
  | cons r box ih =>
    rw [cells, List.nodup_flatMap]
    refine ⟨fun i _ => ih.map fun a b hab => (List.cons.inj hab).2, ?_⟩
    refine (nodup_indices r).imp fun {i j} hij => ?_
    intro c hi hj
    obtain ⟨a, -, rfl⟩ := List.mem_map.1 hi
    obtain ⟨b, -, hb⟩ := List.mem_map.1 hj
    exact hij (List.cons.inj hb).1.symm

/-- The cells whose first subscript is the given one. -/
theorem cells_pinned (i : ℤ) (box : List (ℤ × ℤ)) : cells ((i, i) :: box) = (cells box).map (i :: ·) := by
  have hindices : indices (i, i) = [i] := by simp [indices, extent]
  rw [cells, hindices, List.flatMap_singleton]

theorem flatMap_cells_pinned (i : ℤ) (boxes : List (List (ℤ × ℤ))) :
    (boxes.map ((i, i) :: ·)).flatMap cells = (boxes.flatMap cells).map (i :: ·) := by
  rw [List.flatMap_map, List.map_flatMap]
  exact List.flatMap_congr fun box _ => cells_pinned i box

/-! ## Fronts of a box -/

theorem take_indices {k : ℕ} (hk : (k : ℤ) ≤ extent r) : (indices r).take k = indices (r.1, r.1 + k - 1) := by
  have hmin : min k (extent r).toNat = (extent (r.1, r.1 + k - 1)).toNat := by
    simp only [extent] at hk ⊢
    omega
  rw [indices, indices, ← List.map_take, List.take_range, hmin]

theorem drop_indices {k : ℕ} (hk : (k : ℤ) < extent r) :
    ∃ l, (indices r).drop k = (r.1 + k) :: l := by
  have hlength : k < (indices r).length := by
    rw [indices, List.length_map, List.length_range]
    omega
  have hget : (indices r)[k] = r.1 + k := by simp [indices]
  rw [List.drop_eq_getElem_cons hlength, hget]
  exact ⟨_, rfl⟩

/-- Whole rows, the first `k` of them. -/
theorem take_rows {k : ℕ} (hk : (k : ℤ) ≤ extent r) :
    (cells (r :: box)).take (k * (cells box).length) = cells ((r.1, r.1 + k - 1) :: box) := by
  have hrows : ∀ i ∈ indices r, ((cells box).map (i :: ·)).length = (cells box).length := fun i _ =>
    List.length_map _
  rw [← Nat.add_zero (k * _), cells, take_flatMap_of_length hrows, List.take_zero, List.append_nil, take_indices hk]
  rfl

/-- Whole rows, and a front of the next. -/
theorem take_rows_add {k n : ℕ} (hk : (k : ℤ) < extent r) (hn : n ≤ (cells box).length) :
    (cells (r :: box)).take (k * (cells box).length + n) =
      cells ((r.1, r.1 + k - 1) :: box) ++ ((cells box).take n).map ((r.1 + k) :: ·) := by
  have hrows : ∀ i ∈ indices r, ((cells box).map (i :: ·)).length = (cells box).length := fun i _ =>
    List.length_map _
  obtain ⟨l, hl⟩ := drop_indices hk
  rw [cells, take_flatMap_of_length hrows, take_indices hk.le, hl, List.flatMap_cons,
    List.take_append_of_le_length (by rwa [List.length_map]), List.map_take]
  rfl

/-- The cell with a number is in the row with the quotient, at the remainder. -/
theorem getElem?_cells {k m : ℕ} (hk : (k : ℤ) < extent r) (hm : m < (cells box).length) :
    (cells (r :: box))[k * (cells box).length + m]? = (cells box)[m]?.map ((r.1 + k) :: ·) := by
  have hextent : (extent (r.1, r.1 + k - 1)).toNat = k := by
    unfold extent
    omega
  have hrows : (cells ((r.1, r.1 + k - 1) :: box)).length = k * (cells box).length := by
    rw [length_cells_cons, hextent]
  have htake := take_rows_add hk (Nat.succ_le_of_lt hm)
  rw [← List.getElem?_take_of_lt (Nat.lt_succ_self _), ← Nat.add_succ, htake, ← hrows,
    List.getElem?_append_right (Nat.le_add_right _ _), Nat.add_sub_cancel_left, List.getElem?_map,
    List.getElem?_take_of_lt (Nat.lt_succ_self m)]

end FirebirdCore.RowMajor
