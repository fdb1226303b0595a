import Mathlib.Data.List.Basic
import Mathlib.Tactic

/-!
# Paged lists

A list in rows of the same size. The row and the column of an element are the quotient and the
remainder of its index. The last row may have room.
-/
namespace FirebirdCore.Lib.Paged

variable {α : Type*} {size : ℕ} {rows : List (List α)} {l row : List α} {a : α}

/-- What is at an index. -/
def get? (size : ℕ) (rows : List (List α)) (i : ℕ) : Option α :=
  rows[i / size]?.bind fun row => row[i % size]?

/-- The list is what is at the indices. -/
def Holds (size : ℕ) (rows : List (List α)) (l : List α) : Prop :=
  ∀ i (hi : i < l.length), get? size rows i = some l[i]

theorem Holds.get? (h : Holds size rows l) {i : ℕ} (hi : i < l.length) :
    Paged.get? size rows i = l[i]? := by
  rw [h i hi, List.getElem?_eq_getElem hi]

/-- One row holds a list that is no longer than it. -/
theorem holds_singleton (hstart : l <+: row) (hsize : l.length ≤ size) : Holds size [row] l := by
  intro i hi
  obtain ⟨back, rfl⟩ := hstart
  have hlt : i < size := hi.trans_le hsize
  unfold Paged.get?
  rw [Nat.div_eq_of_lt hlt, Nat.mod_eq_of_lt hlt, List.getElem?_cons_zero, Option.bind_some,
    List.getElem?_append_left hi, List.getElem?_eq_getElem hi]

theorem Holds.append (h : Holds size rows l) {rows' : List (List α)}
    (hold : ∀ i < l.length, Paged.get? size rows' i = Paged.get? size rows i)
    (hnew : Paged.get? size rows' l.length = some a) : Holds size rows' (l ++ [a]) := by
  intro i hi
  rw [List.length_append, List.length_singleton] at hi
  by_cases hlast : i = l.length
  · subst hlast
    rw [hnew]
    simp
  · have hlt : i < l.length := by omega
    rw [hold i hlt, h i hlt, List.getElem_append_left hlt]

/-- Setting the next column of a row appends to the list. -/
theorem Holds.set_append (h : Holds size rows l) (hpos : 0 < size)
    (hrow : rows[l.length / size]? = some row) (hlength : row.length = size) :
    Holds size (rows.set (l.length / size) (row.set (l.length % size) a)) (l ++ [a]) := by
  have hmod : l.length % size < size := Nat.mod_lt _ hpos
  obtain ⟨hrows, hget⟩ := List.getElem?_eq_some_iff.1 hrow
  refine h.append (fun i hi => ?_) ?_
  · unfold Paged.get?
    rw [List.getElem?_set]
    by_cases heq : l.length / size = i / size
    · -- in the same row, another column
      have hne : l.length % size ≠ i % size := by
        intro hmods
        have hl := Nat.div_add_mod l.length size
        have hi' := Nat.div_add_mod i size
        rw [heq, hmods] at hl
        omega
      rw [if_pos heq, if_pos hrows, ← heq, hrow, Option.bind_some, Option.bind_some,
        List.getElem?_set_ne hne]
    · rw [if_neg heq]
  · unfold Paged.get?
    rw [List.getElem?_set_self hrows, Option.bind_some, List.getElem?_set_self (by omega)]

/-- A further row begins where the other rows are full. -/
theorem Holds.new_row (h : Holds size rows l) (hpos : 0 < size) (hfull : l.length = rows.length * size)
    (hrow : row[0]? = some a) : Holds size (rows ++ [row]) (l ++ [a]) := by
  refine h.append (fun i hi => ?_) ?_
  · have hlt : i / size < rows.length := by
      rw [Nat.div_lt_iff_lt_mul hpos, ← hfull]
      exact hi
    unfold Paged.get?
    rw [List.getElem?_append_left hlt]
  · unfold Paged.get?
    rw [hfull, Nat.mul_div_cancel _ hpos, Nat.mul_mod_left, List.getElem?_concat_length, Option.bind_some]
    exact hrow

end FirebirdCore.Lib.Paged
