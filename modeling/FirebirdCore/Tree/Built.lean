import FirebirdCore.Tree.RemovePage

/-!
# Trees that are well built

A tree holds the items of its leaves, in the order of the row of leaves. A search goes down to the
last leaf whose key is not greater than the one that is searched.
-/
namespace FirebirdCore.Tree
open FirebirdCore.LowerBound FirebirdCore.LinkedRow BePlusTree

variable {V K : Type*} {C : Config V K} {t : BePlusTree V} {h : ℕ} {row : List ℕ}
  {rows : List (List ℕ)} {xs : List V}

/-! ## Going down -/

/-- The first and the last leaf are under the first and the last page of each row. -/
theorem Above.descend {nodeCount : ℕ} (hab : Above nodeCount t h row rows) :
    ∃ r, t.root = some r ∧ t.firstLeaf t.level r = t.firstLeaf h (row.getD 0 0) ∧
      t.lastLeaf t.level r = t.lastLeaf h (row.getD (row.length - 1) 0) := by
  induction rows generalizing h row with
  | nil =>
    obtain ⟨r, rfl, hroot, rfl, -⟩ := hab
    exact ⟨r, hroot, rfl, rfl⟩
  | cons row' rows ih =>
    obtain ⟨hlayer, hrows⟩ := hab
    obtain ⟨r, hroot, hfirst, hlast⟩ := ih hrows
    refine ⟨r, hroot, hfirst.trans ?_, hlast.trans ?_⟩
    · obtain ⟨i, row', rfl⟩ := List.exists_cons_of_ne_nil hlayer.ne_nil
      obtain ⟨y, l, hl⟩ := List.exists_cons_of_ne_nil (hlayer.sizes.full i List.mem_cons_self).1
      rw [firstLeaf, ← hlayer.nested.flat, List.flatMap_cons, List.getD_cons_zero, hl]
      rfl
    · obtain ⟨row', i, rfl⟩ := (List.eq_nil_or_concat' row').resolve_left hlayer.ne_nil
      obtain ⟨l, y, hl⟩ := (List.eq_nil_or_concat' ((t.page (h + 1)).children i)).resolve_left
        (hlayer.sizes.full i (List.mem_append_right _ List.mem_cons_self)).1
      rw [lastLeaf, ← hlayer.nested.flat, List.flatMap_append, List.flatMap_singleton, hl,
        ← List.append_assoc]
      simp only [List.length_append, List.length_singleton, Nat.add_sub_cancel, getD_concat]
      rw [hl, List.length_append, List.length_singleton, Nat.add_sub_cancel, getD_concat,
        ← List.length_append, getD_concat]

variable [LinearOrder K] {key : K}

/-- The items are in strict order of their keys. -/
def Sorted (C : Config V K) (xs : List V) : Prop := xs.Pairwise fun x y => C.key x < C.key y

/-- A tree with the leaves `row`, which holds the items `xs`. -/
structure Built (C : Config V K) (t : BePlusTree V) (row : List ℕ) (xs : List V) : Prop where
  leaves : Row (t.page 0) t.fresh row
  above : ∃ rows, Above C.nodeCount t 0 row rows
  items : row.flatMap t.items = xs
  sorted : Sorted C xs
  count : ∀ i ∈ row, (t.items i).length ≤ C.leafCount
  filled : t.level ≠ 0 → ∀ i ∈ row, t.items i ≠ []

/-- There is an item in each leaf, unless there is one leaf only. -/
theorem Built.leaf_ne_nil (hb : Built C t row xs) (hmany : 2 ≤ row.length) :
    ∀ i ∈ row, t.items i ≠ [] := by
  refine hb.filled fun hlevel => ?_
  obtain ⟨rows, habove⟩ := hb.above
  have hheight := habove.level
  rw [hlevel, Nat.zero_add] at hheight
  rw [List.length_eq_zero_iff.1 hheight.symm] at habove
  obtain ⟨r, rfl, -⟩ := habove
  exact absurd hmany (by simp)

variable [Inhabited V]

/-- The last page whose key is not greater, or the first one if there is none. -/
def Fits (C : Config V K) (t : BePlusTree V) (h : ℕ) (row : List ℕ) (key : K) (i : ℕ) : Prop :=
  ∃ a b, row = a ++ i :: b ∧ (a ≠ [] → t.generate C h i ≤ key) ∧ ∀ j ∈ b, key < t.generate C h j

/-- The children of pages with greater keys have greater keys. -/
theorem generate_children {b : List ℕ} (hordered : Ordered C t h (b.flatMap (t.page (h + 1)).children))
    (hgt : ∀ j ∈ b, key < t.generate C (h + 1) j) :
    ∀ j ∈ b.flatMap (t.page (h + 1)).children, key < t.generate C h j := by
  intro j hj
  obtain ⟨q, hq, hj⟩ := List.mem_flatMap.1 hj
  exact forall_lt_of_headI_lt (hordered.sublist (List.sublist_flatten_of_mem (List.mem_map_of_mem hq)))
    (hgt q hq) j hj

/-- The search goes on in a child that fits in the row below. -/
theorem Fits.child {row' : List ℕ} {list : ℕ} (hfits : Fits C t (h + 1) row' key list)
    (hlayer : Layer C.nodeCount t h row row') (hordered : Ordered C t h row) :
    let r := t.findNode C (h + 1) list key
    Fits C t h row key
      (((t.page (h + 1)).children list).getD (if ¬ r.1 ∧ r.2 > 0 then r.2 - 1 else r.2) 0) := by
  obtain ⟨a, b, rfl, hle, hgt⟩ := hfits
  have hmem : list ∈ a ++ list :: b := List.mem_append_right _ List.mem_cons_self
  have hrow := hlayer.nested.flat
  rw [List.flatMap_append, List.flatMap_cons] at hrow
  subst hrow
  obtain ⟨-, hrest, -⟩ := List.pairwise_append.1 hordered
  obtain ⟨hcs, hbehind, -⟩ := List.pairwise_append.1 hrest
  have hafter := generate_children hbehind hgt
  obtain ⟨front, back, hsplit, hfront, hback⟩ := exists_cut hcs key
  have hfind : t.findNode C (h + 1) list key =
      (back.head?.any fun x => t.generate C h x = key, front.length) := by
    rw [findNode, hlayer.nodeLevel list hmem, hsplit]
    exact findSorted_append hfront hback
  rw [hfind, hsplit]
  dsimp only
  rw [hsplit] at hcs
  by_cases hfound : ∃ y ∈ back.head?, t.generate C h y = key
  · obtain ⟨y, hy, hkey⟩ := hfound
    obtain ⟨back, rfl⟩ := List.head?_eq_some_iff.1 hy
    obtain ⟨-, hbehind, -⟩ := List.pairwise_append.1 hcs
    have hpos : ((y :: back).head?.any fun x => decide (t.generate C h x = key)) = true :=
      decide_eq_true hkey
    rw [if_neg (by rw [hpos]; exact fun h => h.1 rfl), getD_append_cons]
    refine ⟨a.flatMap (t.page (h + 1)).children ++ front, back ++ b.flatMap (t.page (h + 1)).children,
      by simp only [List.append_assoc, List.cons_append], fun _ => hkey.le, fun j hj => ?_⟩
    rcases List.mem_append.1 hj with hj | hj
    · rw [← hkey]
      exact (List.pairwise_cons.1 hbehind).1 j hj
    · exact hafter j hj
  have hpos : (back.head?.any fun x => decide (t.generate C h x = key)) = false := by
    rw [Option.any_eq_false]
    exact fun y hy => decide_eq_false fun hkey => hfound ⟨y, hy, hkey⟩
  have hgreater : ∀ j ∈ back ++ b.flatMap (t.page (h + 1)).children, key < t.generate C h j := by
    intro j hj
    rcases List.mem_append.1 hj with hj | hj
    · exact forall_lt_of_head_ne (List.pairwise_append.1 hcs).2.1 hback
        (fun y hy hkey => hfound ⟨y, hy, hkey⟩) j hj
    · exact hafter j hj
  rcases List.eq_nil_or_concat' front with rfl | ⟨front, y, rfl⟩
  · rw [if_neg (fun h => absurd h.2 (lt_irrefl 0))]
    obtain ⟨y, back, rfl⟩ : ∃ y l, back = y :: l := by
      have hne := (hlayer.sizes.full list hmem).1
      rw [hsplit] at hne
      exact List.exists_cons_of_ne_nil hne
    have ha : a = [] := by
      by_contra ha
      have hkey := hle ha
      rw [generate, hsplit] at hkey
      exact absurd (hgreater y List.mem_cons_self) (not_lt.2 hkey)
    subst ha
    exact ⟨[], back ++ b.flatMap (t.page (h + 1)).children, rfl, fun h => absurd rfl h,
      fun j hj => hgreater j (List.mem_cons_of_mem _ hj)⟩
  · have hlast : (front ++ [y]).length - 1 = front.length := by
      rw [List.length_append, List.length_singleton, Nat.add_sub_cancel]
    rw [if_pos (by rw [hpos]; simp), hlast, ← List.append_cons, getD_append_cons]
    exact ⟨a.flatMap (t.page (h + 1)).children ++ front, back ++ b.flatMap (t.page (h + 1)).children,
      by simp only [List.append_assoc, List.cons_append],
      fun _ => (hfront y (List.mem_append_right _ List.mem_cons_self)).le, hgreater⟩

theorem Above.findLeaf_fits (hab : Above C.nodeCount t h row rows) (hordered : Ordered C t h row)
    (key : K) : ∃ r i, t.root = some r ∧ t.findLeaf C key t.level r = t.findLeaf C key h i ∧
      Fits C t h row key i := by
  induction rows generalizing h row with
  | nil =>
    obtain ⟨r, rfl, hroot, rfl, -⟩ := hab
    exact ⟨r, r, hroot, rfl, [], [], rfl, fun h => absurd rfl h, fun _ h => absurd h List.not_mem_nil⟩
  | cons row' rows ih =>
    obtain ⟨hlayer, hrows⟩ := hab
    have hup := Ordered.up (C := C) (hlayer.nested.flat.symm ▸ hordered) fun i hi =>
      (hlayer.sizes.full i hi).1
    obtain ⟨r, list, hroot, hfind, hfits⟩ := ih hrows hup
    exact ⟨r, _, hroot, hfind, hfits.child hlayer hordered⟩

/-! ## Leaves -/

theorem Built.ordered (hb : Built C t row xs) : Ordered C t 0 row := by
  match row, hb with
  | [], _ => exact List.Pairwise.nil
  | [_], _ => exact List.pairwise_singleton ..
  | i :: j :: row, hb =>
    have hsorted := hb.sorted
    rw [Sorted, ← hb.items] at hsorted
    exact pairwise_heads hsorted (hb.leaf_ne_nil (by simp))

/-- The place of a key: the items of the leaf `p` are cut by it, and all the other items are. -/
structure Place (C : Config V K) (t : BePlusTree V) (row : List ℕ) (key : K) (p : ℕ)
    (front back : List ℕ) (lo up : List V) : Prop where
  row : row = front ++ p :: back
  items : t.items p = lo ++ up
  less : ∀ x ∈ front.flatMap t.items ++ lo, C.key x < key
  notLess : ∀ x ∈ up, key ≤ C.key x
  back : ∀ x ∈ back.flatMap t.items, key < C.key x
  find : t.findItem C p key = (up.head?.any fun x => C.key x = key, lo.length)

/-- The search comes to the place of the key. -/
theorem Built.place (hb : Built C t row xs) (key : K) :
    ∃ r p front back lo up, t.root = some r ∧ t.findLeaf C key t.level r = p ∧
      Place C t row key p front back lo up := by
  obtain ⟨rows, habove⟩ := hb.above
  obtain ⟨r, p, hroot, hfind, front, back, hrow, hle, hgt⟩ := habove.findLeaf_fits hb.ordered key
  have hsorted := hb.sorted
  rw [Sorted, ← hb.items, hrow, List.flatMap_append, List.flatMap_cons] at hsorted
  obtain ⟨-, hrest, hacross⟩ := List.pairwise_append.1 hsorted
  obtain ⟨hp, hbehind, -⟩ := List.pairwise_append.1 hrest
  have hfilled := hb.leaf_ne_nil
  rw [hrow] at hfilled
  obtain ⟨lo, up, hitems, hlo, hup⟩ := exists_cut hp key
  refine ⟨r, p, front, back, lo, up, hroot, hfind, hrow, hitems, fun x hx => ?_, hup, fun x hx => ?_, ?_⟩
  · rcases List.mem_append.1 hx with hx | hx
    · have hfront : front ≠ [] := by
        rintro rfl
        exact List.not_mem_nil hx
      have hne := hfilled (by
        have hpos := List.length_pos_iff.2 hfront
        rw [List.length_append, List.length_cons]
        omega) p (List.mem_append_right _ List.mem_cons_self)
      exact (hacross x hx _ (List.mem_append_left _ (headI_mem hne))).trans_le (hle hfront)
    · exact hlo x hx
  · obtain ⟨j, hj, hx⟩ := List.mem_flatMap.1 hx
    exact forall_lt_of_headI_lt (hbehind.sublist (List.sublist_flatten_of_mem (List.mem_map_of_mem hj)))
      (hgt j hj) x hx
  · rw [findItem, hitems]
    exact findSorted_append hlo hup

end FirebirdCore.Tree
