import Mathlib.Order.Defs.LinearOrder
import Mathlib.Data.List.Basic
import Mathlib.Tactic

/-!
# Binary search for a lower bound

`lowerBound` halves an interval of positions, the first of which have a property that the later ones
lack. `findSorted` searches a list that is in order of its keys.
-/
namespace FirebirdCore.LowerBound

/-- The first position from `low` on that is `high` or has not the property. -/
def lowerBound (p : ℕ → Bool) : ℕ → ℕ → ℕ → ℕ
  | 0, low, _ => low
  | fuel + 1, low, high =>
      if high > low then
        let temp := (high + low) >>> 1
        if p temp then lowerBound p fuel (temp + 1) high else lowerBound p fuel low temp
      else low

theorem lowerBound_eq {p : ℕ → Bool} {k n : ℕ} (hlt : ∀ i < k, p i = true)
    (hge : ∀ i, k ≤ i → i < n → p i = false) {fuel low high : ℕ} (hlow : low ≤ k) (hhigh : k ≤ high)
    (hn : high ≤ n) (hfuel : high ≤ low + fuel) : lowerBound p fuel low high = k := by
  induction fuel generalizing low high with
  | zero =>
    rw [lowerBound]
    omega
  | succ fuel ih =>
    rw [lowerBound]
    by_cases hmore : high > low
    · have htemp : (high + low) >>> 1 = (high + low) / 2 := by
        rw [Nat.shiftRight_one]
      rw [if_pos hmore]
      dsimp only
      rw [htemp]
      by_cases hk : (high + low) / 2 < k
      · rw [if_pos (hlt _ hk)]
        exact ih (by omega) hhigh hn (by omega)
      · rw [if_neg (by rw [hge _ (by omega) (by omega)]; exact Bool.false_ne_true)]
        exact ih hlow (by omega) (by omega) (by omega)
    · rw [if_neg hmore]
      omega

variable {α κ : Type*} [LinearOrder κ]

/-- A list in order of its keys is cut by a key. -/
theorem exists_cut {gen : α → κ} {xs : List α} (hsorted : xs.Pairwise fun x y => gen x < gen y)
    (key : κ) : ∃ front back, xs = front ++ back ∧ (∀ x ∈ front, gen x < key) ∧
      ∀ x ∈ back, key ≤ gen x := by
  induction xs with
  | nil => exact ⟨[], [], rfl, fun _ h => absurd h List.not_mem_nil, fun _ h => absurd h List.not_mem_nil⟩
  | cons x xs ih =>
    obtain ⟨hx, hxs⟩ := List.pairwise_cons.1 hsorted
    by_cases hkey : gen x < key
    · obtain ⟨front, back, rfl, hfront, hback⟩ := ih hxs
      exact ⟨x :: front, back, rfl, List.forall_mem_cons.2 ⟨hkey, hfront⟩, hback⟩
    · refine ⟨[], x :: xs, rfl, fun _ h => absurd h List.not_mem_nil, List.forall_mem_cons.2 ?_⟩
      exact ⟨not_lt.1 hkey, fun y hy => (not_lt.1 hkey).trans (hx y hy).le⟩

/-- A list whose first key is greater has greater keys only. -/
theorem forall_lt_of_headI_lt [Inhabited α] {gen : α → κ} {xs : List α} {key : κ}
    (hsorted : xs.Pairwise fun x y => gen x < gen y) (hhead : key < gen xs.headI) :
    ∀ x ∈ xs, key < gen x := by
  cases xs with
  | nil => exact fun _ h => absurd h List.not_mem_nil
  | cons y xs =>
    exact List.forall_mem_cons.2 ⟨hhead, fun x hx => hhead.trans ((List.pairwise_cons.1 hsorted).1 x hx)⟩

/-- If the first key behind the cut is another one, the keys behind the cut are greater. -/
theorem forall_lt_of_head_ne {gen : α → κ} {back : List α} {key : κ}
    (hsorted : back.Pairwise fun x y => gen x < gen y) (hback : ∀ x ∈ back, key ≤ gen x)
    (hhead : ∀ x ∈ back.head?, gen x ≠ key) : ∀ x ∈ back, key < gen x := by
  cases back with
  | nil => exact fun _ h => absurd h List.not_mem_nil
  | cons y back =>
    have hy := lt_of_le_of_ne (hback y List.mem_cons_self) (hhead y rfl).symm
    exact List.forall_mem_cons.2 ⟨hy, fun x hx => hy.trans ((List.pairwise_cons.1 hsorted).1 x hx)⟩

/-- The position of the first member whose key is not smaller, and whether its key is the one that is
searched. -/
def findSorted (gen : α → κ) (xs : List α) (key : κ) : Bool × ℕ :=
  let pos := lowerBound (fun i => xs[i]?.any fun x => gen x < key) (xs.length + 1) 0 xs.length
  (xs[pos]?.any fun x => ¬ key < gen x, pos)

/-- The search cuts the list in front of the first key that is not smaller. -/
theorem findSorted_append {gen : α → κ} {front back : List α} {key : κ}
    (hfront : ∀ x ∈ front, gen x < key) (hback : ∀ x ∈ back, key ≤ gen x) :
    findSorted gen (front ++ back) key = (back.head?.any fun x => gen x = key, front.length) := by
  have hpos : lowerBound (fun i => (front ++ back)[i]?.any fun x => gen x < key)
      ((front ++ back).length + 1) 0 (front ++ back).length = front.length := by
    refine lowerBound_eq (n := (front ++ back).length) (fun i hi => ?_) (fun i hi hn => ?_)
      (Nat.zero_le _) ?_ le_rfl (by omega)
    · rw [List.getElem?_append_left hi, List.getElem?_eq_getElem hi]
      simpa using hfront _ (List.getElem_mem hi)
    · rw [List.length_append] at hn
      rw [List.getElem?_append_right hi, List.getElem?_eq_getElem (by omega)]
      simpa using hback _ (List.getElem_mem _)
    · rw [List.length_append]
      exact Nat.le_add_right ..
  rw [findSorted, hpos, List.getElem?_append_right le_rfl, Nat.sub_self, ← List.head?_eq_getElem?]
  congr 1
  cases back with
  | nil => rfl
  | cons y back =>
    have hy := hback y List.mem_cons_self
    simp only [List.head?_cons, Option.any_some, decide_eq_decide, not_lt]
    exact ⟨fun h => le_antisymm h hy, fun h => h.le⟩

/-- The member with the same key is replaced. If there is none, `x` comes where its key belongs. -/
def putSorted (gen : α → κ) (x : α) (xs : List α) : List α :=
  let (found, pos) := findSorted gen xs (gen x)
  if found then xs.set pos x else xs.take pos ++ x :: xs.drop pos

theorem putSorted_eq {gen : α → κ} {xs : List α} (hsorted : xs.Pairwise fun x y => gen x < gen y)
    (x : α) : ∃ front rest, putSorted gen x xs = front ++ x :: rest ∧ (front ++ rest).Sublist xs ∧
      (∀ y ∈ front, gen y < gen x) ∧ ∀ y ∈ rest, gen x < gen y := by
  obtain ⟨front, back, rfl, hfront, hback⟩ := exists_cut hsorted (gen x)
  have hsorted' := (List.pairwise_append.1 hsorted).2.1
  rw [putSorted, findSorted_append hfront hback]
  dsimp only
  cases back with
  | nil =>
    refine ⟨front, [], ?_, List.Sublist.refl _, hfront, fun _ h => absurd h List.not_mem_nil⟩
    rw [List.head?_nil, Option.any_none, if_neg Bool.false_ne_true, List.append_nil,
      List.take_length, List.drop_length]
  | cons y back =>
    obtain ⟨hy, -⟩ := List.pairwise_cons.1 hsorted'
    by_cases heq : gen y = gen x
    · refine ⟨front, back, ?_, List.Sublist.append_left (List.sublist_cons_self ..) _, hfront, heq ▸ hy⟩
      rw [List.head?_cons, Option.any_some, decide_eq_true heq, if_pos rfl,
        List.set_append_right _ _ le_rfl, Nat.sub_self, List.set_cons_zero]
    · have hlt : ∀ z ∈ y :: back, gen x < gen z :=
        forall_lt_of_head_ne hsorted' hback fun z hz => by cases hz; exact heq
      refine ⟨front, y :: back, ?_, List.Sublist.refl _, hfront, hlt⟩
      rw [List.head?_cons, Option.any_some, decide_eq_false heq, if_neg Bool.false_ne_true,
        List.take_left, List.drop_left]

theorem putSorted_sorted {gen : α → κ} {xs : List α}
    (hsorted : xs.Pairwise fun x y => gen x < gen y) (x : α) :
    (putSorted gen x xs).Pairwise fun x y => gen x < gen y := by
  obtain ⟨front, rest, heq, hsub, hfront, hrest⟩ := putSorted_eq hsorted x
  obtain ⟨hf, hr, hfr⟩ := List.pairwise_append.1 (hsorted.sublist hsub)
  rw [heq]
  refine List.pairwise_append.2 ⟨hf, List.pairwise_cons.2 ⟨hrest, hr⟩, fun y hy => ?_⟩
  exact List.forall_mem_cons.2 ⟨hfront y hy, hfr y hy⟩

theorem mem_of_mem_putSorted {gen : α → κ} {xs : List α}
    (hsorted : xs.Pairwise fun x y => gen x < gen y) {x y : α} (hy : y ∈ putSorted gen x xs) :
    y = x ∨ y ∈ xs := by
  obtain ⟨front, rest, heq, hsub, -⟩ := putSorted_eq hsorted x
  rw [heq, List.mem_append, List.mem_cons] at hy
  rcases hy with hy | rfl | hy
  · exact .inr (hsub.subset (List.mem_append_left _ hy))
  · exact .inl rfl
  · exact .inr (hsub.subset (List.mem_append_right _ hy))

/-- What is put comes in the place of a member with its key and leaves the other members. -/
theorem mem_putSorted {gen : α → κ} {xs : List α} (hsorted : xs.Pairwise fun x y => gen x < gen y)
    {x y : α} : y ∈ putSorted gen x xs ↔ y = x ∨ y ∈ xs ∧ gen y ≠ gen x := by
  obtain ⟨front, back, rfl, hfront, hback⟩ := exists_cut hsorted (gen x)
  have hsorted' := (List.pairwise_append.1 hsorted).2.1
  have hne : ∀ z ∈ front, gen z ≠ gen x := fun z hz => (hfront z hz).ne
  rw [putSorted, findSorted_append hfront hback]
  dsimp only
  cases back with
  | nil =>
    simp only [List.head?_nil, Option.any_none, Bool.false_eq_true, if_false, List.append_nil,
      List.take_length, List.drop_length, List.mem_append, List.mem_singleton]
    have := hne y
    tauto
  | cons z back =>
    obtain ⟨hz, -⟩ := List.pairwise_cons.1 hsorted'
    by_cases heq : gen z = gen x
    · have hback' : ∀ w ∈ back, gen w ≠ gen x := fun w hw => (heq ▸ hz w hw).ne'
      simp only [List.head?_cons, Option.any_some, heq, decide_true, if_true,
        List.set_append_right _ _ le_rfl, Nat.sub_self, List.set_cons_zero, List.mem_append,
        List.mem_cons]
      have := hne y
      have := hback' y
      grind
    · have hlt : ∀ w ∈ z :: back, gen x < gen w :=
        forall_lt_of_head_ne hsorted' hback fun w hw => by cases hw; exact heq
      simp only [List.head?_cons, Option.any_some, heq, decide_false, Bool.false_eq_true, if_false,
        List.take_left, List.drop_left, List.mem_append, List.mem_cons]
      have := hne y
      have := fun hy => (hlt y hy).ne'
      grind

theorem putSorted_replace {gen : α → κ} {front back : List α} {x y : α}
    (hsorted : (front ++ x :: back).Pairwise fun x y => gen x < gen y) (hkey : gen y = gen x) :
    putSorted gen y (front ++ x :: back) = front ++ y :: back := by
  obtain ⟨-, hback, hfront⟩ := List.pairwise_append.1 hsorted
  have hlt : ∀ z ∈ front, gen z < gen y := fun z hz => hkey ▸ hfront z hz x List.mem_cons_self
  have hle : ∀ z ∈ x :: back, gen y ≤ gen z :=
    List.forall_mem_cons.2 ⟨hkey.le, fun z hz => hkey ▸ ((List.pairwise_cons.1 hback).1 z hz).le⟩
  unfold putSorted
  rw [findSorted_append hlt hle]
  simp [hkey]

/-! ## The member with a key -/

/-- The member with the key. -/
def lookup (gen : α → κ) (xs : List α) (key : κ) : Option α := xs.find? fun x => gen x = key

theorem lookup_eq_some_iff {gen : α → κ} {xs : List α}
    (hsorted : xs.Pairwise fun x y => gen x < gen y) {key : κ} {x : α} :
    lookup gen xs key = some x ↔ x ∈ xs ∧ gen x = key := by
  unfold lookup
  induction xs with
  | nil => simp
  | cons y xs ih =>
    obtain ⟨hy, hxs⟩ := List.pairwise_cons.1 hsorted
    by_cases hkey : gen y = key
    · have hmem : x ∈ xs → gen x ≠ key := fun hx => hkey ▸ (hy x hx).ne'
      rw [List.find?_cons_of_pos (by simpa using hkey)]
      grind
    · rw [List.find?_cons_of_neg (by simpa using hkey), ih hxs]
      grind

theorem lookup_eq_none_iff {gen : α → κ} {xs : List α} {key : κ} :
    lookup gen xs key = none ↔ ∀ x ∈ xs, gen x ≠ key := by
  simp [lookup]

theorem lookup_putSorted {gen : α → κ} {xs : List α}
    (hsorted : xs.Pairwise fun x y => gen x < gen y) (x : α) (key : κ) :
    lookup gen (putSorted gen x xs) key = if gen x = key then some x else lookup gen xs key := by
  ext y
  split_ifs with hkey
  · rw [lookup_eq_some_iff (putSorted_sorted hsorted x), mem_putSorted hsorted]
    grind
  · rw [lookup_eq_some_iff (putSorted_sorted hsorted x), lookup_eq_some_iff hsorted,
      mem_putSorted hsorted]
    grind

theorem lookup_filter {gen : α → κ} {xs : List α} (hsorted : xs.Pairwise fun x y => gen x < gen y)
    (p : α → Bool) (key : κ) : lookup gen (xs.filter p) key = (lookup gen xs key).filter p := by
  ext y
  rw [lookup_eq_some_iff (hsorted.filter p), Option.filter_eq_some_iff, lookup_eq_some_iff hsorted,
    List.mem_filter]
  tauto

/-- The search finds the member with the key. -/
theorem findSorted_fst {gen : α → κ} {xs : List α} (hsorted : xs.Pairwise fun x y => gen x < gen y)
    (key : κ) : (findSorted gen xs key).1 = (lookup gen xs key).isSome := by
  obtain ⟨front, back, rfl, hfront, hback⟩ := exists_cut hsorted key
  have hmiss : lookup gen front key = none := lookup_eq_none_iff.2 fun x hx => (hfront x hx).ne
  rw [findSorted_append hfront hback, lookup, List.find?_append]
  rw [lookup] at hmiss
  rw [hmiss, Option.none_or]
  cases back with
  | nil => rfl
  | cons y back =>
    by_cases heq : gen y = key
    · simp [heq]
    · have hlt := forall_lt_of_head_ne (List.pairwise_append.1 hsorted).2.1 hback
        fun z hz => by cases hz; exact heq
      simp only [List.head?_cons, Option.any_some, heq, decide_false]
      symm
      rw [Option.isSome_eq_false_iff, Option.isNone_iff_eq_none, List.find?_eq_none]
      intro x hx
      simpa using (hlt x hx).ne'

theorem getElem?_findSorted {gen : α → κ} {xs : List α}
    (hsorted : xs.Pairwise fun x y => gen x < gen y) {key : κ} {x : α}
    (hx : lookup gen xs key = some x) : xs[(findSorted gen xs key).2]? = some x := by
  have hfound := findSorted_fst hsorted key
  rw [hx, Option.isSome_some] at hfound
  obtain ⟨hmem, hkey⟩ := (lookup_eq_some_iff hsorted).1 hx
  obtain ⟨front, back, rfl, hfront, hback⟩ := exists_cut hsorted key
  rw [findSorted_append hfront hback] at hfound ⊢
  cases back with
  | nil => simp at hfound
  | cons y back =>
    have hy : gen y = key := by simpa using hfound
    have hlook := (lookup_eq_some_iff hsorted).2
      ⟨List.mem_append_right front (List.mem_cons_self : y ∈ y :: back), hy⟩
    rw [hx] at hlook
    cases hlook
    simp

/-- To remove the member that is found leaves those with other keys. -/
theorem eraseIdx_findSorted {gen : α → κ} {xs : List α}
    (hsorted : xs.Pairwise fun x y => gen x < gen y) {key : κ}
    (hfound : (findSorted gen xs key).1) :
    xs.eraseIdx (findSorted gen xs key).2 = xs.filter fun x => gen x ≠ key := by
  obtain ⟨front, back, rfl, hfront, hback⟩ := exists_cut hsorted key
  rw [findSorted_append hfront hback] at hfound ⊢
  cases back with
  | nil => simp at hfound
  | cons y back =>
    have hy : gen y = key := by simpa using hfound
    have hlt := (List.pairwise_cons.1 (List.pairwise_append.1 hsorted).2.1).1
    have hkept : ∀ x ∈ front ++ back, gen x ≠ key := by
      intro x hx
      obtain hx | hx := List.mem_append.1 hx
      · exact (hfront x hx).ne
      · exact (hy ▸ hlt x hx).ne'
    rw [List.eraseIdx_append_of_length_le le_rfl, Nat.sub_self, List.eraseIdx_cons_zero,
      List.filter_append, List.filter_cons_of_neg (by simpa using hy), ← List.filter_append,
      List.filter_eq_self.2 (by simpa using hkept)]

/-- The search parts the list at the key. -/
theorem findSorted_parts {gen : α → κ} {xs : List α}
    (hsorted : xs.Pairwise fun x y => gen x < gen y) (key : κ) :
    (∀ x ∈ xs.take (findSorted gen xs key).2, gen x < key) ∧
      ∀ x ∈ xs.drop (findSorted gen xs key).2, key ≤ gen x := by
  obtain ⟨front, back, rfl, hfront, hback⟩ := exists_cut hsorted key
  rw [findSorted_append hfront hback]
  simpa using ⟨hfront, hback⟩

end FirebirdCore.LowerBound
