import FirebirdCore.Lib.KeyOrder
import Mathlib.Data.List.TakeWhile

/-!
# Words cut into blocks

`parts xs ys` are what is left of two lists behind their longest common front. For words that are
cut into blocks of one size, only the last of which may be shorter, the words part in the block in
which the lists of blocks do. Where the blocks carry numbers that do not rise, the fronts with
numbers above a bound agree if and only if neither list goes on with such a number.
-/
namespace FirebirdCore.Blocks
open FirebirdCore.KeyOrder

variable {α β : Type*}

/-- What follows the longest common front. -/
def parts [DecidableEq β] : List β → List β → List β × List β
  | x :: xs, y :: ys => if x = y then parts xs ys else (x :: xs, y :: ys)
  | xs, ys => (xs, ys)

/-- The lists go on differently, or both end. -/
def Part (a b : List β) : Prop := a.head? ≠ b.head? ∨ a = [] ∧ b = []

theorem parts_append [DecidableEq β] (xs ys : List β) :
    ∃ c, xs = c ++ (parts xs ys).1 ∧ ys = c ++ (parts xs ys).2 ∧
      Part (parts xs ys).1 (parts xs ys).2 := by
  induction xs generalizing ys with
  | nil =>
    cases ys with
    | nil => exact ⟨[], rfl, rfl, .inr ⟨rfl, rfl⟩⟩
    | cons y ys => exact ⟨[], rfl, rfl, .inl (by simp [parts])⟩
  | cons x xs ih =>
    cases ys with
    | nil => exact ⟨[], rfl, rfl, .inl (by simp [parts])⟩
    | cons y ys =>
      by_cases h : x = y
      · obtain ⟨c, hx, hy, hp⟩ := ih ys
        subst h
        rw [parts, if_pos rfl]
        exact ⟨x :: c, by rw [List.cons_append, ← hx], by rw [List.cons_append, ← hy], hp⟩
      · rw [parts, if_neg h]
        exact ⟨[], rfl, rfl, .inl (by simpa using h)⟩

/-! ## Numbered blocks -/

/-- The number a list goes on with. -/
def headNumber (num : β → ℕ) (a : List β) : ℕ := (a.head?.map num).getD 0

@[simp] theorem headNumber_nil (num : β → ℕ) : headNumber num [] = 0 := rfl

@[simp] theorem headNumber_cons (num : β → ℕ) (x : β) (a : List β) :
    headNumber num (x :: a) = num x := rfl

/-- The numbers do not rise. -/
def Falling (num : β → ℕ) (xs : List β) : Prop := xs.Pairwise fun x y => num y ≤ num x

theorem takeWhile_of_headNumber_le {num : β → ℕ} {a : List β} {k : ℕ} (h : headNumber num a ≤ k) :
    a.takeWhile (k < num ·) = [] := by
  cases a with
  | nil => rfl
  | cons x a => exact List.takeWhile_cons_of_neg (by simpa using h)

/-- Where a list goes on above the bound, so does all that is before it. -/
theorem takeWhile_of_lt_headNumber {num : β → ℕ} {c a : List β} {k : ℕ}
    (hf : Falling num (c ++ a)) (h : k < headNumber num a) :
    (c ++ a).takeWhile (k < num ·) = c ++ a.takeWhile (k < num ·) := by
  apply List.takeWhile_append_of_pos
  intro x hx
  cases a with
  | nil => simp at h
  | cons y a =>
    have hxy := (List.pairwise_append.1 hf).2.2 x hx y (by simp)
    have hy : k < num y := h
    exact decide_eq_true (hy.trans_le hxy)

/-- What is taken from a common front only depends on the front when it goes no further. -/
theorem takeWhile_append_congr {p : β → Bool} {a b : List β} (c : List β)
    (h : a.takeWhile p = b.takeWhile p) : (c ++ a).takeWhile p = (c ++ b).takeWhile p := by
  rw [List.takeWhile_append, List.takeWhile_append, h]

theorem takeWhile_eq_iff {num : β → ℕ} {c a b : List β} {k : ℕ} (hp : Part a b)
    (ha : Falling num (c ++ a)) (hb : Falling num (c ++ b)) :
    (c ++ a).takeWhile (k < num ·) = (c ++ b).takeWhile (k < num ·) ↔
      max (headNumber num a) (headNumber num b) ≤ k := by
  rw [max_le_iff]
  constructor
  · intro h
    -- a list that goes on above the bound makes the other one start with the same block
    have above : ∀ {a b : List β}, Part a b → Falling num (c ++ a) → Falling num (c ++ b) →
        (c ++ a).takeWhile (k < num ·) = (c ++ b).takeWhile (k < num ·) →
          headNumber num a ≤ k := by
      intro a b hp ha hb h
      by_contra hk
      rw [not_le] at hk
      cases a with
      | nil => simp at hk
      | cons x a =>
        have hx : (x :: a).takeWhile (k < num ·) = x :: a.takeWhile (k < num ·) :=
          List.takeWhile_cons_of_pos (decide_eq_true hk)
        rw [takeWhile_of_lt_headNumber ha hk, hx] at h
        have hb' : (c ++ b).takeWhile (k < num ·) = c ++ b.takeWhile (k < num ·) := by
          apply List.takeWhile_append_of_pos
          intro z hz
          have hmem : z ∈ (c ++ b).takeWhile (k < num ·) := by
            rw [← h]
            simp [hz]
          have habove := List.mem_takeWhile_imp hmem
          exact habove
        rw [hb', List.append_cancel_left_eq] at h
        cases b with
        | nil => simp at h
        | cons y b =>
          by_cases hy : k < num y
          · simp only [List.takeWhile_cons, hy, decide_true, if_true] at h
            rcases hp with hp | hp
            · exact hp (congrArg some (List.cons.inj h).1)
            · simp at hp
          · simp [hy] at h
    have hp' : Part b a := hp.imp Ne.symm And.symm
    exact ⟨above hp ha hb h, above hp' hb ha h.symm⟩
  · rintro ⟨h₁, h₂⟩
    apply takeWhile_append_congr
    rw [takeWhile_of_headNumber_le h₁, takeWhile_of_headNumber_le h₂]

/-- The numbers fall one by one, down to one. -/
def Dense (num : β → ℕ) : List β → Prop
  | [] => True
  | x :: xs => (headNumber num xs = num x ∨ headNumber num xs + 1 = num x) ∧ Dense num xs

@[simp] theorem dense_cons {num : β → ℕ} {x : β} {xs : List β} : Dense num (x :: xs) ↔
    (headNumber num xs = num x ∨ headNumber num xs + 1 = num x) ∧ Dense num xs := Iff.rfl

theorem Dense.of_append {num : β → ℕ} {c a : List β} (h : Dense num (c ++ a)) : Dense num a := by
  induction c with
  | nil => exact h
  | cons x c ih => exact ih h.2

theorem dense_append {num : β → ℕ} {c a : List β} {m : ℕ} (hc : ∀ x ∈ c, num x = m)
    (hm : headNumber num a = m ∨ headNumber num a + 1 = m) (ha : Dense num a) :
    Dense num (c ++ a) := by
  induction c with
  | nil => exact ha
  | cons x c ih =>
    have hx : num x = m := hc x (by simp)
    have htail : ∀ y ∈ c, num y = m := fun y hy => hc y (by simp [hy])
    rw [List.cons_append, dense_cons]
    constructor
    · cases c with
      | nil => simpa [hx] using hm
      | cons y c =>
        left
        rw [List.cons_append, headNumber_cons, htail y (by simp), hx]
    · exact ih htail

/-- Behind a common block, dense lists that go on with different numbers do so with the number of
that block and the one below. -/
theorem Dense.max_eq {num : β → ℕ} {c a b : List β} {x : β} (ha : Dense num (c ++ [x] ++ a))
    (hb : Dense num (c ++ [x] ++ b)) (hne : headNumber num a ≠ headNumber num b) :
    max (headNumber num a) (headNumber num b) = num x := by
  rw [List.append_assoc, List.singleton_append] at ha hb
  have h₁ := (dense_cons.1 ha.of_append).1
  have h₂ := (dense_cons.1 hb.of_append).1
  omega

/-! ## Blocks of letters -/

/-- Blocks of `size` letters; the last one may be shorter, but has at least two. -/
structure Cut (size : ℕ) (gs : List (List α)) : Prop where
  two_le : ∀ g ∈ gs, 2 ≤ g.length
  le_size : ∀ g ∈ gs, g.length ≤ size
  full : ∀ g ∈ gs.dropLast, g.length = size

theorem Cut.of_append {size : ℕ} {c a : List (List α)} (h : Cut size (c ++ a)) : Cut size a where
  two_le g hg := h.two_le g (by simp [hg])
  le_size g hg := h.le_size g (by simp [hg])
  full g hg := by
    have ha : a ≠ [] := by
      rintro rfl
      simp at hg
    apply h.full
    rw [List.dropLast_append_of_ne_nil ha]
    simp [hg]

theorem Cut.full_of_append {size : ℕ} {c a : List (List α)} (h : Cut size (c ++ a)) (ha : a ≠ []) :
    ∀ g ∈ c, g.length = size := by
  intro g hg
  apply h.full
  rw [List.dropLast_append_of_ne_nil ha]
  simp [hg]

theorem length_flatten_of_full {size : ℕ} {c : List (List α)} (h : ∀ g ∈ c, g.length = size) :
    c.flatten.length = size * c.length := by
  induction c with
  | nil => simp
  | cons g c ih =>
    rw [List.flatten_cons, List.length_append, h g (by simp), ih fun x hx => h x (by simp [hx]),
      List.length_cons]
    ring

theorem Cut.ne_nil {size : ℕ} {gs : List (List α)} (h : Cut size gs) : ∀ g ∈ gs, g ≠ [] := by
  intro g hg hnil
  have := h.two_le g hg
  simp [hnil] at this

theorem Cut.flatten_eq_nil_iff {size : ℕ} {gs : List (List α)} (h : Cut size gs) :
    gs.flatten = [] ↔ gs = [] := by
  constructor
  · intro hf
    cases gs with
    | nil => rfl
    | cons g gs =>
      rw [List.flatten_cons, List.append_eq_nil_iff] at hf
      exact absurd hf.1 (h.ne_nil g (by simp))
  · rintro rfl
    rfl

/-- A block that is not full is the last one. -/
theorem Cut.take_flatten {size : ℕ} {g : List α} {gs : List (List α)} (h : Cut size (g :: gs)) :
    (g :: gs).flatten.take size = g ∧ (g.length = size ∨ (g :: gs).flatten = g) := by
  cases gs with
  | nil => simp [List.take_of_length_le (h.le_size g (by simp))]
  | cons g' gs =>
    have hg : g.length = size := h.full g (by simp)
    rw [List.flatten_cons, ← hg, List.take_left]
    simp

variable [LinearOrder α]

/-- Blocks that differ differ within the first of them. -/
theorem Cut.lcp_lt {size : ℕ} {a b : List (List α)} (ha : Cut size a) (hb : Cut size b)
    (hsize : 0 < size) (hp : Part a b) : lcp a.flatten b.flatten < size := by
  cases a with
  | nil => simpa using hsize
  | cons g a =>
    cases b with
    | nil => simpa using hsize
    | cons g' b =>
      have hne : g ≠ g' := by
        rintro rfl
        simp [Part] at hp
      by_contra hge
      rw [not_lt] at hge
      obtain ⟨h₁, -⟩ := ha.take_flatten
      obtain ⟨h₂, -⟩ := hb.take_flatten
      have := take_eq_of_le_lcp hge
      rw [h₁, h₂] at this
      exact hne this

/-- Blocks are determined by the word they make up. -/
theorem Cut.eq_nil_of_flatten_eq {size : ℕ} {a b : List (List α)} (ha : Cut size a)
    (hb : Cut size b) (hp : Part a b) (h : a.flatten = b.flatten) : a = [] ∧ b = [] := by
  rcases hp with hp | hp
  · cases a with
    | nil => exact ⟨rfl, hb.flatten_eq_nil_iff.1 h.symm⟩
    | cons g a =>
      cases b with
      | nil => exact ⟨ha.flatten_eq_nil_iff.1 h, rfl⟩
      | cons g' b =>
        have hg : g = g' := by rw [← ha.take_flatten.1, ← hb.take_flatten.1, h]
        exact absurd (congrArg some hg) hp
  · exact hp

theorem lcp_pos_iff {u v : List α} : 0 < lcp u v ↔ u.head? = v.head? ∧ u ≠ [] := by
  cases u with
  | nil => simp
  | cons x u =>
    cases v with
    | nil => simp
    | cons y v =>
      by_cases h : x = y <;> simp [lcp, h]

/-! ## Numbers counted below a bound -/

theorem countP_le_of_forall₂ {xs ys : List ℕ} (h : List.Forall₂ (· ≤ ·) xs ys) (k : ℕ) :
    ys.countP (· ≤ k) ≤ xs.countP (· ≤ k) := by
  induction h with
  | nil => rfl
  | @cons x y xs ys hxy _ ih =>
    simp only [List.countP_cons, decide_eq_true_eq]
    split_ifs <;> omega

/-- Lists of numbers of which one is below the other everywhere are equal when they have equally
many numbers up to every bound. -/
theorem eq_of_countP_eq {xs ys : List ℕ} {n : ℕ} (h : List.Forall₂ (· ≤ ·) xs ys)
    (hn : ∀ y ∈ ys, y ≤ n) (heq : ∀ k < n, xs.countP (· ≤ k) = ys.countP (· ≤ k)) : xs = ys := by
  induction h with
  | nil => rfl
  | @cons x y xs ys hxy hs ih =>
    simp only [List.countP_cons, decide_eq_true_eq] at heq
    have htail : ∀ k < n, xs.countP (· ≤ k) = ys.countP (· ≤ k) := by
      intro k hk
      have h₁ := heq k hk
      have h₂ := countP_le_of_forall₂ hs k
      split_ifs at h₁ <;> omega
    have hx : x = y := by
      by_contra hne
      have hlt : x < n := by
        have := hn y (by simp)
        omega
      have h₁ := heq x hlt
      have h₂ := htail x hlt
      rw [if_pos le_rfl, if_neg (by omega)] at h₁
      omega
    rw [hx, ih (fun z hz => hn z (by simp [hz])) htail]

end FirebirdCore.Blocks
