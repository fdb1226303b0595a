import Mathlib.Data.List.Perm.Basic
import Mathlib.Data.List.Range
import Mathlib.Logic.Equiv.Basic
import Mathlib.Order.Basic
import Mathlib.Tactic

/-!
# Slots that are rearranged in place

`Rearranged lo hi f g` says that `g` has what `f` has in the slots from `lo` to below `hi`, in another order,
and the same elsewhere. A list is `Paired` when it is sorted but for neighbours that may be the wrong way
round, no two such pairs having an element in common.
-/
namespace FirebirdCore.Slots

variable {α : Type*} {f g h : ℕ → α} {lo hi : ℕ}

def Rearranged (lo hi : ℕ) (f g : ℕ → α) : Prop :=
  ∃ σ : Equiv.Perm ℕ, (∀ k, k < lo ∨ hi ≤ k → σ k = k) ∧ g = f ∘ σ

theorem Rearranged.refl (lo hi : ℕ) (f : ℕ → α) : Rearranged lo hi f f :=
  ⟨Equiv.refl ℕ, fun _ _ => rfl, rfl⟩

theorem Rearranged.trans (hfg : Rearranged lo hi f g) (hgh : Rearranged lo hi g h) : Rearranged lo hi f h := by
  obtain ⟨σ, hσ, rfl⟩ := hfg
  obtain ⟨τ, hτ, rfl⟩ := hgh
  refine ⟨τ.trans σ, fun k hk => ?_, rfl⟩
  rw [Equiv.trans_apply, hτ k hk, hσ k hk]

theorem Rearranged.mono {lo' hi' : ℕ} (hfg : Rearranged lo' hi' f g) (hlo : lo ≤ lo') (hhi : hi' ≤ hi) :
    Rearranged lo hi f g := by
  obtain ⟨σ, hσ, rfl⟩ := hfg
  exact ⟨σ, fun k hk => hσ k (by omega), rfl⟩

theorem rearranged_swap {i j : ℕ} (hi' : lo ≤ i ∧ i < hi) (hj : lo ≤ j ∧ j < hi) (f : ℕ → α) :
    Rearranged lo hi f (f ∘ Equiv.swap i j) :=
  ⟨Equiv.swap i j, fun k hk => Equiv.swap_apply_of_ne_of_ne (by omega) (by omega), rfl⟩

/-- The other slots are as they were. -/
theorem Rearranged.outside (hfg : Rearranged lo hi f g) {k : ℕ} (hk : k < lo ∨ hi ≤ k) : g k = f k := by
  obtain ⟨σ, hσ, rfl⟩ := hfg
  rw [Function.comp_apply, hσ k hk]

theorem Rearranged.source (hfg : Rearranged lo hi f g) {k : ℕ} (hlo : lo ≤ k) (hhi : k < hi) :
    ∃ i, lo ≤ i ∧ i < hi ∧ g k = f i := by
  obtain ⟨σ, hσ, rfl⟩ := hfg
  refine ⟨σ k, ?_, ?_, rfl⟩
  · by_contra hlt
    have hfix := σ.injective (hσ (σ k) (by omega))
    omega
  · by_contra hge
    have hfix := σ.injective (hσ (σ k) (by omega))
    omega

/-- What holds in all slots of the range still does. -/
theorem Rearranged.forall (hfg : Rearranged lo hi f g) {P : α → Prop} (hf : ∀ k, lo ≤ k → k < hi → P (f k)) :
    ∀ k, lo ≤ k → k < hi → P (g k) := by
  intro k hlo hhi
  obtain ⟨i, hi₁, hi₂, heq⟩ := hfg.source hlo hhi
  rw [heq]
  exact hf i hi₁ hi₂

/-- The elements of some slots. -/
def elements (f : ℕ → α) (lo count : ℕ) : List α := (List.range' lo count).map f

@[simp] theorem elements_zero (f : ℕ → α) (lo : ℕ) : elements f lo 0 = [] := rfl

theorem elements_succ (f : ℕ → α) (lo count : ℕ) :
    elements f lo (count + 1) = f lo :: elements f (lo + 1) count := by
  rw [elements, List.range'_succ, List.map_cons, elements]

theorem elements_add (f : ℕ → α) (lo m n : ℕ) :
    elements f lo (m + n) = elements f lo m ++ elements f (lo + m) n := by
  rw [elements, elements, elements, ← List.map_append, List.range'_append_1]

@[simp] theorem length_elements (f : ℕ → α) (lo count : ℕ) : (elements f lo count).length = count := by
  simp [elements]

theorem mem_elements {a : α} {count : ℕ} :
    a ∈ elements f lo count ↔ ∃ k, lo ≤ k ∧ k < lo + count ∧ f k = a := by
  simp [elements, List.mem_range'_1, and_assoc]

theorem elements_congr {count : ℕ} (hfg : ∀ k, lo ≤ k → k < lo + count → g k = f k) :
    elements g lo count = elements f lo count := by
  apply List.map_congr_left
  intro k hk
  rw [List.mem_range'_1] at hk
  exact hfg k hk.1 hk.2

theorem Rearranged.perm {count : ℕ} (hfg : Rearranged lo (lo + count) f g) :
    (elements g lo count).Perm (elements f lo count) := by
  have hσ := hfg
  obtain ⟨σ, hfix, rfl⟩ := hσ
  have hrange : ((List.range' lo count).map σ).Perm (List.range' lo count) := by
    rw [List.perm_ext_iff_of_nodup (List.Nodup.map σ.injective List.nodup_range') List.nodup_range']
    intro k
    rw [List.mem_map]
    constructor
    · rintro ⟨i, hi, rfl⟩
      rw [List.mem_range'_1] at hi ⊢
      by_contra hout
      have heq := σ.injective (hfix (σ i) (by omega))
      omega
    · intro hk
      rw [List.mem_range'_1] at hk
      refine ⟨σ.symm k, ?_, σ.apply_symm_apply k⟩
      rw [List.mem_range'_1]
      by_contra hout
      have heq := hfix (σ.symm k) (by omega)
      rw [σ.apply_symm_apply] at heq
      omega
  rw [elements, elements, ← List.map_map]
  exact hrange.map f

/-! ## Sorted but for pairs -/

section Paired
variable [LinearOrder α] {l l' : List α}

inductive Paired : List α → Prop
  | nil : Paired []
  | one (x : α) (l : List α) (hx : ∀ z ∈ l, x ≤ z) (hl : Paired l) : Paired (x :: l)
  | two (x y : α) (l : List α) (hx : ∀ z ∈ l, x ≤ z) (hy : ∀ z ∈ l, y ≤ z) (hl : Paired l) :
      Paired (x :: y :: l)

theorem Paired.append (hl : Paired l) (hl' : Paired l') (hle : ∀ x ∈ l, ∀ y ∈ l', x ≤ y) : Paired (l ++ l') := by
  induction hl with
  | nil => exact hl'
  | one x l hx _ ih =>
    apply Paired.one
    · intro z hz
      rcases List.mem_append.1 hz with hz | hz
      · exact hx z hz
      · exact hle x List.mem_cons_self z hz
    · exact ih fun a ha => hle a (List.mem_cons_of_mem _ ha)
  | two x y l hx hy _ ih =>
    apply Paired.two
    · intro z hz
      rcases List.mem_append.1 hz with hz | hz
      · exact hx z hz
      · exact hle x List.mem_cons_self z hz
    · intro z hz
      rcases List.mem_append.1 hz with hz | hz
      · exact hy z hz
      · exact hle y (List.mem_cons_of_mem _ List.mem_cons_self) z hz
    · exact ih fun a ha => hle a (List.mem_cons_of_mem _ (List.mem_cons_of_mem _ ha))

/-- Two elements are a pair. -/
theorem paired_of_length_le (h : l.length ≤ 2) : Paired l := by
  match l with
  | [] => exact .nil
  | [x] => exact .one x [] (fun z hz => by cases hz) .nil
  | [x, y] => exact .two x y [] (fun z hz => by cases hz) (fun z hz => by cases hz) .nil
  | _ :: _ :: _ :: _ => simp at h

/-- The two elements in front, put the right way round, leave the rest paired. -/
theorem Paired.front {x y : α} (h : Paired (x :: y :: l)) (hxy : x ≤ y) :
    Paired (y :: l) ∧ ∀ z ∈ y :: l, x ≤ z := by
  cases h with
  | one _ _ hx hl => exact ⟨hl, hx⟩
  | two _ _ _ hx hy hl => exact ⟨.one y l hy hl, List.forall_mem_cons.2 ⟨hxy, hx⟩⟩

theorem Paired.front_swapped {x y : α} (h : Paired (x :: y :: l)) (hyx : y ≤ x) :
    Paired (x :: l) ∧ ∀ z ∈ x :: l, y ≤ z := by
  cases h with
  | one _ _ hx hl =>
    obtain rfl := le_antisymm (hx y List.mem_cons_self) hyx
    exact ⟨hl, hx⟩
  | two _ _ _ hx hy hl => exact ⟨.one x l hx hl, List.forall_mem_cons.2 ⟨hyx, hy⟩⟩

end Paired

end FirebirdCore.Slots
