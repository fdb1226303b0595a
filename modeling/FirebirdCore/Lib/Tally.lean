import Mathlib.Data.List.Nodup
import Mathlib.Tactic

/-!
# Counting the members of a queue

A queue without repetitions has one member with a given name, so that the count of a property is
that of the other members and one more or none.
-/
namespace FirebirdCore.Tally

variable {α : Type*} [DecidableEq α]

/-- How many members other than `a` have the property. -/
def others (p : α → Prop) [DecidablePred p] (a : α) (l : List α) : ℕ :=
  l.countP fun x => x ≠ a ∧ p x

variable {p q : α → Prop} [DecidablePred p] [DecidablePred q] {a : α} {l : List α}

theorem others_of_notMem (h : a ∉ l) : others p a l = l.countP p := by
  refine List.countP_congr fun x hx => ?_
  have hne : x ≠ a := fun he => h (he ▸ hx)
  simp [hne]

/-- The count in a queue that has `a`. -/
theorem countP_eq_others (hmem : a ∈ l) (hnodup : l.Nodup) :
    l.countP p = others p a l + if p a then 1 else 0 := by
  induction l with
  | nil => cases hmem
  | cons b l ih =>
    obtain ⟨hb, hl⟩ := List.nodup_cons.1 hnodup
    by_cases hba : b = a
    · subst hba
      have hothers : others p b (b :: l) = l.countP p := by
        rw [others, List.countP_cons_of_neg (by simp)]
        exact others_of_notMem hb
      rw [List.countP_cons, hothers]
      simp
    · have ha : a ∈ l := (List.mem_cons.1 hmem).resolve_left (Ne.symm hba)
      have hcons : others p a (b :: l) = others p a l + if p b then 1 else 0 := by
        rw [others, List.countP_cons, others]
        simp [hba]
      rw [List.countP_cons, ih ha hl, hcons]
      simp only [decide_eq_true_eq]
      omega

theorem countP_erase (hnodup : l.Nodup) : (l.erase a).countP p = others p a l := by
  rw [hnodup.erase_eq_filter, List.countP_filter, others]
  refine List.countP_congr fun x _ => ?_
  simp [and_comm]

/-- The other members count the same when only `a` changes. -/
theorem others_congr (h : ∀ x ∈ l, x ≠ a → (p x ↔ q x)) : others p a l = others q a l := by
  refine List.countP_congr fun x hx => ?_
  by_cases hne : x = a
  · simp [hne]
  · simp [hne, h x hx hne]

theorem others_pos {b : α} (hb : b ∈ l) (hne : b ≠ a) (h : p b) : 0 < others p a l :=
  List.countP_pos_iff.2 ⟨b, hb, by simp [hne, h]⟩

theorem others_eq_zero (h : others p a l = 0) {b : α} (hb : b ∈ l) (hne : b ≠ a) : ¬ p b := by
  intro hp
  have hpos := others_pos hb hne hp
  omega

theorem others_le : others p a l ≤ l.countP p :=
  List.countP_mono_left fun x _ h => by
    simp only [decide_eq_true_eq] at h ⊢
    exact h.2

end FirebirdCore.Tally
