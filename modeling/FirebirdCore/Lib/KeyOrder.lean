import Mathlib.Data.List.Basic
import Mathlib.Order.Basic
import Mathlib.Tactic

/-!
# Lexicographic key orders and common prefixes

`Before endHigh` is the lexicographic order of words over a linear order in which the
end of a word sorts below every letter (`endHigh = false`) or above every letter
(`endHigh = true`). `lcp` is the length of the longest common prefix. Prefix-compressed
sequences are compared through the ultrametric law `before_congr`: a word that agrees
with `a` for longer than `b` does compares with `b` exactly as `a` does.
-/
namespace FirebirdCore.KeyOrder

scoped instance uint8LinearOrder : LinearOrder UInt8 where
  le_refl a := UInt8.le_refl a
  le_trans _ _ _ := UInt8.le_trans
  le_antisymm _ _ := UInt8.le_antisymm
  le_total := UInt8.le_total
  lt_iff_le_not_ge a b := by
    rw [UInt8.not_le]
    exact ⟨fun h => ⟨UInt8.le_of_lt h, h⟩, And.right⟩
  toDecidableLE := inferInstance
  toDecidableEq := inferInstance
  toDecidableLT := inferInstance

variable {α : Type*} [LinearOrder α]

/-- Length of the longest common prefix. -/
def lcp : List α → List α → ℕ
  | a :: as, b :: bs => if a = b then lcp as bs + 1 else 0
  | _, _ => 0

/-- Strict lexicographic order; the end of a word is above every letter iff `endHigh`. -/
def Before (endHigh : Bool) : List α → List α → Prop
  | [], [] => False
  | [], _ :: _ => endHigh = false
  | _ :: _, [] => endHigh = true
  | a :: as, b :: bs => a < b ∨ a = b ∧ Before endHigh as bs

instance decidableBefore (e : Bool) : (a b : List α) → Decidable (Before e a b)
  | [], [] => inferInstanceAs (Decidable False)
  | [], _ :: _ => inferInstanceAs (Decidable (e = false))
  | _ :: _, [] => inferInstanceAs (Decidable (e = true))
  | a :: as, b :: bs =>
      have := decidableBefore e as bs
      inferInstanceAs (Decidable (a < b ∨ a = b ∧ Before e as bs))

/-- The weak order belonging to `Before`. -/
def AtMost (e : Bool) (a b : List α) : Prop := ¬ Before e b a

instance (e : Bool) (a b : List α) : Decidable (AtMost e a b) :=
  inferInstanceAs (Decidable (¬ Before e b a))

section
-- The equations are derived once, before the proofs that rewrite with them.
attribute [local simp] lcp Before
end

/-! ## Common prefixes -/

@[simp] theorem lcp_nil_left (b : List α) : lcp [] b = 0 := by cases b <;> rfl

@[simp] theorem lcp_nil_right (a : List α) : lcp a [] = 0 := by cases a <;> rfl

@[simp] theorem lcp_self (a : List α) : lcp a a = a.length := by
  induction a with
  | nil => rfl
  | cons a as ih => simp [lcp, ih]

theorem lcp_comm (a b : List α) : lcp a b = lcp b a := by
  induction a generalizing b with
  | nil => simp
  | cons a as ih =>
    cases b with
    | nil => simp
    | cons b bs => simp only [lcp, ih bs, eq_comm]

theorem lcp_le_left (a b : List α) : lcp a b ≤ a.length := by
  induction a generalizing b with
  | nil => simp
  | cons a as ih =>
    cases b with
    | nil => simp
    | cons b bs =>
      have := ih bs
      simp only [lcp, List.length_cons]
      split <;> omega

theorem lcp_le_right (a b : List α) : lcp a b ≤ b.length := lcp_comm a b ▸ lcp_le_left b a

theorem lcp_append (w a b : List α) : lcp (w ++ a) (w ++ b) = w.length + lcp a b := by
  induction w with
  | nil => simp
  | cons x w ih => simp only [List.cons_append, lcp, if_pos, ih, List.length_cons]; omega

theorem take_lcp (a b : List α) : a.take (lcp a b) = b.take (lcp a b) := by
  induction a generalizing b with
  | nil => simp
  | cons a as ih =>
    cases b with
    | nil => simp
    | cons b bs =>
      by_cases h : a = b
      · simp [lcp, h, ih bs]
      · simp [lcp, h]

/-- Words agree on every prefix not longer than their common one. -/
theorem take_eq_of_le_lcp {a b : List α} {n : ℕ} (h : n ≤ lcp a b) : a.take n = b.take n := by
  have := congrArg (List.take n) (take_lcp a b)
  simpa [List.take_take, Nat.min_eq_left h] using this

theorem le_lcp_of_take_eq {a b : List α} {n : ℕ} (ha : n ≤ a.length)
    (h : a.take n = b.take n) : n ≤ lcp a b := by
  have hl : (a.take n).length = n := by simp [ha]
  have hs : lcp a b = (a.take n).length + lcp (a.drop n) (b.drop n) := by
    conv_lhs => rw [← List.take_append_drop n a, ← List.take_append_drop n b, ← h]
    exact lcp_append _ _ _
  omega

/-- Splitting both words after a common prefix of length `n`. -/
theorem lcp_drop {a b : List α} {n : ℕ} (h : n ≤ lcp a b) :
    lcp (a.drop n) (b.drop n) = lcp a b - n := by
  have ht := take_eq_of_le_lcp h
  have hl : (a.take n).length = n := by
    simp [Nat.le_trans h (lcp_le_left a b)]
  have hs : lcp a b = (a.take n).length + lcp (a.drop n) (b.drop n) := by
    conv_lhs => rw [← List.take_append_drop n a, ← List.take_append_drop n b, ← ht]
    exact lcp_append _ _ _
  omega

theorem lcp_eq_length_iff {a b : List α} : lcp a b = a.length ↔ a <+: b := by
  constructor
  · intro h
    have := take_lcp a b
    rw [h, List.take_length] at this
    exact this ▸ List.take_prefix _ _
  · rintro ⟨c, rfl⟩
    simpa using lcp_append a [] c

/-- Two words of which each is a prefix of the other up to the common length are equal. -/
theorem eq_of_lcp_eq_lengths {a b : List α} (ha : lcp a b = a.length) (hb : lcp a b = b.length) :
    a = b := by
  have := take_lcp a b
  rwa [ha, List.take_length, ← ha, hb, List.take_length] at this

/-! ## The strict order -/

theorem before_irrefl (e : Bool) (a : List α) : ¬ Before e a a := by
  induction a with
  | nil => exact id
  | cons a as ih => simp [Before, ih]

@[simp] theorem before_cons (e : Bool) (a b : α) (as bs : List α) :
    Before e (a :: as) (b :: bs) ↔ a < b ∨ a = b ∧ Before e as bs := Iff.rfl

/-- Mapping the letters through an order-reversing function reverses the order and turns the low
end into the high end. -/
theorem before_map_strictAnti {β : Type*} [LinearOrder β] {f : α → β} (hf : StrictAnti f)
    (e : Bool) (a b : List α) : Before (!e) (b.map f) (a.map f) ↔ Before e a b := by
  induction a generalizing b with
  | nil => cases b <;> cases e <;> simp [Before]
  | cons a as ih =>
    cases b with
    | nil => cases e <;> simp [Before]
    | cons b bs => simp [hf.lt_iff_gt, hf.injective.eq_iff, ih, eq_comm]

theorem before_append (e : Bool) (w a b : List α) :
    Before e (w ++ a) (w ++ b) ↔ Before e a b := by
  induction w with
  | nil => rfl
  | cons x w ih => simp [ih]

theorem Before.trans {e : Bool} {a b c : List α} (h₁ : Before e a b) (h₂ : Before e b c) :
    Before e a c := by
  induction a generalizing b c with
  | nil =>
    cases b with
    | nil => exact h₁.elim
    | cons b bs => cases c <;> simp_all [Before]
  | cons a as ih =>
    cases b with
    | nil => cases c <;> simp_all [Before]
    | cons b bs =>
      cases c with
      | nil => simp_all [Before]
      | cons c cs =>
        rcases h₁ with h₁ | ⟨rfl, h₁⟩
        · rcases h₂ with h₂ | ⟨rfl, -⟩
          · exact .inl (h₁.trans h₂)
          · exact .inl h₁
        · rcases h₂ with h₂ | ⟨rfl, h₂⟩
          · exact .inl h₂
          · exact .inr ⟨rfl, ih h₁ h₂⟩

theorem before_trichotomy (e : Bool) (a b : List α) : Before e a b ∨ a = b ∨ Before e b a := by
  induction a generalizing b with
  | nil => cases b <;> cases e <;> simp [Before]
  | cons a as ih =>
    cases b with
    | nil => cases e <;> simp [Before]
    | cons b bs =>
      rcases lt_trichotomy a b with h | rfl | h
      · exact .inl (.inl h)
      · rcases ih bs with h | rfl | h
        · exact .inl (.inr ⟨rfl, h⟩)
        · exact .inr (.inl rfl)
        · exact .inr (.inr (.inr ⟨rfl, h⟩))
      · exact .inr (.inr (.inl h))

theorem Before.asymm {e : Bool} {a b : List α} (h : Before e a b) : ¬ Before e b a :=
  fun h' => before_irrefl e a (h.trans h')

theorem Before.atMost {e : Bool} {a b : List α} (h : Before e a b) : AtMost e a b := h.asymm

@[simp] theorem AtMost.refl (e : Bool) (a : List α) : AtMost e a a := before_irrefl e a

theorem AtMost.eq_or_before {e : Bool} {a b : List α} (h : AtMost e a b) : a = b ∨ Before e a b := by
  rcases before_trichotomy e a b with h' | h' | h'
  · exact .inr h'
  · exact .inl h'
  · exact absurd h' h

theorem AtMost.trans {e : Bool} {a b c : List α} (h₁ : AtMost e a b) (h₂ : AtMost e b c) :
    AtMost e a c := by
  rcases h₁.eq_or_before with rfl | h₁
  · exact h₂
  rcases h₂.eq_or_before with rfl | h₂
  · exact h₁.atMost
  · exact (h₁.trans h₂).atMost

theorem Before.trans_atMost {e : Bool} {a b c : List α} (h₁ : Before e a b) (h₂ : AtMost e b c) :
    Before e a c := by
  rcases h₂.eq_or_before with rfl | h₂
  · exact h₁
  · exact h₁.trans h₂

theorem AtMost.trans_before {e : Bool} {a b c : List α} (h₁ : AtMost e a b) (h₂ : Before e b c) :
    Before e a c := by
  rcases h₁.eq_or_before with rfl | h₁
  · exact h₂
  · exact h₁.trans h₂

theorem AtMost.antisymm {e : Bool} {a b : List α} (h₁ : AtMost e a b) (h₂ : AtMost e b a) :
    a = b := by
  rcases h₁.eq_or_before with h | h
  · exact h
  · exact absurd h h₂

theorem Before.ne {e : Bool} {a b : List α} (h : Before e a b) : a ≠ b := by
  rintro rfl
  exact before_irrefl e a h

theorem not_before_iff {e : Bool} {a b : List α} : ¬ Before e a b ↔ AtMost e b a := Iff.rfl

theorem not_atMost_iff {e : Bool} {a b : List α} : ¬ AtMost e a b ↔ Before e b a := not_not

/-- With a low end a proper prefix comes first. -/
theorem before_of_extended {a b : List α} (h : a <+: b) (hne : a ≠ b) : Before false a b := by
  obtain ⟨c, rfl⟩ := h
  cases c with
  | nil => simp at hne
  | cons c cs => simpa [Before] using (before_append false a [] (c :: cs)).2 rfl

/-- With a high end a proper prefix comes last. -/
theorem before_of_extends {a b : List α} (h : b <+: a) (hne : a ≠ b) : Before true a b := by
  obtain ⟨c, rfl⟩ := h
  cases c with
  | nil => simp at hne
  | cons c cs => simpa [Before] using (before_append true b (c :: cs) []).2 rfl

/-! ## The ultrametric law -/

/-- If `c` shares more of `a` than `b` does, then `c` and `a` stand in the same relation to
`b` and share equally much of it. -/
theorem before_congr (e : Bool) {a b c : List α} (h : lcp a b < lcp a c) :
    (Before e a b ↔ Before e c b) ∧ (Before e b a ↔ Before e b c) ∧ lcp c b = lcp a b := by
  induction a generalizing b c with
  | nil => simp at h
  | cons a as ih =>
    cases c with
    | nil => simp at h
    | cons c cs =>
      by_cases hac : a = c
      · subst hac
        cases b with
        | nil => simp [Before]
        | cons b bs =>
          by_cases hab : a = b
          · subst hab
            simp only [lcp, if_pos, Nat.add_lt_add_iff_right] at h
            simpa [Before, lcp] using ih h
          · simp [Before, lcp, hab, Ne.symm hab]
      · simp [lcp, hac] at h

theorem lcp_min_le (a b c : List α) : min (lcp a b) (lcp b c) ≤ lcp a c := by
  have h₁ : a.take (min (lcp a b) (lcp b c)) = b.take (min (lcp a b) (lcp b c)) :=
    take_eq_of_le_lcp (Nat.min_le_left _ _)
  have h₂ : b.take (min (lcp a b) (lcp b c)) = c.take (min (lcp a b) (lcp b c)) :=
    take_eq_of_le_lcp (Nat.min_le_right _ _)
  have ha := lcp_le_left a b
  exact le_lcp_of_take_eq (by omega) (h₁.trans h₂)

/-- On an increasing triple the outer common prefix is the smaller of the inner two. -/
theorem lcp_of_atMost (e : Bool) {a b c : List α} (h₁ : AtMost e a b) (h₂ : AtMost e b c) :
    lcp a c = min (lcp a b) (lcp b c) := by
  refine Nat.le_antisymm ?_ (lcp_min_le a b c)
  by_contra hlt
  rw [not_le] at hlt
  rcases Nat.lt_or_ge (lcp a b) (lcp a c) with hab | hab
  · -- `c` is on the same side of `b` as `a`, hence all three agree
    have hcongr := before_congr e hab
    rcases h₁.eq_or_before with rfl | hb
    · simp only [lcp_self] at hlt hab
      have := lcp_le_left a c
      omega
    · exact h₂ (hcongr.1.1 hb)
  · have hbc : lcp c b < lcp c a := by rw [lcp_comm c b, lcp_comm c a]; omega
    have hcongr := before_congr e hbc
    rcases h₂.eq_or_before with rfl | hb
    · simp only [lcp_self, lcp_comm b a] at hbc
      have := lcp_le_right a b
      omega
    · exact h₁ (hcongr.2.1.1 hb)

/-- A word that leaves `a` before `c` does, and is not below `a`, is above `c`. -/
theorem before_of_lcp_lt (e : Bool) {a b c : List α} (hab : AtMost e a b)
    (h : lcp a b < lcp a c) : Before e c b := by
  rcases hab.eq_or_before with rfl | hb
  · have := lcp_le_left a c
    simp only [lcp_self] at h
    omega
  · exact (before_congr e h).1.1 hb

/-- A word that follows `a` for longer than `c` does is on the same side of `c`. -/
theorem before_of_lcp_gt (e : Bool) {a b c : List α} (hac : Before e a c)
    (h : lcp a c < lcp a b) : Before e b c ∧ lcp b c = lcp a c :=
  let hcongr := before_congr e h
  ⟨hcongr.1.1 hac, hcongr.2.2⟩

/-- Everything between two words that both extend `w` extends `w` too. -/
theorem prefix_of_between (e : Bool) {w a b c : List α} (hab : AtMost e a b) (hbc : AtMost e b c)
    (ha : w <+: a) (hc : w <+: c) : w <+: b := by
  have hac : w.length ≤ lcp a c := by
    have h := lcp_min_le a w c
    rw [lcp_comm a w, lcp_eq_length_iff.2 ha, lcp_eq_length_iff.2 hc] at h
    simpa using h
  have hab' : w.length ≤ lcp a b := by
    have := lcp_of_atMost e hab hbc
    omega
  obtain ⟨x, rfl⟩ := ha
  have := take_eq_of_le_lcp hab'
  rw [List.take_left'] at this
  · exact this ▸ List.take_prefix _ _
  · rfl

end FirebirdCore.KeyOrder
