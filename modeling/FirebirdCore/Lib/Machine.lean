import Mathlib.Data.List.Basic
import Mathlib.Tactic

/-!
# Machines that halt

A machine makes steps until it halts with an answer. Code that is placed in other code runs there as
it runs alone.
-/
namespace FirebirdCore.Lib.Machine

/-! ## Steps -/

section

variable {σ τ : Type*} {step : σ → Except τ σ} {s s' s'' : σ} {t t' : τ} {j k n : ℕ}

/-- At most `n` steps. An error is the answer with which the machine has halted. -/
def run (step : σ → Except τ σ) : ℕ → σ → Except τ σ
  | 0, s => .ok s
  | n + 1, s =>
      match step s with
      | .error t => .error t
      | .ok s => run step n s

theorem run_succ_of_ok (h : step s = .ok s') : run step (n + 1) s = run step n s' := by
  rw [run, h]

theorem run_succ_of_error (h : step s = .error t) : run step (n + 1) s = .error t := by
  rw [run, h]

theorem run_add (h : run step j s = .ok s') : run step (j + n) s = run step n s' := by
  induction j generalizing s with
  | zero =>
    cases h
    rw [Nat.zero_add]
  | succ j ih =>
    rw [Nat.add_right_comm]
    cases hstep : step s with
    | error t =>
      rw [run_succ_of_error hstep] at h
      cases h
    | ok s1 =>
      rw [run_succ_of_ok hstep] at h ⊢
      exact ih h

/-- The machine gets from one state to the other with at least `k` steps. -/
def Goes (step : σ → Except τ σ) (k : ℕ) (s s' : σ) : Prop := ∃ n ≥ k, run step n s = .ok s'

/-- The machine halts with the answer. -/
def Halts (step : σ → Except τ σ) (s : σ) (t : τ) : Prop := ∃ n, run step n s = .error t

theorem Goes.refl (s : σ) : Goes step 0 s s := ⟨0, le_rfl, rfl⟩

theorem Goes.of_step (h : step s = .ok s') : Goes step 1 s s' :=
  ⟨1, le_rfl, run_succ_of_ok h⟩

theorem Goes.trans (h : Goes step j s s') (h' : Goes step k s' s'') : Goes step (j + k) s s'' := by
  obtain ⟨m, hm, hrun⟩ := h
  obtain ⟨n, hn, hrun'⟩ := h'
  exact ⟨m + n, Nat.add_le_add hm hn, by rw [run_add hrun, hrun']⟩

theorem Goes.mono (h : Goes step k s s') (hle : j ≤ k) : Goes step j s s' := by
  obtain ⟨n, hn, hrun⟩ := h
  exact ⟨n, hle.trans hn, hrun⟩

theorem Halts.of_step (h : step s = .error t) : Halts step s t :=
  ⟨1, run_succ_of_error h⟩

theorem Goes.halts (h : Goes step k s s') (h' : Halts step s' t) : Halts step s t := by
  obtain ⟨m, -, hrun⟩ := h
  obtain ⟨n, hrun'⟩ := h'
  exact ⟨m + n, by rw [run_add hrun, hrun']⟩

theorem run_of_error (h : run step n s = .error t) (hle : n ≤ k) : run step k s = .error t := by
  induction n generalizing s k with
  | zero => cases h
  | succ n ih =>
    obtain ⟨k, rfl⟩ := Nat.exists_eq_add_one_of_ne_zero (Nat.ne_of_gt (Nat.lt_of_lt_of_le n.succ_pos hle))
    cases hstep : step s with
    | error t' =>
      rw [run_succ_of_error hstep] at h ⊢
      exact h
    | ok s1 =>
      rw [run_succ_of_ok hstep] at h ⊢
      exact ih h (Nat.le_of_succ_le_succ hle)

theorem Goes.ne_error (h : Goes step k s s') (hle : n ≤ k) : run step n s ≠ .error t := by
  intro herror
  obtain ⟨m, hm, hrun⟩ := h
  rw [run_of_error herror (hle.trans hm)] at hrun
  cases hrun

/-- What the machine comes to decides how it halts. -/
theorem Goes.halts_iff (h : Goes step k s s') : Halts step s t ↔ Halts step s' t := by
  refine ⟨fun ⟨n, hrun⟩ => ?_, h.halts⟩
  obtain ⟨m, -, hm⟩ := h
  exact ⟨n, by rw [← run_add hm, run_of_error hrun (Nat.le_add_left n m)]⟩

/-- A machine that can make a step from each state with an invariant does not halt. -/
theorem not_halts {P : σ → Prop} (hP : ∀ s, P s → ∃ s', step s = .ok s' ∧ P s') (h : P s) :
    ¬ Halts step s t := by
  rintro ⟨n, hrun⟩
  induction n generalizing s with
  | zero => cases hrun
  | succ n ih =>
    obtain ⟨s', hstep, hs'⟩ := hP s h
    rw [run_succ_of_ok hstep] at hrun
    exact ih hs' hrun

/-- There is one answer at most. -/
theorem Halts.unique (h : Halts step s t) (h' : Halts step s t') : t = t' := by
  obtain ⟨m, hm⟩ := h
  obtain ⟨n, hn⟩ := h'
  have hm' := run_of_error hm (Nat.le_max_left m n)
  rw [run_of_error hn (Nat.le_max_right m n)] at hm'
  exact (Except.error.inj hm').symm

/-- The property holds of every state the machine gets to with at most `n` steps. -/
def Stays (step : σ → Except τ σ) (P : σ → Prop) (n : ℕ) (s : σ) : Prop :=
  ∀ m ≤ n, ∀ s', run step m s = .ok s' → P s'

variable {P : σ → Prop}

theorem Stays.mono (h : Stays step P n s) (hle : k ≤ n) : Stays step P k s :=
  fun m hm => h m (hm.trans hle)

theorem Stays.zero (hP : P s) : Stays step P 0 s := by
  intro m hm s' hrun
  obtain rfl : m = 0 := Nat.le_zero.1 hm
  cases hrun
  exact hP

theorem Stays.of_error (hP : P s) (h : step s = .error t) : Stays step P n s := by
  intro m _ s' hrun
  cases m with
  | zero =>
    cases hrun
    exact hP
  | succ m =>
    rw [run_succ_of_error h] at hrun
    cases hrun

/-- After a step, the property is needed for a step less. -/
theorem Stays.succ (hP : P s) (h : step s = .ok s') (hs : Stays step P n s') : Stays step P (n + 1) s := by
  intro m hm s'' hrun
  cases m with
  | zero =>
    cases hrun
    exact hP
  | succ m =>
    rw [run_succ_of_ok h] at hrun
    exact hs m (Nat.le_of_succ_le_succ hm) s'' hrun

theorem Stays.of_step (hP : P s) (h : step s = .ok s') (hs : Stays step P n s') : Stays step P n s :=
  (Stays.succ hP h hs).mono n.le_succ

end

/-! ## Code -/

section

variable {ω : Type*} {code block block' : List ω} {pc : ℕ} {word : ω}

/-- The block stands in the code at `pc`. -/
def CodeAt (code : List ω) (pc : ℕ) (block : List ω) : Prop := block <+: code.drop pc

theorem codeAt_append : CodeAt code pc (block ++ block') ↔
    CodeAt code pc block ∧ CodeAt code (pc + block.length) block' := by
  unfold CodeAt
  rw [← List.drop_drop]
  constructor
  · rintro ⟨t, ht⟩
    rw [← ht, List.append_assoc, List.drop_left]
    exact ⟨List.prefix_append _ _, List.prefix_append _ _⟩
  · rintro ⟨⟨t, ht⟩, h⟩
    rw [← ht, List.drop_left] at h
    obtain ⟨u, rfl⟩ := h
    exact ⟨u, by rw [List.append_assoc, ht]⟩

theorem codeAt_cons : CodeAt code pc (word :: block) ↔
    code[pc]? = some word ∧ CodeAt code (pc + 1) block := by
  rw [← List.singleton_append, codeAt_append]
  refine and_congr_left fun _ => ?_
  unfold CodeAt
  rw [← List.head?_drop]
  cases code.drop pc with
  | nil => simp
  | cons x xs => simp [List.cons_prefix_cons, eq_comm]

theorem codeAt_zero (code : List ω) : CodeAt code 0 code := by
  unfold CodeAt
  rw [List.drop_zero]

end

end FirebirdCore.Lib.Machine
