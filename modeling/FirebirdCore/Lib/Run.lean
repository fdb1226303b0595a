import Mathlib.Data.List.Basic

/-!
# Runs of a step function

`run step s ops` is the state after the operations `ops`. `AlongRun` says that a condition holds
where each of them is applied, and `run_invariant` carries an invariant along such a run.
-/
namespace FirebirdCore.Run

variable {σ ο : Type*}

def run (step : σ → ο → σ) : σ → List ο → σ
  | s, [] => s
  | s, op :: ops => run step (step s op) ops

/-- Every operation of the run satisfies `P` in the state in which it is applied. -/
def AlongRun (step : σ → ο → σ) (P : σ → ο → Prop) : σ → List ο → Prop
  | _, [] => True
  | s, op :: ops => P s op ∧ AlongRun step P (step s op) ops

instance decidableAlongRun (step : σ → ο → σ) (P : σ → ο → Prop) [∀ s op, Decidable (P s op)] :
    ∀ (s : σ) (ops : List ο), Decidable (AlongRun step P s ops)
  | _, [] => isTrue trivial
  | s, op :: ops =>
      haveI := decidableAlongRun step P (step s op) ops
      inferInstanceAs (Decidable (_ ∧ _))

@[simp] theorem run_nil (step : σ → ο → σ) (s : σ) : run step s [] = s := rfl

@[simp] theorem run_cons (step : σ → ο → σ) (s : σ) (op : ο) (ops : List ο) :
    run step s (op :: ops) = run step (step s op) ops := rfl

theorem run_append (step : σ → ο → σ) (s : σ) (ops more : List ο) :
    run step s (ops ++ more) = run step (run step s ops) more := by
  induction ops generalizing s with
  | nil => rfl
  | cons op ops ih => exact ih (step s op)

theorem alongRun_append {step : σ → ο → σ} {P : σ → ο → Prop} (s : σ) (ops more : List ο) :
    AlongRun step P s (ops ++ more) ↔ AlongRun step P s ops ∧ AlongRun step P (run step s ops) more := by
  induction ops generalizing s with
  | nil => simp [AlongRun]
  | cons op ops ih => simp [AlongRun, ih, and_assoc]

theorem run_invariant {step : σ → ο → σ} {P : σ → ο → Prop} (Inv : σ → Prop)
    (hstep : ∀ s op, Inv s → P s op → Inv (step s op)) {s : σ} {ops : List ο} (h : Inv s)
    (hops : AlongRun step P s ops) : Inv (run step s ops) := by
  induction ops generalizing s with
  | nil => exact h
  | cons op ops ih => exact ih (hstep s op h hops.1) hops.2

end FirebirdCore.Run
