import Mathlib.Data.List.Basic
import Mathlib.Data.List.Nodup
import Mathlib.Logic.Function.Basic
import Mathlib.Tactic

/-!
# Singly linked lists

`walk next count start` are the blocks that the links lead to from `start`, at most `count` of them;
`IsSeg next start l stop` says that the links lead from `start` through exactly the blocks of `l` and
then to `stop`.
-/
namespace FirebirdCore.Path

variable {α : Type*} {next next' : α → Option α} {start stop : Option α} {x n : α}
  {l front back : List α}

def walk (next : α → Option α) : ℕ → Option α → List α
  | 0, _ => []
  | _ + 1, none => []
  | count + 1, some x => x :: walk next count (next x)

def IsSeg (next : α → Option α) : Option α → List α → Option α → Prop
  | start, [], stop => start = stop
  | start, x :: l, stop => start = some x ∧ IsSeg next (next x) l stop

theorem IsSeg.walk_eq (h : IsSeg next start l none) {count : ℕ} (hcount : l.length ≤ count) :
    walk next count start = l := by
  induction l generalizing start count with
  | nil =>
    obtain rfl : start = none := h
    cases count <;> rfl
  | cons x l ih =>
    obtain ⟨rfl, h⟩ := h
    cases count with
    | zero => simp at hcount
    | succ count => rw [walk, ih h (by simpa using hcount)]

theorem IsSeg.head? (h : IsSeg next start l none) : l.head? = start := by
  cases l with
  | nil => exact h.symm
  | cons x l => exact h.1.symm

theorem IsSeg.congr (h : IsSeg next start l stop) (hnext : ∀ y ∈ l, next' y = next y) :
    IsSeg next' start l stop := by
  induction l generalizing start with
  | nil => exact h
  | cons y l ih =>
    refine ⟨h.1, ?_⟩
    rw [hnext y List.mem_cons_self]
    exact ih h.2 fun z hz => hnext z (List.mem_cons_of_mem _ hz)

theorem isSeg_append : IsSeg next start (front ++ back) stop ↔
    ∃ mid, IsSeg next start front mid ∧ IsSeg next mid back stop := by
  induction front generalizing start with
  | nil => exact ⟨fun h => ⟨start, rfl, h⟩, by rintro ⟨mid, rfl, h⟩; exact h⟩
  | cons y front ih =>
    rw [List.cons_append, IsSeg, ih]
    constructor
    · rintro ⟨hstart, mid, hfront, hback⟩
      exact ⟨mid, ⟨hstart, hfront⟩, hback⟩
    · rintro ⟨mid, ⟨hstart, hfront⟩, hback⟩
      exact ⟨hstart, mid, hfront, hback⟩

/-- The link of a block leads to the one behind it. -/
theorem IsSeg.next_eq (h : IsSeg next start (front ++ x :: back) none) : next x = back.head? := by
  obtain ⟨mid, -, -, hback⟩ := isSeg_append.1 h
  exact hback.head?.symm

/-- The first block that leads to `x` is the one in front of it. -/
theorem IsSeg.find_prior [DecidableEq α] (h : IsSeg next start l none) (hl : l.Nodup) (hx : x ∈ l)
    (hhead : start ≠ some x) : ∃ front prior back, l = front ++ prior :: x :: back ∧
      l.find? (fun y => next y == some x) = some prior := by
  obtain ⟨before, back, rfl⟩ := List.append_of_mem hx
  rcases List.eq_nil_or_concat before with rfl | ⟨front, prior, rfl⟩
  · exact absurd h.1 hhead
  rw [List.concat_eq_append, List.append_assoc, List.singleton_append] at h hl ⊢
  refine ⟨front, prior, back, rfl, List.find?_eq_some_iff_append.2 ⟨?_, front, x :: back, rfl, ?_⟩⟩
  · rw [h.next_eq]
    simp
  · intro y hy
    obtain ⟨p, s, rfl⟩ := List.append_of_mem hy
    rw [List.append_assoc, List.cons_append] at h
    have hne : next y ≠ some x := by
      rw [h.next_eq]
      intro heq
      have hmem : x ∈ p ++ y :: s ++ [prior] := by
        cases s with
        | nil => simp_all
        | cons z s => simp_all
      have hsplit : (p ++ y :: s ++ [prior] ++ x :: back).Nodup := by simpa using hl
      exact (List.nodup_append.1 hsplit).2.2 x hmem x List.mem_cons_self rfl
    simpa using hne

variable [DecidableEq α]

/-- `n` becomes the second block. -/
theorem IsSeg.insertSecond (h : IsSeg next (some x) (x :: l) none) (hl : (x :: l).Nodup)
    (hn : n ∉ x :: l) :
    IsSeg (Function.update (Function.update next n (next x)) x (some n)) (some x) (x :: n :: l)
      none := by
  have hnx : n ≠ x := fun heq => hn (heq ▸ List.mem_cons_self)
  refine ⟨rfl, Function.update_self .., ?_⟩
  rw [Function.update_of_ne hnx, Function.update_self]
  refine h.2.congr fun y hy => ?_
  have hyx : y ≠ x := ne_of_mem_of_not_mem hy (List.nodup_cons.1 hl).1
  have hyn : y ≠ n := ne_of_mem_of_not_mem (List.mem_cons_of_mem _ hy) hn
  rw [Function.update_of_ne hyx, Function.update_of_ne hyn]

/-- The block in front of `x` leads past it. -/
theorem IsSeg.unlink {prior : α} (h : IsSeg next start (front ++ prior :: x :: back) none)
    (hl : (front ++ prior :: x :: back).Nodup) :
    IsSeg (Function.update next prior (next x)) start (front ++ prior :: back) none := by
  obtain ⟨mid, hfront, hstart, -, hback⟩ := isSeg_append.1 h
  obtain ⟨-, hrest, hdisjoint⟩ := List.nodup_append.1 hl
  have hprior := (List.nodup_cons.1 hrest).1
  refine isSeg_append.2 ⟨mid, hfront.congr fun y hy => ?_, hstart, ?_⟩
  · exact Function.update_of_ne (hdisjoint y hy prior List.mem_cons_self) ..
  · rw [Function.update_self]
    refine hback.congr fun y hy => Function.update_of_ne ?_ ..
    exact ne_of_mem_of_not_mem (List.mem_cons_of_mem _ hy) hprior

end FirebirdCore.Path
