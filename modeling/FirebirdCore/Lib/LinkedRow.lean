import Mathlib.Logic.Function.Basic
import Mathlib.Data.List.Basic
import Mathlib.Tactic

/-!
# Doubly linked rows

`Linked next prev before row behind` says that the pointers `next` and `prev` link the members of
`row` in this order, between `before` and `behind`. Putting a member behind another one and taking one
out change a few pointers only.
-/
namespace FirebirdCore.LinkedRow

variable {α : Type*}

def Linked (next prev : α → Option α) : Option α → List α → Option α → Prop
  | _, [], _ => True
  | before, x :: row, behind =>
      prev x = before ∧ next x = row.head?.or behind ∧ Linked next prev (some x) row behind

variable {next prev next' prev' : α → Option α} {before behind : Option α} {row front back : List α}
  {x n : α}

theorem linked_append : Linked next prev before (front ++ back) behind ↔
    Linked next prev before front (back.head?.or behind) ∧
      Linked next prev (front.getLast?.or before) back behind := by
  induction front generalizing before with
  | nil => simp [Linked]
  | cons x front ih =>
    cases front with
    | nil => simp [Linked, and_assoc]
    | cons y front =>
      simp only [List.cons_append, Linked, List.head?_cons, List.getLast?_cons_cons] at ih ⊢
      have hlast : ((y :: front).getLast?.or before) = ((y :: front).getLast?.or (some x)) := by
        simp [List.getLast?_cons]
      rw [ih, hlast]
      tauto

theorem Linked.congr (h : Linked next prev before row behind)
    (hnext : ∀ y ∈ row, next' y = next y) (hprev : ∀ y ∈ row, prev' y = prev y) :
    Linked next' prev' before row behind := by
  induction row generalizing before with
  | nil => trivial
  | cons y row ih =>
    obtain ⟨hy, hy', hrow⟩ := h
    exact ⟨(hprev y List.mem_cons_self).trans hy, (hnext y List.mem_cons_self).trans hy',
      ih hrow (fun z hz => hnext z (List.mem_cons_of_mem _ hz))
        (fun z hz => hprev z (List.mem_cons_of_mem _ hz))⟩

/-- The neighbours of a member. -/
theorem linked_middle (h : Linked next prev none (front ++ x :: back) none) :
    prev x = front.getLast? ∧ next x = back.head? := by
  obtain ⟨-, hx, hx', -⟩ := linked_append.1 h
  rw [Option.or_none] at hx hx'
  exact ⟨hx, hx'⟩

/-- Parts that follow each other are linked if each is linked and the pointers between them fit. -/
theorem linked_middle_iff : Linked next prev none (front ++ x :: back) none ↔
    Linked next prev none front (some x) ∧ prev x = front.getLast? ∧ next x = back.head? ∧
      Linked next prev (some x) back none := by
  rw [linked_append]
  simp [Linked]

variable [DecidableEq α]

/-- The pointer of `x?` becomes `v`, if there is such a member. -/
def setAt (f : α → Option α) (x? v : Option α) : α → Option α :=
  match x? with
  | some x => Function.update f x v
  | none => f

theorem setAt_of_ne {f : α → Option α} {x? v : Option α} {y : α} (h : x? ≠ some y) :
    setAt f x? v y = f y := by
  cases x? with
  | none => rfl
  | some x => exact Function.update_of_ne (fun hy => h (congrArg some hy.symm)) ..

@[simp] theorem setAt_self (f : α → Option α) (v : Option α) : setAt f (some x) v x = v :=
  Function.update_self ..

/-- The first member of a linked row gets another member in front of it. -/
theorem Linked.setPrev (h : Linked next prev before row behind) (hrow : row.Nodup) (v : Option α) :
    Linked next (setAt prev row.head? v) v row behind := by
  cases row with
  | nil => trivial
  | cons y row =>
    obtain ⟨hy, hrow⟩ := List.nodup_cons.1 hrow
    refine ⟨setAt_self .., h.2.1, h.2.2.congr (fun _ _ => rfl) fun z hz => setAt_of_ne ?_⟩
    rintro ⟨⟩
    exact hy hz

/-- The last member of a linked row gets another member behind it. -/
theorem Linked.setNext (h : Linked next prev before row behind) (hrow : row.Nodup) (v : Option α) :
    Linked (setAt next row.getLast? v) prev before row v := by
  induction row using List.reverseRecOn with
  | nil => trivial
  | append_singleton row y _ =>
    have hy : y ∉ row := fun hmem => (List.nodup_append.1 hrow).2.2 y hmem y List.mem_cons_self rfl
    rw [linked_append] at h ⊢
    rw [List.getLast?_concat]
    refine ⟨h.1.congr (fun z hz => setAt_of_ne ?_) (fun _ _ => rfl), h.2.1, setAt_self .., trivial⟩
    rintro ⟨⟩
    exact hy hz

/-- `n` is put behind `x`. -/
theorem Linked.insertAfter (h : Linked next prev none (front ++ x :: back) none)
    (hrow : (front ++ x :: back).Nodup) (hn : n ∉ front ++ x :: back) :
    Linked (Function.update (Function.update next n (next x)) x (some n))
      (Function.update (setAt prev (next x) (some n)) n (some x)) none (front ++ x :: n :: back) none := by
  obtain ⟨hfront, hx, hx', hback⟩ := linked_middle_iff.1 h
  obtain ⟨-, hrest, hdisjoint⟩ := List.nodup_append.1 hrow
  obtain ⟨hxback, hnodup⟩ := List.nodup_cons.1 hrest
  have hnx : n ≠ x := fun h => hn (h ▸ List.mem_append_right _ List.mem_cons_self)
  have hnfront : ∀ y ∈ front, y ≠ n := fun y hy h => hn (h ▸ List.mem_append_left _ hy)
  have hxfront : ∀ y ∈ front, y ≠ x := fun y hy => hdisjoint y hy x List.mem_cons_self
  have hnback : ∀ y ∈ back, y ≠ n := fun y hy h =>
    hn (h ▸ List.mem_append_right _ (List.mem_cons_of_mem _ hy))
  have hxback' : ∀ y ∈ back, y ≠ x := fun y hy h => hxback (h ▸ hy)
  have hother : ∀ y, y ∉ back → next x ≠ some y := fun y hy h =>
    hy (List.mem_of_head? (hx'.symm.trans h))
  rw [linked_middle_iff]
  refine ⟨hfront.congr (fun y hy => ?_) (fun y hy => ?_), ?_, ?_, ?_, ?_, ?_⟩
  · rw [Function.update_of_ne (hxfront y hy), Function.update_of_ne (hnfront y hy)]
  · rw [Function.update_of_ne (hnfront y hy)]
    exact setAt_of_ne (hother y fun hmem => hdisjoint y hy y (List.mem_cons_of_mem _ hmem) rfl)
  · rw [Function.update_of_ne hnx.symm, setAt_of_ne (hother x hxback), hx]
  · rw [Function.update_self]
    rfl
  · rw [Function.update_self]
  · rw [Function.update_of_ne hnx, Function.update_self, hx', Option.or_none]
  · rw [hx']
    refine (hback.setPrev hnodup (some n)).congr (fun y hy => ?_) (fun y hy => ?_)
    · rw [Function.update_of_ne (hxback' y hy), Function.update_of_ne (hnback y hy)]
    · rw [Function.update_of_ne (hnback y hy)]

/-- `x` is taken out. -/
theorem Linked.unlink (h : Linked next prev none (front ++ x :: back) none)
    (hrow : (front ++ x :: back).Nodup) :
    Linked (setAt next (prev x) (next x)) (setAt prev (next x) (prev x)) none (front ++ back) none := by
  obtain ⟨hfront, hx, hx', hback⟩ := linked_middle_iff.1 h
  obtain ⟨hnodup, hrest, hdisjoint⟩ := List.nodup_append.1 hrow
  obtain ⟨-, hnodup'⟩ := List.nodup_cons.1 hrest
  have hboth : ∀ y ∈ front, y ∉ back := fun y hy hmem =>
    hdisjoint y hy y (List.mem_cons_of_mem _ hmem) rfl
  rw [hx, hx', linked_append, Option.or_none, Option.or_none]
  constructor
  · refine (hfront.setNext hnodup _).congr (fun _ _ => rfl) fun y hy => setAt_of_ne fun h => ?_
    exact hboth y hy (List.mem_of_head? h)
  · refine (hback.setPrev hnodup' _).congr (fun y hy => setAt_of_ne fun h => ?_) fun _ _ => rfl
    exact hboth y (List.mem_of_getLast? h) hy

end FirebirdCore.LinkedRow
