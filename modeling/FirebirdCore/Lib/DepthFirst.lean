import Mathlib.Data.Finset.Card
import Mathlib.Data.Finset.Filter
import Mathlib.Logic.Relation

/-!
# Depth first search for a cycle

The successors of a vertex are a list in which `none` stands for one that is not pursued. The search
marks the vertices of its path and those it has finished. It ends with a vertex that it meets again on
the path, which then lies on a cycle, or with none: if nothing was skipped, the start lies on no cycle.
-/
namespace FirebirdCore.DepthFirst
open Relation

variable {α : Type*}

structure Marks (α : Type*) where
  onPath : α → Bool
  finished : α → Bool
  skipped : Bool

def Marks.empty : Marks α := ⟨fun _ => false, fun _ => false, false⟩

section
variable [DecidableEq α]

def Marks.enter (m : Marks α) (a : α) : Marks α :=
  { m with onPath := Function.update m.onPath a true }

def Marks.leave (m : Marks α) (a : α) : Marks α :=
  { m with
    onPath := Function.update m.onPath a false
    finished := Function.update m.finished a true }

@[simp] theorem Marks.enter_onPath (m : Marks α) (a : α) :
    (m.enter a).onPath = Function.update m.onPath a true := rfl

@[simp] theorem Marks.enter_finished (m : Marks α) (a : α) : (m.enter a).finished = m.finished := rfl

@[simp] theorem Marks.leave_onPath (m : Marks α) (a : α) :
    (m.leave a).onPath = Function.update m.onPath a false := rfl

@[simp] theorem Marks.leave_finished (m : Marks α) (a : α) :
    (m.leave a).finished = Function.update m.finished a true := rfl

end

/-- Visit the successors in turn until one ends the search. -/
def visitAll (visit : Marks α → α → Option (Marks α × Option α)) :
    List (Option α) → Marks α → Option (Marks α × Option α)
  | [], m => some (m, none)
  | none :: rest, m => visitAll visit rest { m with skipped := true }
  | some b :: rest, m =>
      match visit m b with
      | none => none
      | some (m, some v) => some (m, some v)
      | some (m, none) => visitAll visit rest m

/-- `none` when the fuel runs out. -/
def visit [DecidableEq α] (next : α → List (Option α)) : ℕ → Marks α → α → Option (Marks α × Option α)
  | 0, _, _ => none
  | fuel + 1, m, a =>
      if m.finished a then some (m, none)
      else if m.onPath a then some (m, some a)
      else
        match visitAll (visit next fuel) (next a) (m.enter a) with
        | none => none
        | some (m, some v) => some (m, some v)
        | some (m, none) => some (m.leave a, none)

theorem visitAll_append (visit : Marks α → α → Option (Marks α × Option α)) (l rest : List (Option α))
    (m : Marks α) : visitAll visit (l ++ rest) m =
      match visitAll visit l m with
      | none => none
      | some (m, some v) => some (m, some v)
      | some (m, none) => visitAll visit rest m := by
  induction l generalizing m with
  | nil => rfl
  | cons x l ih =>
    cases x with
    | none => exact ih _
    | some b =>
      rw [List.cons_append, visitAll, visitAll]
      rcases visit m b with _ | ⟨m, _ | v⟩
      · rfl
      · exact ih m
      · rfl

section
variable {next : α → List (Option α)} {m m' : Marks α} {a b : α} {v : Option α}

def Edge (next : α → List (Option α)) (a b : α) : Prop := some b ∈ next a

/-- No cycle goes through what is finished, unless something was skipped. -/
structure Marks.Good (next : α → List (Option α)) (m : Marks α) : Prop where
  disjoint : ∀ x, m.finished x → m.onPath x = false
  closed : m.skipped = false → ∀ x y, m.finished x → Edge next x y → m.finished y
  acyclic : m.skipped = false → ∀ x, m.finished x → ¬ TransGen (Edge next) x x
  whole : m.skipped = false → ∀ x, m.finished x → none ∉ next x

/-- What is finished is closed under longer walks as well. -/
theorem Marks.Good.closed_trans (h : m.Good next) (hskipped : m.skipped = false)
    (ha : m.finished a) (hab : ReflTransGen (Edge next) a b) : m.finished b := by
  induction hab with
  | refl => exact ha
  | tail _ hedge ih => exact h.closed hskipped _ _ ih hedge

theorem Marks.empty_good : (Marks.empty : Marks α).Good next :=
  ⟨fun _ h => absurd h Bool.false_ne_true, fun _ _ _ h => absurd h Bool.false_ne_true,
    fun _ _ h => absurd h Bool.false_ne_true, fun _ _ h => absurd h Bool.false_ne_true⟩

theorem Marks.Good.skip (h : m.Good next) : Marks.Good next { m with skipped := true } :=
  ⟨h.disjoint, fun hskipped => absurd hskipped (by simp), fun hskipped => absurd hskipped (by simp),
    fun hskipped => absurd hskipped (by simp)⟩

/-- What a visit of `a` does. -/
structure Visited (next : α → List (Option α)) (m : Marks α) (a : α) (m' : Marks α) (v : Option α) :
    Prop where
  cycle : ∀ w ∈ v, TransGen (Edge next) w w
  good : v = none → m'.Good next
  onPath : v = none → m'.onPath = m.onPath
  finished : v = none → ∀ x, m.finished x → m'.finished x
  self : v = none → m'.finished a
  skips : m'.skipped → m.skipped ∨ ∃ x, ReflTransGen (Edge next) a x ∧ none ∈ next x
  keeps : m.skipped → m'.skipped

/-- What visiting some of the successors of `a` does. -/
structure VisitedAll (next : α → List (Option α)) (m : Marks α) (a : α) (rest : List (Option α))
    (m' : Marks α) (v : Option α) : Prop where
  cycle : ∀ w ∈ v, TransGen (Edge next) w w
  good : v = none → m'.Good next
  onPath : v = none → m'.onPath = m.onPath
  finished : v = none → ∀ x, m.finished x → m'.finished x
  all : v = none → ∀ b, some b ∈ rest → m'.finished b
  notes : v = none → none ∈ rest → m'.skipped
  skips : m'.skipped → m.skipped ∨ ∃ x, ReflTransGen (Edge next) a x ∧ none ∈ next x
  keeps : m.skipped → m'.skipped

/-- Every vertex of the path leads to `a`. -/
def Leads (next : α → List (Option α)) (m : Marks α) (a : α) : Prop :=
  ∀ x, m.onPath x → TransGen (Edge next) x a

theorem Leads.edge (h : ∀ x, m.onPath x → ReflTransGen (Edge next) x a) (hb : Edge next a b) :
    Leads next m b :=
  fun x hx => TransGen.tail' (h x hx) hb

theorem visitAll_spec {go : Marks α → α → Option (Marks α × Option α)}
    (hgo : ∀ m b m' v, m.Good next → Leads next m b → go m b = some (m', v) → Visited next m b m' v)
    {rest : List (Option α)} (hrest : ∀ s ∈ rest, s ∈ next a) (hgood : m.Good next)
    (hpath : ∀ x, m.onPath x → ReflTransGen (Edge next) x a)
    (hvisit : visitAll go rest m = some (m', v)) : VisitedAll next m a rest m' v := by
  induction rest generalizing m with
  | nil =>
    obtain ⟨rfl, rfl⟩ := Prod.mk.inj (Option.some.inj hvisit)
    exact ⟨by simp, fun _ => hgood, fun _ => rfl, fun _ _ hx => hx, by simp, by simp, .inl, id⟩
  | cons s rest ih =>
    have hrest' : ∀ s ∈ rest, s ∈ next a := fun s hs => hrest s (List.mem_cons_of_mem _ hs)
    cases s with
    | none =>
      have h := ih hrest' hgood.skip hpath hvisit
      refine ⟨h.cycle, h.good, h.onPath, h.finished, fun hv b hb => ?_, fun _ _ => h.keeps rfl,
        fun _ => ?_, fun _ => h.keeps rfl⟩
      · exact h.all hv b ((List.mem_cons.1 hb).resolve_left (by simp))
      · exact .inr ⟨a, .refl, hrest _ List.mem_cons_self⟩
    | some b =>
      have hedge : Edge next a b := hrest _ List.mem_cons_self
      rw [visitAll] at hvisit
      -- a skipped successor that `b` leads to
      have hreach : ∀ {x}, ReflTransGen (Edge next) b x → ReflTransGen (Edge next) a x :=
        fun hx => .head hedge hx
      cases hb : go m b with
      | none => simp [hb] at hvisit
      | some result =>
        obtain ⟨mid, w⟩ := result
        have hvisited := hgo m b mid w hgood (Leads.edge hpath hedge) hb
        cases w with
        | some w =>
          simp only [hb] at hvisit
          obtain ⟨rfl, rfl⟩ := Prod.mk.inj (Option.some.inj hvisit)
          refine ⟨hvisited.cycle, by simp, by simp, by simp, by simp, by simp, fun hskipped => ?_,
            hvisited.keeps⟩
          exact (hvisited.skips hskipped).imp_right fun ⟨x, hx, hnone⟩ => ⟨x, hreach hx, hnone⟩
        | none =>
          simp only [hb] at hvisit
          have h := ih hrest' (hvisited.good rfl)
            (fun x hx => hpath x (by rwa [hvisited.onPath rfl] at hx)) hvisit
          refine ⟨h.cycle, h.good, fun hv => (h.onPath hv).trans (hvisited.onPath rfl),
            fun hv x hx => h.finished hv x (hvisited.finished rfl x hx), fun hv c hc => ?_,
            fun hv hnone => h.notes hv ((List.mem_cons.1 hnone).resolve_left (by simp)), fun hskipped => ?_, fun hskipped => h.keeps (hvisited.keeps hskipped)⟩
          · rcases List.mem_cons.1 hc with hc | hc
            · exact h.finished hv c (Option.some.inj hc ▸ hvisited.self rfl)
            · exact h.all hv c hc
          · rcases h.skips hskipped with hmid | hx
            · exact (hvisited.skips hmid).imp_right fun ⟨x, hx, hnone⟩ => ⟨x, hreach hx, hnone⟩
            · exact .inr hx

/-- The vertices that are neither on the path nor finished. -/
def Marks.fresh (m : Marks α) (s : Finset α) : Finset α :=
  s.filter fun x => m.onPath x = false ∧ m.finished x = false

theorem Visited.fresh_subset (h : Visited next m a m' none) (s : Finset α) : m'.fresh s ⊆ m.fresh s := by
  intro x hx
  obtain ⟨hs, honPath, hfinished⟩ := Finset.mem_filter.1 hx
  refine Finset.mem_filter.2 ⟨hs, by rwa [h.onPath rfl] at honPath, ?_⟩
  by_contra hx
  rw [h.finished rfl x (Bool.eq_true_of_not_eq_false hx)] at hfinished
  exact absurd hfinished (by simp)

theorem visitAll_mono {go go' : Marks α → α → Option (Marks α × Option α)}
    (hgo : ∀ m a result, go m a = some result → go' m a = some result) {rest : List (Option α)}
    {result : Marks α × Option α} (h : visitAll go rest m = some result) :
    visitAll go' rest m = some result := by
  induction rest generalizing m with
  | nil => exact h
  | cons x rest ih =>
    cases x with
    | none => exact ih h
    | some b =>
      rw [visitAll] at h ⊢
      cases hb : go m b with
      | none => simp [hb] at h
      | some mid =>
        rw [hgo m b mid hb]
        obtain ⟨mid, w⟩ := mid
        simp only [hb] at h
        cases w with
        | some w => exact h
        | none => exact ih h

variable [DecidableEq α]

theorem Marks.Good.enter (h : m.Good next) (ha : m.finished a = false) : (m.enter a).Good next := by
  refine ⟨fun x hx => ?_, h.closed, h.acyclic, h.whole⟩
  have hne : x ≠ a := by
    rintro rfl
    exact absurd hx (by simp [ha])
  rw [Marks.enter_onPath, Function.update_of_ne hne]
  exact h.disjoint x hx

/-- A vertex can be finished when all its successors are. -/
theorem Marks.Good.leave (h : m.Good next) (ha : m.onPath a)
    (hnext : m.skipped = false → ∀ b, Edge next a b → m.finished b)
    (hwhole : m.skipped = false → none ∉ next a) : (m.leave a).Good next := by
  have hfinished : ∀ x, (m.leave a).finished x ↔ x = a ∨ m.finished x := by
    intro x
    by_cases hx : x = a
    · simp [hx]
    · simp [hx]
  refine ⟨fun x hx => ?_, fun hskipped x y hx hxy => ?_, fun hskipped x hx hcycle => ?_,
    fun hskipped x hx => ?_⟩
  · by_cases hxa : x = a
    · simp [hxa]
    · rw [Marks.leave_onPath, Function.update_of_ne hxa]
      exact h.disjoint x (((hfinished x).1 hx).resolve_left hxa)
  · rcases (hfinished x).1 hx with rfl | hx
    · exact (hfinished y).2 (.inr (hnext hskipped y hxy))
    · exact (hfinished y).2 (.inr (h.closed hskipped x y hx hxy))
  · rcases (hfinished x).1 hx with rfl | hx
    · -- the cycle comes back to `x` through what is finished, and `x` was still on the path
      obtain ⟨b, hxb, hbx⟩ := TransGen.head'_iff.1 hcycle
      have hself := h.closed_trans hskipped (hnext hskipped b hxb) hbx
      rw [h.disjoint x hself] at ha
      exact absurd ha Bool.false_ne_true
    · exact h.acyclic hskipped x hx hcycle
  · rcases (hfinished x).1 hx with rfl | hx
    · exact hwhole hskipped
    · exact h.whole hskipped x hx

theorem visit_spec (fuel : ℕ) : ∀ (m : Marks α) (a : α) (m' : Marks α) (v : Option α),
    m.Good next → Leads next m a → visit next fuel m a = some (m', v) → Visited next m a m' v := by
  induction fuel with
  | zero => intro m a m' v _ _ hvisit; cases hvisit
  | succ fuel ih =>
    intro m a m' v hgood hleads hvisit
    rw [visit] at hvisit
    split_ifs at hvisit with hfinished honPath
    · obtain ⟨rfl, rfl⟩ := Prod.mk.inj (Option.some.inj hvisit)
      exact ⟨by simp, fun _ => hgood, fun _ => rfl, fun _ _ hx => hx, fun _ => hfinished, .inl, id⟩
    · obtain ⟨rfl, rfl⟩ := Prod.mk.inj (Option.some.inj hvisit)
      exact ⟨fun w hw => Option.some.inj hw ▸ hleads a honPath, by simp, by simp, by simp, by simp, .inl,
        id⟩
    · have hfinished := Bool.eq_false_of_not_eq_true hfinished
      have hpath : ∀ x, (m.enter a).onPath x → ReflTransGen (Edge next) x a := by
        intro x hx
        by_cases hxa : x = a
        · rw [hxa]
        · rw [Marks.enter_onPath, Function.update_of_ne hxa] at hx
          exact (hleads x hx).to_reflTransGen
      cases hall : visitAll (visit next fuel) (next a) (m.enter a) with
      | none => simp [hall] at hvisit
      | some result =>
        obtain ⟨mid, w⟩ := result
        have h := visitAll_spec ih (fun _ hs => hs) (hgood.enter hfinished) hpath hall
        cases w with
        | some w =>
          simp only [hall] at hvisit
          obtain ⟨rfl, rfl⟩ := Prod.mk.inj (Option.some.inj hvisit)
          exact ⟨h.cycle, by simp, by simp, by simp, by simp, h.skips, h.keeps⟩
        | none =>
          simp only [hall] at hvisit
          obtain ⟨rfl, rfl⟩ := Prod.mk.inj (Option.some.inj hvisit)
          have hmid : mid.onPath = Function.update m.onPath a true := h.onPath rfl
          refine ⟨by simp, fun _ => (h.good rfl).leave (by rw [hmid, Function.update_self])
            (fun _ => h.all rfl) fun hskipped hnone => ?_, fun _ => ?_, fun _ x hx => ?_, fun _ => ?_, h.skips, h.keeps⟩
          · exact absurd (h.notes rfl hnone) (by rw [hskipped]; exact Bool.false_ne_true)
          · rw [Marks.leave_onPath, hmid, Function.update_idem]
            exact Function.update_eq_self_iff.2 (Bool.eq_false_of_not_eq_true honPath).symm
          · by_cases hxa : x = a
            · simp [hxa]
            · rw [Marks.leave_finished, Function.update_of_ne hxa]
              exact h.finished rfl x hx
          · simp

/-! ## Termination -/

theorem fresh_enter_lt {s : Finset α} (ha : a ∈ s) (honPath : m.onPath a = false)
    (hfinished : m.finished a = false) : ((m.enter a).fresh s).card < (m.fresh s).card := by
  refine Finset.card_lt_card ((Finset.ssubset_iff_of_subset fun x hx => ?_).2
    ⟨a, Finset.mem_filter.2 ⟨ha, honPath, hfinished⟩, fun hmem => ?_⟩)
  · obtain ⟨hs, honPath', hfinished'⟩ := Finset.mem_filter.1 hx
    have hne : x ≠ a := by
      rintro rfl
      simp at honPath'
    rw [Marks.enter_onPath, Function.update_of_ne hne] at honPath'
    exact Finset.mem_filter.2 ⟨hs, honPath', hfinished'⟩
  · simpa using (Finset.mem_filter.1 hmem).2.1

theorem visitAll_terminates {fuel : ℕ} {s : Finset α}
    (hgo : ∀ (m : Marks α) b, m.Good next → Leads next m b → b ∈ s → (m.fresh s).card < fuel →
      ∃ result, visit next fuel m b = some result)
    {rest : List (Option α)} (hrest : ∀ x ∈ rest, x ∈ next a) (hs : ∀ b, some b ∈ rest → b ∈ s)
    (hgood : m.Good next) (hpath : ∀ x, m.onPath x → ReflTransGen (Edge next) x a)
    (hfuel : (m.fresh s).card < fuel) : ∃ result, visitAll (visit next fuel) rest m = some result := by
  induction rest generalizing m with
  | nil => exact ⟨_, rfl⟩
  | cons x rest ih =>
    have hrest' : ∀ x ∈ rest, x ∈ next a := fun x hx => hrest x (List.mem_cons_of_mem _ hx)
    have hs' : ∀ b, some b ∈ rest → b ∈ s := fun b hb => hs b (List.mem_cons_of_mem _ hb)
    cases x with
    | none => exact ih hrest' hs' hgood.skip hpath hfuel
    | some b =>
      have hleads := Leads.edge hpath (hrest _ List.mem_cons_self)
      obtain ⟨⟨mid, w⟩, hb⟩ := hgo m b hgood hleads (hs b List.mem_cons_self) hfuel
      have hvisited := visit_spec fuel m b mid w hgood hleads hb
      rw [visitAll, hb]
      cases w with
      | some w => exact ⟨_, rfl⟩
      | none =>
        refine ih hrest' hs' (hvisited.good rfl) (fun x hx => hpath x ?_) ?_
        · rwa [hvisited.onPath rfl] at hx
        · exact (Finset.card_le_card (hvisited.fresh_subset s)).trans_lt hfuel

/-- The search ends when fewer vertices than the fuel are fresh. -/
theorem visit_terminates {s : Finset α} (hclosed : ∀ x ∈ s, ∀ y, Edge next x y → y ∈ s) (fuel : ℕ) :
    ∀ (m : Marks α) (a : α), m.Good next → Leads next m a → a ∈ s → (m.fresh s).card < fuel →
      ∃ result, visit next fuel m a = some result := by
  induction fuel with
  | zero => intro m a _ _ _ hfuel; exact absurd hfuel (Nat.not_lt_zero _)
  | succ fuel ih =>
    intro m a hgood hleads ha hfuel
    rw [visit]
    split_ifs with hfinished honPath
    · exact ⟨_, rfl⟩
    · exact ⟨_, rfl⟩
    · have hfinished := Bool.eq_false_of_not_eq_true hfinished
      have hfresh := fresh_enter_lt ha (Bool.eq_false_of_not_eq_true honPath) hfinished
      have hpath : ∀ x, (m.enter a).onPath x → ReflTransGen (Edge next) x a := by
        intro x hx
        by_cases hxa : x = a
        · rw [hxa]
        · rw [Marks.enter_onPath, Function.update_of_ne hxa] at hx
          exact (hleads x hx).to_reflTransGen
      obtain ⟨⟨mid, w⟩, hall⟩ := visitAll_terminates ih (fun _ hx => hx) (fun b hb => hclosed a ha b hb)
        (hgood.enter hfinished) hpath (by omega)
      rw [hall]
      cases w with
      | some w => exact ⟨_, rfl⟩
      | none => exact ⟨_, rfl⟩

/-! ## The result does not depend on the fuel -/

theorem visit_mono {fuel fuel' : ℕ} (hfuel : fuel ≤ fuel') : ∀ (m : Marks α) (a : α)
    (result : Marks α × Option α), visit next fuel m a = some result →
      visit next fuel' m a = some result := by
  induction fuel generalizing fuel' with
  | zero => intro m a result h; cases h
  | succ fuel ih =>
    intro m a result h
    obtain ⟨fuel', rfl⟩ := Nat.exists_eq_succ_of_ne_zero (show fuel' ≠ 0 by omega)
    rw [visit] at h ⊢
    split_ifs at h ⊢
    · exact h
    · exact h
    · cases hall : visitAll (visit next fuel) (next a) (m.enter a) with
      | none => simp [hall] at h
      | some mid =>
        rw [visitAll_mono (ih (by omega)) hall]
        simpa [hall] using h

/-- A search that starts without marks ends on a cycle, or with none. Then, if it skipped nothing,
nothing that it could reach is skipped and its start lies on no cycle. -/
theorem visit_cycle {fuel : ℕ} (hvisit : visit next fuel .empty a = some (m', v)) :
    (∀ w ∈ v, TransGen (Edge next) w w) ∧
      (v = none → m'.skipped = false → ¬ TransGen (Edge next) a a ∧
        ∀ x, ReflTransGen (Edge next) a x → none ∉ next x) ∧
        (m'.skipped → ∃ x, ReflTransGen (Edge next) a x ∧ none ∈ next x) := by
  have h := visit_spec fuel .empty a m' v Marks.empty_good
    (fun _ hx => absurd hx Bool.false_ne_true) hvisit
  refine ⟨h.cycle, fun hv hskipped => ⟨(h.good hv).acyclic hskipped a (h.self hv), fun x hx => ?_⟩,
    fun hskipped => (h.skips hskipped).resolve_left Bool.false_ne_true⟩
  exact (h.good hv).whole hskipped x ((h.good hv).closed_trans hskipped (h.self hv) hx)

end

end FirebirdCore.DepthFirst
