import FirebirdCore.Lib.DepthFirst
import FirebirdCore.Lock.Granting
import Mathlib.Data.List.GetD

/-!
# The deadlock scan

A request that has been waiting for some time looks for a circle of requests that wait for each other.
The walk marks the requests that it has seen, leaves out those that wait with a timeout, and does not go
on to owners that have not dealt with their wakeup or their blocking ASTs yet.
-/
namespace FirebirdCore.Lock
open Relation

/-! ## The scan -/

structure LrqFlags where
  deadlock : Bool
  scanned : Bool
  justGranted : Bool
  waitTimeout : Bool
  deriving DecidableEq, Repr

structure OwnFlags where
  scanned : Bool
  wakeup : Bool
  signaled : Bool
  blocks : List ℕ
  deriving DecidableEq, Repr

/-- The lock table with the flags that the scan reads and sets, and the queue of the owners. -/
structure ScanTable extends Table where
  owners : List ℕ
  lrqFlags : ℕ → LrqFlags
  ownFlags : ℕ → OwnFlags
  linked : toTable.Linked
  pendingLinked : toTable.PendingLinked
  listed : ∀ o, (own o).pending ≠ [] → o ∈ owners

namespace ScanTable

def onFlags (s : ScanTable) (r : ℕ) (f : LrqFlags → LrqFlags) : ScanTable :=
  { s with lrqFlags := Function.update s.lrqFlags r (f (s.lrqFlags r)) }

def onOwnFlags (s : ScanTable) (o : ℕ) (f : OwnFlags → OwnFlags) : ScanTable :=
  { s with ownFlags := Function.update s.ownFlags o (f (s.ownFlags o)) }

/-- Clear the marks of the pending requests. -/
def deadlockClear (s : ScanTable) : ScanTable :=
  s.owners.foldl (fun t o => (s.own o).pending.foldl (fun t r => t.onFlags r fun flags => { flags with
    deadlock := false
    scanned := false }) t) s

/-- The owner of the request still has something to process. -/
def undecided (s : ScanTable) (block : ℕ) : Bool :=
  let owner := s.ownFlags (s.lrq block).owner
  owner.signaled || owner.wakeup || !owner.blocks.isEmpty || (s.lrqFlags block).justGranted

def conversion (s : ScanTable) (request : ℕ) : Bool := .null < (s.lrq request).state

/-- The request can be granted together with the other one. -/
def passes (s : ScanTable) (request block : ℕ) : Bool :=
  if s.conversion request then compatibility (s.lrq request).requested (s.lrq block).state
  else compatibility (s.lrq request).requested (max (s.lrq block).state (s.lrq block).requested)

end ScanTable

/-- The table in the middle of a walk, with `maybe_deadlock`. -/
structure Walk extends ScanTable where
  maybeDeadlock : Bool

def Walk.onFlags (w : Walk) (r : ℕ) (f : LrqFlags → LrqFlags) : Walk :=
  { w with toScanTable := w.toScanTable.onFlags r f }

/-- The loop over what the owner of a blocking request waits for. -/
def walkTargets (walk : Walk → ℕ → Option (Walk × Option ℕ)) :
    List ℕ → Walk → Option (Walk × Option ℕ)
  | [], w => some (w, none)
  | target :: rest, w =>
      if (w.lrqFlags target).waitTimeout then walkTargets walk rest w
      else
        match walk w target with
        | none => none
        | some (w, some victim) => some (w, some victim)
        | some (w, none) => walkTargets walk rest w

/-- The loop over the requests of the lock. -/
def walkBlocks (walk : Walk → ℕ → Option (Walk × Option ℕ)) (request : ℕ) :
    List ℕ → Walk → Option (Walk × Option ℕ)
  | [], w => some (w, none)
  | block :: rest, w =>
      if request = block then
        if w.conversion request then walkBlocks walk request rest w else some (w, none)
      else if w.passes request block then walkBlocks walk request rest w
      else if w.undecided block then walkBlocks walk request rest { w with maybeDeadlock := true }
      else
        match walkTargets walk (w.own (w.lrq block).owner).pending w with
        | none => none
        | some (w, some victim) => some (w, some victim)
        | some (w, none) => walkBlocks walk request rest w

/-- `none` when the fuel runs out, else the victim, if there is one. -/
def deadlockWalk : ℕ → Walk → ℕ → Option (Walk × Option ℕ)
  | 0, _, _ => none
  | fuel + 1, w, request =>
      if (w.lrqFlags request).scanned then some (w, none)
      else if (w.lrqFlags request).deadlock then some (w, some request)
      else
        match walkBlocks (deadlockWalk fuel) request (w.lbl (w.lrq request).lock).requests
            (w.onFlags request ({ · with deadlock := true })) with
        | none => none
        | some (w, some victim) => some (w, some victim)
        | some (w, none) => some (w.onFlags request fun flags => { flags with
            deadlock := false
            scanned := true }, none)

structure Scan where
  table : ScanTable
  victim : Option ℕ
  maybeDeadlock : Bool

def deadlockScan (fuel : ℕ) (s : ScanTable) (owner request : ℕ) : Option Scan :=
  match deadlockWalk fuel ⟨s.deadlockClear, false⟩ request with
  | none => none
  | some (w, some victim) => some ⟨w.toScanTable, some victim, w.maybeDeadlock⟩
  | some (w, none) =>
      if w.maybeDeadlock then some ⟨w.toScanTable, none, true⟩
      else some ⟨w.onOwnFlags owner ({ · with scanned := true }), none, false⟩

/-! ## What a request waits for -/

namespace ScanTable

/-- A request that holds more than `LCK_null` is blocked by what the others hold, any other by those in
front of it, by what they hold or ask for. -/
def Blocks (s : ScanTable) (r b : ℕ) : Prop :=
  if .null < (s.lrq r).state then
    b ∈ (s.lbl (s.lrq r).lock).requests ∧ b ≠ r ∧
      ¬ compatibility (s.lrq r).requested (s.lrq b).state
  else
    [b, r].Sublist (s.lbl (s.lrq r).lock).requests ∧
      ¬ compatibility (s.lrq r).requested (max (s.lrq b).state (s.lrq b).requested)

/-- The owner of a request that blocks `p` is waiting for `q` without a timeout. -/
def WaitsFor (s : ScanTable) (p q : ℕ) : Prop :=
  (s.lrq q).live ∧ (s.lrq q).pending ∧ (s.lrqFlags q).waitTimeout = false ∧
    ∃ b, s.Blocks p b ∧ (s.lrq b).owner = (s.lrq q).owner

/-- What the walk does with a request that blocks: `none` stands for an owner that is undecided. -/
def targets (s : ScanTable) (block : ℕ) : List (Option ℕ) :=
  if s.undecided block then [none]
  else ((s.own (s.lrq block).owner).pending.filter fun r => !(s.lrqFlags r).waitTimeout).map some

/-- The requests that the walk examines. -/
def blocking (s : ScanTable) (request : ℕ) (requests : List ℕ) : List ℕ :=
  (if s.conversion request then requests.filter (· ≠ request)
    else requests.takeWhile (· ≠ request)).filter fun block => !s.passes request block

def next (s : ScanTable) (request : ℕ) : List (Option ℕ) :=
  (s.blocking request (s.lbl (s.lrq request).lock).requests).flatMap s.targets

end ScanTable

/-! ## The walk is a depth first search -/

namespace ScanTable
open DepthFirst

variable {s : ScanTable} {r : ℕ}

/-- The walk in the middle of a search with these marks. -/
def marked (s : ScanTable) (m : Marks ℕ) : Walk where
  toScanTable := { s with
    lrqFlags := fun r =>
      if (s.lrq r).live ∧ (s.lrq r).pending then
        { s.lrqFlags r with
          deadlock := m.onPath r
          scanned := m.finished r }
      else s.lrqFlags r }
  maybeDeadlock := m.skipped

theorem marked_flags (hr : (s.lrq r).live ∧ (s.lrq r).pending) (m : Marks ℕ) :
    (s.marked m).lrqFlags r = { s.lrqFlags r with
      deadlock := m.onPath r
      scanned := m.finished r } :=
  if_pos hr

@[simp] theorem marked_waitTimeout (s : ScanTable) (m : Marks ℕ) (r : ℕ) :
    ((s.marked m).lrqFlags r).waitTimeout = (s.lrqFlags r).waitTimeout := by
  rw [marked]
  dsimp only
  split_ifs <;> rfl

@[simp] theorem marked_undecided (s : ScanTable) (m : Marks ℕ) (block : ℕ) :
    (s.marked m).undecided block = s.undecided block := by
  have hjustGranted : ((s.marked m).lrqFlags block).justGranted = (s.lrqFlags block).justGranted := by
    rw [marked]
    dsimp only
    split_ifs <;> rfl
  rw [undecided, undecided, hjustGranted]
  rfl

theorem marked_onFlags {m m' : Marks ℕ}
    {f : LrqFlags → LrqFlags} (hskipped : m'.skipped = m.skipped)
    (hother : ∀ x, x ≠ r → m'.onPath x = m.onPath x ∧ m'.finished x = m.finished x)
    (hself : f ((s.marked m).lrqFlags r) = (s.marked m').lrqFlags r) :
    (s.marked m).onFlags r f = s.marked m' := by
  have hflags : Function.update (s.marked m).lrqFlags r (f ((s.marked m).lrqFlags r)) =
      (s.marked m').lrqFlags := by
    funext x
    by_cases hx : x = r
    · rw [hx, Function.update_self, hself]
    · rw [Function.update_of_ne hx]
      simp only [marked, hother x hx]
  rw [Walk.onFlags, onFlags, hflags]
  simp only [marked, hskipped]

theorem marked_enter (hr : (s.lrq r).live ∧ (s.lrq r).pending) (m : Marks ℕ) :
    (s.marked m).onFlags r ({ · with deadlock := true }) = s.marked (m.enter r) := by
  refine marked_onFlags rfl (fun x hx => ?_) ?_
  · simp [hx]
  · simp [marked_flags hr]

theorem marked_leave (hr : (s.lrq r).live ∧ (s.lrq r).pending) (m : Marks ℕ) :
    (s.marked m).onFlags r (fun flags => { flags with
      deadlock := false
      scanned := true }) = s.marked (m.leave r) := by
  refine marked_onFlags rfl (fun x hx => ?_) ?_
  · simp [hx]
  · simp [marked_flags hr]

theorem onFlags_clear_flags (l : List ℕ) (s : ScanTable) :
    (l.foldl (fun t r => t.onFlags r fun flags => { flags with
      deadlock := false
      scanned := false }) s) = { s with
        lrqFlags := fun r => if r ∈ l then { s.lrqFlags r with
          deadlock := false
          scanned := false } else s.lrqFlags r } := by
  induction l generalizing s with
  | nil => simp
  | cons x l ih =>
    rw [List.foldl_cons, ih, onFlags]
    congr 1
    funext r
    by_cases hr : r = x
    · subst hr
      simp
    · simp [hr]

theorem pending_listed (s : ScanTable) (r : ℕ) :
    (∃ o ∈ s.owners, r ∈ (s.own o).pending) ↔ (s.lrq r).live ∧ (s.lrq r).pending := by
  constructor
  · rintro ⟨o, -, hr⟩
    obtain ⟨hlive, -, hpending⟩ := (s.pendingLinked.mem o r).1 hr
    exact ⟨hlive, hpending⟩
  · rintro ⟨hlive, hpending⟩
    have hr := (s.pendingLinked.mem (s.lrq r).owner r).2 ⟨hlive, rfl, hpending⟩
    exact ⟨_, s.listed _ (List.ne_nil_of_mem hr), hr⟩

/-- The scan starts without marks on what is pending, whatever the last one left. -/
theorem deadlockClear_eq (s : ScanTable) : (⟨s.deadlockClear, false⟩ : Walk) = s.marked .empty := by
  rw [deadlockClear, ← List.foldl_flatMap, onFlags_clear_flags, marked]
  congr 2
  funext r
  simp only [List.mem_flatMap, pending_listed, Marks.empty]

/-- The walk as the search does it. -/
def found (s : ScanTable) (result : Marks ℕ × Option ℕ) : Walk × Option ℕ :=
  (s.marked result.1, result.2)

variable {walk : Walk → ℕ → Option (Walk × Option ℕ)}
  {go : Marks ℕ → ℕ → Option (Marks ℕ × Option ℕ)}

theorem walkTargets_eq
    (hgo : ∀ m r, (s.lrq r).live ∧ (s.lrq r).pending → walk (s.marked m) r = (go m r).map s.found)
    {rest : List ℕ} (hrest : ∀ r ∈ rest, (s.lrq r).live ∧ (s.lrq r).pending) (m : Marks ℕ) :
    walkTargets walk rest (s.marked m) =
      (visitAll go ((rest.filter fun r => !(s.lrqFlags r).waitTimeout).map some) m).map s.found := by
  induction rest generalizing m with
  | nil => rfl
  | cons target rest ih =>
    have ih := ih fun r hr => hrest r (List.mem_cons_of_mem _ hr)
    rw [walkTargets, marked_waitTimeout]
    by_cases htimeout : (s.lrqFlags target).waitTimeout
    · rw [if_pos htimeout, List.filter_cons_of_neg (by simp [htimeout]), ih]
    · rw [if_neg htimeout, List.filter_cons_of_pos (by simp [htimeout]), List.map_cons, visitAll,
        hgo m target (hrest _ List.mem_cons_self)]
      rcases go m target with _ | ⟨m', _ | victim⟩
      · rfl
      · exact ih m'
      · rfl

theorem walkBlocks_eq
    (hgo : ∀ m r, (s.lrq r).live ∧ (s.lrq r).pending → walk (s.marked m) r = (go m r).map s.found)
    (request : ℕ) (rest : List ℕ) (m : Marks ℕ) :
    walkBlocks walk request rest (s.marked m) =
      (visitAll go ((s.blocking request rest).flatMap s.targets) m).map s.found := by
  induction rest generalizing m with
  | nil =>
    rw [blocking]
    split_ifs <;> rfl
  | cons block rest ih =>
    have hconversion : (s.marked m).conversion request = s.conversion request := rfl
    have hpasses : (s.marked m).passes request block = s.passes request block := rfl
    rw [walkBlocks, hconversion, hpasses, marked_undecided]
    by_cases hself : request = block
    · subst hself
      rw [if_pos rfl]
      by_cases hconv : s.conversion request
      · rw [if_pos hconv, ih, blocking, blocking, if_pos hconv, if_pos hconv,
          List.filter_cons_of_neg (by simp)]
      · rw [if_neg hconv, blocking, if_neg hconv, List.takeWhile_cons_of_neg (by simp)]
        rfl
    · rw [if_neg hself]
      have hcons : s.blocking request (block :: rest) =
          if s.passes request block then s.blocking request rest
          else block :: s.blocking request rest := by
        have hfilter : (block :: rest).filter (· ≠ request) = block :: rest.filter (· ≠ request) :=
          List.filter_cons_of_pos (by simpa using Ne.symm hself)
        have hwhile : (block :: rest).takeWhile (· ≠ request) =
            block :: rest.takeWhile (· ≠ request) :=
          List.takeWhile_cons_of_pos (by simpa using Ne.symm hself)
        rw [blocking, blocking, hfilter, hwhile]
        split_ifs with hconv hpass hpass <;> simp [hpass]
      rw [hcons]
      by_cases hpass : s.passes request block
      · rw [if_pos hpass, if_pos hpass, ih]
      · rw [if_neg hpass, if_neg hpass, List.flatMap_cons, targets, visitAll_append]
        by_cases hundecided : s.undecided block
        · rw [if_pos hundecided, if_pos hundecided]
          exact ih { m with skipped := true }
        · rw [if_neg hundecided, if_neg hundecided]
          have hpending : ∀ r ∈ (s.own (s.lrq block).owner).pending,
              (s.lrq r).live ∧ (s.lrq r).pending :=
            fun r hr => ⟨((s.pendingLinked.mem _ r).1 hr).1, ((s.pendingLinked.mem _ r).1 hr).2.2⟩
          have htargets := walkTargets_eq hgo hpending m
          change (match walkTargets walk (s.own (s.lrq block).owner).pending (s.marked m) with
            | none => none
            | some (w, some victim) => some (w, some victim)
            | some (w, none) => walkBlocks walk request rest w) = _
          rw [htargets]
          rcases visitAll go _ m with _ | ⟨m', _ | victim⟩
          · rfl
          · exact ih m'
          · rfl

/-- The walk is the search along `next`. -/
theorem deadlockWalk_eq (fuel : ℕ) (s : ScanTable) : ∀ (m : Marks ℕ) (r : ℕ),
    (s.lrq r).live ∧ (s.lrq r).pending →
      deadlockWalk fuel (s.marked m) r = (visit s.next fuel m r).map s.found := by
  induction fuel with
  | zero => intro m r _; rfl
  | succ fuel ih =>
    intro m r hr
    rw [deadlockWalk, visit, marked_flags hr, marked_enter hr]
    dsimp only
    split_ifs with hscanned hdeadlock
    · rfl
    · rfl
    · change (match walkBlocks (deadlockWalk fuel) r (s.lbl (s.lrq r).lock).requests
          (s.marked (m.enter r)) with
        | none => none
        | some (w, some victim) => some (w, some victim)
        | some (w, none) => some (w.onFlags r fun flags => { flags with
            deadlock := false
            scanned := true }, none)) = _
      rw [walkBlocks_eq ih, next]
      rcases visitAll (visit s.next fuel) _ (m.enter r) with _ | ⟨m', _ | victim⟩
      · rfl
      · exact congrArg (fun w => some (w, none)) (marked_leave hr m')
      · rfl

/-! ## What the walk follows -/

theorem mem_takeWhile_ne {l : List ℕ} {b : ℕ} (hnodup : l.Nodup) (hr : r ∈ l) :
    b ∈ l.takeWhile (· ≠ r) ↔ [b, r].Sublist l := by
  obtain ⟨front, back, rfl⟩ := List.append_of_mem hr
  obtain ⟨-, hback, hdisjoint⟩ := List.nodup_append.1 hnodup
  have hfront : r ∉ front := fun hmem => hdisjoint r hmem r List.mem_cons_self rfl
  have htake : (front ++ r :: back).takeWhile (· ≠ r) = front := by
    rw [List.takeWhile_append_of_pos fun x hx => by simpa using ne_of_mem_of_not_mem hx hfront,
      List.takeWhile_cons_of_neg (by simp), List.append_nil]
  rw [htake]
  constructor
  · intro hb
    exact (List.singleton_sublist.2 hb).append (List.singleton_sublist.2 List.mem_cons_self)
  · intro hsub
    obtain ⟨l₁, l₂, hl, h₁, h₂⟩ := List.sublist_append_iff.1 hsub
    rcases l₁ with _ | ⟨x, l₁⟩
    · -- `r` cannot come a second time
      obtain rfl : [b, r] = l₂ := hl
      exact absurd (h₂.tail.subset List.mem_cons_self) (List.nodup_cons.1 hback).1
    · obtain ⟨rfl, -⟩ := List.cons.inj hl
      exact h₁.subset List.mem_cons_self

theorem mem_blocking (hr : (s.lrq r).live) {b : ℕ} :
    b ∈ s.blocking r (s.lbl (s.lrq r).lock).requests ↔ s.Blocks r b := by
  rw [blocking, Blocks, List.mem_filter, passes]
  by_cases hconv : .null < (s.lrq r).state
  · have hconversion : s.conversion r = true := decide_eq_true hconv
    simp [hconversion, hconv, and_assoc]
  · have hconversion : s.conversion r = false := decide_eq_false hconv
    simp only [hconversion, hconv, if_false, Bool.false_eq_true,
      mem_takeWhile_ne (s.linked.lockNodup _) (s.linked.onLock r hr)]
    simp

theorem none_mem_targets {b : ℕ} : none ∈ s.targets b ↔ s.undecided b := by
  rw [targets]
  split_ifs with hundecided <;> simp [hundecided]

theorem some_mem_targets {b q : ℕ} : some q ∈ s.targets b ↔ s.undecided b = false ∧
    (s.lrq q).live ∧ (s.lrq q).owner = (s.lrq b).owner ∧ (s.lrq q).pending ∧
      (s.lrqFlags q).waitTimeout = false := by
  rw [targets]
  split_ifs with hundecided
  · simp [hundecided]
  · simp [hundecided, s.pendingLinked.mem, and_assoc]

theorem none_mem_next (hr : (s.lrq r).live) : none ∈ s.next r ↔ ∃ b, s.Blocks r b ∧ s.undecided b := by
  simp only [next, List.mem_flatMap, mem_blocking hr, none_mem_targets]

theorem edge_waitsFor (hr : (s.lrq r).live) {q : ℕ} (h : Edge s.next r q) : s.WaitsFor r q := by
  obtain ⟨b, hb, hq⟩ := List.mem_flatMap.1 h
  obtain ⟨-, hlive, howner, hpending, htimeout⟩ := some_mem_targets.1 hq
  exact ⟨hlive, hpending, htimeout, b, (mem_blocking hr).1 hb, howner.symm⟩

/-- What the walk does not follow it notes. -/
theorem waitsFor_edge (hr : (s.lrq r).live) {q : ℕ} (h : s.WaitsFor r q) (hwhole : none ∉ s.next r) :
    Edge s.next r q := by
  obtain ⟨hlive, hpending, htimeout, b, hb, howner⟩ := h
  have hundecided : s.undecided b = false :=
    Bool.eq_false_of_not_eq_true fun hundecided => hwhole ((none_mem_next hr).2 ⟨b, hb, hundecided⟩)
  exact List.mem_flatMap.2 ⟨b, (mem_blocking hr).2 hb,
    some_mem_targets.2 ⟨hundecided, hlive, howner.symm, hpending, htimeout⟩⟩

theorem edge_live {q : ℕ} (h : Edge s.next r q) : (s.lrq q).live := by
  obtain ⟨b, -, hq⟩ := List.mem_flatMap.1 h
  exact (some_mem_targets.1 hq).2.1

theorem reach_waitsFor (hr : (s.lrq r).live) {q : ℕ} (h : ReflTransGen (Edge s.next) r q) :
    ReflTransGen s.WaitsFor r q ∧ (s.lrq q).live := by
  induction h with
  | refl => exact ⟨.refl, hr⟩
  | tail _ hedge ih => exact ⟨ih.1.tail (edge_waitsFor ih.2 hedge), edge_live hedge⟩

theorem cycle_waitsFor {q : ℕ} (h : TransGen (Edge s.next) q q) : TransGen s.WaitsFor q q := by
  -- `q` is a target, as it is met again
  obtain ⟨p, -, hedge⟩ := TransGen.tail'_iff.1 h
  have hq := edge_live hedge
  obtain ⟨p', hp', hedge'⟩ := TransGen.tail'_iff.1 h
  exact .tail' (reach_waitsFor hq hp').1 (edge_waitsFor (reach_waitsFor hq hp').2 hedge')

/-- If the walk notes nothing, it can follow every wait. -/
theorem waitsFor_reach (hr : (s.lrq r).live)
    (hwhole : ∀ x, ReflTransGen (Edge s.next) r x → none ∉ s.next x) {q : ℕ}
    (h : ReflTransGen s.WaitsFor r q) : ReflTransGen (Edge s.next) r q := by
  induction h with
  | refl => exact .refl
  | tail _ hwaits ih => exact ih.tail (waitsFor_edge (reach_waitsFor hr ih).2 hwaits (hwhole _ ih))

def pendingRequests (s : ScanTable) : List ℕ := s.owners.flatMap fun o => (s.own o).pending

theorem mem_pendingRequests : r ∈ s.pendingRequests ↔ (s.lrq r).live ∧ (s.lrq r).pending := by
  rw [pendingRequests, List.mem_flatMap, pending_listed]

theorem visit_ends (hr : (s.lrq r).live ∧ (s.lrq r).pending) :
    ∃ result, visit s.next (s.pendingRequests.length + 1) .empty r = some result := by
  refine visit_terminates (s := s.pendingRequests.toFinset) (fun x _ y hedge => ?_) _ _ _
    Marks.empty_good (fun _ hx => absurd hx Bool.false_ne_true)
    (List.mem_toFinset.2 (mem_pendingRequests.2 hr)) ?_
  · obtain ⟨b, -, hy⟩ := List.mem_flatMap.1 hedge
    obtain ⟨-, hlive, -, hpending, -⟩ := some_mem_targets.1 hy
    exact List.mem_toFinset.2 (mem_pendingRequests.2 ⟨hlive, hpending⟩)
  · exact Nat.lt_succ_of_le ((Finset.card_filter_le _ _).trans (List.toFinset_card_le _))

end ScanTable

def freeRequest : Lrq := ⟨false, .none, .none, false, false, 0, ⟨0, []⟩, 0⟩

/-- The table that holds just these requests, each queue in their order. -/
def Table.ofRequests (l : List Lrq) : Table where
  lrq := fun r => l.getD r freeRequest
  lbl := fun res =>
    let requests := (List.range l.length).filter fun r => (l.getD r freeRequest).lock = res
    { live := !requests.isEmpty
      state := requests.foldl (fun s r => max s (l.getD r freeRequest).state) .none
      requests := requests
      data := 0
      pendingLrqCount := .ofNat (requests.countP fun r => (l.getD r freeRequest).pending)
      counts := fun s => .ofNat (requests.countP fun r => (l.getD r freeRequest).state = s) }
  own := fun o =>
    let requests := (List.range l.length).filter fun r => (l.getD r freeRequest).owner = o
    { live := !requests.isEmpty
      requests := requests
      pending := requests.filter fun r => (l.getD r freeRequest).pending }
  dataQue := fun _ => []

/-- Nothing is marked, and all owners are done with their ASTs. -/
def ScanTable.ofRequests (l : List Lrq) (hl : ∀ request ∈ l, request.live) : ScanTable where
  toTable := .ofRequests l
  owners := l.map (·.owner)
  lrqFlags := fun _ => ⟨false, false, false, false⟩
  ownFlags := fun _ => ⟨false, false, false, []⟩
  linked := by
    have hlive : ∀ r, (l.getD r freeRequest).live ↔ r < l.length := by
      intro r
      by_cases hr : r < l.length
      · simpa [List.getD_eq_getElem _ _ hr, hr] using hl _ (List.getElem_mem hr)
      · simp [hr, freeRequest]
    refine ⟨fun r hr => ?_, fun r hr => ?_, fun res r hr => ?_, fun o r hr => ?_, fun res => ?_,
      fun o => ?_, fun res => ?_, fun o => ?_⟩
    · simpa [Table.ofRequests] using (hlive r).1 hr
    · simpa [Table.ofRequests] using (hlive r).1 hr
    · simpa [Table.ofRequests, ← hlive] using hr
    · simpa [Table.ofRequests, ← hlive] using hr
    · exact List.nodup_range.filter _
    · exact List.nodup_range.filter _
    · simp [Table.ofRequests]
    · simp [Table.ofRequests]
  pendingLinked := by
    refine ⟨fun o r => ?_, fun o => (List.nodup_range.filter _).filter _⟩
    by_cases hr : r < l.length
    · have hlive := hl _ (List.getElem_mem hr)
      simp [Table.ofRequests, hr, hlive, and_comm]
    · simp [Table.ofRequests, hr, freeRequest]
  listed := by
    intro o ho
    obtain ⟨r, hr⟩ := List.exists_mem_of_ne_nil _ ho
    simp only [Table.ofRequests, List.mem_filter, List.mem_range, decide_eq_true_eq] at hr
    rw [← hr.1.2, List.getD_eq_getElem _ _ hr.1.1]
    exact List.mem_map_of_mem (List.getElem_mem _)

def resourceA : Resource := ⟨1, [7]⟩

def resourceB : Resource := ⟨1, [8]⟩

/-- Two owners that wait for each other. -/
def circle : List Lrq :=
  [⟨true, .EX, .EX, false, false, 0, resourceA, 0⟩, ⟨true, .EX, .EX, false, false, 1, resourceB, 0⟩,
    ⟨true, .SR, .none, true, false, 0, resourceB, 0⟩, ⟨true, .SR, .none, true, false, 1, resourceA, 0⟩]

theorem circle_live : ∀ request ∈ circle, request.live := by decide

/-- Waiting for everything granted that is incompatible, and for what is pending in front. -/
def ScanTable.Awaits (s : ScanTable) (p q : ℕ) : Prop :=
  (s.lrq q).live ∧ (s.lrq q).pending ∧ (s.lrqFlags q).waitTimeout = false ∧
    ∃ b, b ≠ p ∧ (s.lrq b).owner = (s.lrq q).owner ∧
      (b ∈ (s.lbl (s.lrq p).lock).requests ∧ ¬ compatibility (s.lrq p).requested (s.lrq b).state ∨
        [b, p].Sublist (s.lbl (s.lrq p).lock).requests ∧ (s.lrq b).pending ∧
          ¬ compatibility (s.lrq p).requested (s.lrq b).requested)

/-- Two conversions and a third owner. `post_pending` stops at the first of the two. -/
def conversions : List Lrq :=
  [⟨true, .EX, .SR, true, false, 0, resourceA, 0⟩, ⟨true, .PR, .SR, true, false, 1, resourceA, 0⟩,
    ⟨true, .SW, .SW, false, false, 2, resourceA, 0⟩]

/-- Owner 0 holds `LCK_null` in front of what owner 1 has been granted, and converts it. -/
def nullConversion : List Lrq :=
  [⟨true, .EX, .null, true, false, 0, resourceA, 0⟩, ⟨true, .EX, .EX, false, false, 1, resourceA, 0⟩,
    ⟨true, .EX, .EX, false, false, 0, resourceB, 0⟩, ⟨true, .EX, .none, true, false, 1, resourceB, 0⟩]

theorem conversions_live : ∀ request ∈ conversions, request.live := by decide

theorem nullConversion_live : ∀ request ∈ nullConversion, request.live := by decide

theorem scan_result {fuel o r : ℕ} {s : ScanTable} {victim : Option ℕ} {maybe : Bool}
    (h : (deadlockScan fuel s o r).map (fun scan => (scan.victim, scan.maybeDeadlock)) =
      some (victim, maybe)) :
    ∃ scan, deadlockScan fuel s o r = some scan ∧ scan.victim = victim ∧ scan.maybeDeadlock = maybe := by
  obtain ⟨scan, hscan, heq⟩ := Option.map_eq_some_iff.1 h
  obtain ⟨hvictim, hmaybe⟩ := Prod.mk.inj heq
  exact ⟨scan, hscan, hvictim, hmaybe⟩

end FirebirdCore.Lock
