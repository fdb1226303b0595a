import FirebirdCore.Lock.Table
import FirebirdCore.Lib.Tally

/-!
# The counts of a lock

What the operations on the table change, and for one lock `Lbl.Ok`: its counters and its state are
those of its requests, and what is granted goes together. Granting keeps it when the level asked for
goes with the state computed from the other requests.
-/
namespace FirebirdCore.Lock
open FirebirdCore.Tally

namespace Table

/-! ## What the small operations change -/

@[simp] theorem onLrq_lrq (t : Table) (r : ℕ) (f : Lrq → Lrq) :
    (t.onLrq r f).lrq = Function.update t.lrq r (f (t.lrq r)) := rfl
@[simp] theorem onLrq_lbl (t : Table) (r : ℕ) (f : Lrq → Lrq) : (t.onLrq r f).lbl = t.lbl := rfl
@[simp] theorem onLrq_own (t : Table) (r : ℕ) (f : Lrq → Lrq) : (t.onLrq r f).own = t.own := rfl
@[simp] theorem onLbl_lrq (t : Table) (res : Resource) (f : Lbl → Lbl) :
    (t.onLbl res f).lrq = t.lrq := rfl
@[simp] theorem onLbl_lbl (t : Table) (res : Resource) (f : Lbl → Lbl) :
    (t.onLbl res f).lbl = Function.update t.lbl res (f (t.lbl res)) := rfl
@[simp] theorem onLbl_own (t : Table) (res : Resource) (f : Lbl → Lbl) :
    (t.onLbl res f).own = t.own := rfl
@[simp] theorem onOwn_lrq (t : Table) (o : ℕ) (f : Own → Own) : (t.onOwn o f).lrq = t.lrq := rfl
@[simp] theorem onOwn_lbl (t : Table) (o : ℕ) (f : Own → Own) : (t.onOwn o f).lbl = t.lbl := rfl
@[simp] theorem onOwn_own (t : Table) (o : ℕ) (f : Own → Own) :
    (t.onOwn o f).own = Function.update t.own o (f (t.own o)) := rfl

@[simp] theorem removeDataQue_lrq (t : Table) (res : Resource) :
    (t.removeDataQue res).lrq = t.lrq := rfl
@[simp] theorem removeDataQue_lbl (t : Table) (res : Resource) :
    (t.removeDataQue res).lbl = t.lbl := rfl
@[simp] theorem removeDataQue_own (t : Table) (res : Resource) :
    (t.removeDataQue res).own = t.own := rfl

@[simp] theorem insertDataQue_lrq (t : Table) (res : Resource) :
    (t.insertDataQue res).lrq = t.lrq := by
  rw [insertDataQue]
  split_ifs <;> rfl

@[simp] theorem insertDataQue_lbl (t : Table) (res : Resource) :
    (t.insertDataQue res).lbl = t.lbl := by
  rw [insertDataQue]
  split_ifs <;> rfl

@[simp] theorem insertDataQue_own (t : Table) (res : Resource) :
    (t.insertDataQue res).own = t.own := by
  rw [insertDataQue]
  split_ifs <;> rfl

@[simp] theorem setData_lrq (t : Table) (res : Resource) (data : ℤ) :
    (t.setData res data).lrq = t.lrq := by
  simp [setData]

@[simp] theorem setData_lbl (t : Table) (res : Resource) (data : ℤ) :
    (t.setData res data).lbl =
      Function.update t.lbl res { t.lbl res with data := data } := by
  simp [setData]

@[simp] theorem setData_own (t : Table) (res : Resource) (data : ℤ) :
    (t.setData res data).own = t.own := by
  simp [setData]

end Table

/-! ## What granting changes -/

def Lrq.granted (request : Lrq) : Lrq :=
  { request with
    state := request.requested
    pending := false
    data := 0 }

/-- The counts and the state of the lock after the request was granted. -/
def Lbl.granted (lock : Lbl) (request : Lrq) (data : ℤ) : Lbl :=
  { lock.incr request.requested with
    state := lockState (lock.incr request.requested).counts
    pendingLrqCount := if request.pending then lock.pendingLrqCount - 1 else lock.pendingLrqCount
    data := data }

namespace Table

theorem grant_lrq (t : Table) (r : ℕ) :
    (t.grant r).lrq = Function.update t.lrq r (t.lrq r).granted := by
  refine funext fun x => ?_
  by_cases hx : x = r
  · subst hx
    rw [Function.update_self]
    by_cases hdata : (t.lrq x).data = 0 <;> by_cases hpending : (t.lrq x).pending <;>
      simp [grant, clearPending, hdata, hpending, Lrq.granted]
  · rw [Function.update_of_ne hx]
    by_cases hdata : (t.lrq r).data = 0 <;> by_cases hpending : (t.lrq r).pending <;>
      simp [grant, clearPending, hdata, hpending, hx]

theorem grant_lbl (t : Table) (r : ℕ) : ∃ data, (t.grant r).lbl =
    Function.update t.lbl (t.lrq r).lock ((t.lbl (t.lrq r).lock).granted (t.lrq r) data) := by
  refine ⟨if (t.lrq r).data = 0 then (t.lbl (t.lrq r).lock).data else (t.lrq r).data, ?_⟩
  by_cases hdata : (t.lrq r).data = 0 <;> by_cases hpending : (t.lrq r).pending <;>
    simp [grant, clearPending, hdata, hpending, Lbl.granted, Lbl.incr]

theorem grant_own (t : Table) (r : ℕ) :
    (t.grant r).own = if (t.lrq r).pending then Function.update t.own (t.lrq r).owner
      { t.own (t.lrq r).owner with pending := (t.own (t.lrq r).owner).pending.erase r }
      else t.own := by
  by_cases hdata : (t.lrq r).data = 0 <;> by_cases hpending : (t.lrq r).pending <;>
    simp [grant, clearPending, hdata, hpending]

end Table

/-! ## One lock -/

theorem ofNat_eq_zero {n : ℕ} (h : n < 2 ^ 16) : UInt16.ofNat n = 0 ↔ n = 0 := by
  rw [← UInt16.toNat_inj, UInt16.toNat_ofNat']
  simp only [UInt16.toNat_zero]
  omega

theorem ofNat_succ_sub_one (n : ℕ) : UInt16.ofNat (n + 1) - 1 = UInt16.ofNat n := by
  rw [UInt16.ofNat_add]
  simp

theorem lockState_eq_none {counts : Level → UInt16} :
    lockState counts = .none ↔ ∀ s, s ≠ .none → counts s = 0 := by
  constructor
  · intro h s hs
    rw [lockState] at h
    split_ifs at h
    cases s <;> simp_all
  · intro h
    simp [lockState, h]

theorem lockState_ne_zero {counts : Level → UInt16} (h : lockState counts ≠ .none) :
    counts (lockState counts) ≠ 0 := by
  rw [lockState] at h ⊢
  split_ifs at h ⊢ <;> simp_all

/-- No level above the state of the lock is held. -/
theorem le_lockState {counts : Level → UInt16} {s : Level} (hs : s ≠ .none) (h : counts s ≠ 0) :
    s ≤ lockState counts := by
  rw [lockState]
  split_ifs <;> cases s <;> simp_all <;> decide

/-- The state depends only on which counts are zero. -/
theorem lockState_congr {counts counts' : Level → UInt16}
    (h : ∀ s, s ≠ .none → (counts s = 0 ↔ counts' s = 0)) : lockState counts = lockState counts' := by
  simp only [lockState, ne_eq, h .EX (by decide), h .PW (by decide), h .SW (by decide),
    h .PR (by decide), h .SR (by decide), h .null (by decide)]

namespace Lbl

/-- Requests that hold or ask for a level. -/
def claims (lock : Lbl) (lrq : ℕ → Lrq) (s : Level) : ℕ :=
  lock.requests.countP fun r => (lrq r).state = s ∨ (lrq r).requested = s

def pendingRequests (lock : Lbl) (lrq : ℕ → Lrq) : ℕ :=
  lock.requests.countP fun r => (lrq r).pending = true

/-- One more request may hold or ask for the level. -/
def Room (lock : Lbl) (lrq : ℕ → Lrq) (s : Level) : Prop :=
  s ≠ .none → lock.claims lrq s + 1 < 2 ^ 16

/-- One more request may be pending. -/
def PendingRoom (lock : Lbl) (lrq : ℕ → Lrq) : Prop := lock.pendingRequests lrq + 1 < 2 ^ 16

/-- What does not depend on the counts. -/
structure Steady (lock : Lbl) (lrq : ℕ → Lrq) : Prop where
  pendingCount : lock.pendingLrqCount = UInt16.ofNat (lock.pendingRequests lrq)
  pendingFits : lock.pendingRequests lrq < 2 ^ 16
  claimsFit : ∀ s, s ≠ .none → lock.claims lrq s < 2 ^ 16
  compatible : ∀ a ∈ lock.requests, ∀ b ∈ lock.requests, a ≠ b →
    compatibility (lrq a).state (lrq b).state

/-- The counts are those of the requests other than `r`. -/
def CountedBut (lock : Lbl) (lrq : ℕ → Lrq) (r : ℕ) : Prop :=
  ∀ s, s ≠ .none → lock.counts s = UInt16.ofNat (others (fun x => (lrq x).state = s) r lock.requests)

structure Ok (lock : Lbl) (lrq : ℕ → Lrq) : Prop extends Steady lock lrq where
  counted : ∀ s, s ≠ .none →
    lock.counts s = UInt16.ofNat (lock.requests.countP fun x => (lrq x).state = s)
  stateEq : lock.state = lockState lock.counts

section
variable {lock lock' : Lbl} {lrq lrq' : ℕ → Lrq} {r : ℕ}

theorem Steady.others_lt (h : lock.Steady lrq) {s : Level} (hs : s ≠ .none) :
    others (fun x => (lrq x).state = s) r lock.requests < 2 ^ 16 :=
  (others_le.trans (List.countP_mono_left fun x _ hx => by
    simp only [decide_eq_true_eq] at hx ⊢
    exact Or.inl hx)).trans_lt (h.claimsFit s hs)

theorem Steady.held_lt (h : lock.Steady lrq) {s : Level} (hs : s ≠ .none) :
    (lock.requests.countP fun x => (lrq x).state = s) < 2 ^ 16 :=
  (List.countP_mono_left fun x _ hx => by
    simp only [decide_eq_true_eq] at hx ⊢
    exact Or.inl hx).trans_lt (h.claimsFit s hs)

/-- Leaving the request itself out of the counts. -/
theorem Ok.countedBut (h : lock.Ok lrq) (hr : r ∈ lock.requests) (hnodup : lock.requests.Nodup) :
    (lock.decr (lrq r).state).CountedBut lrq r := by
  intro s hs
  have hcount := h.counted s hs
  rw [countP_eq_others hr hnodup] at hcount
  by_cases hstate : (lrq r).state = s
  · rw [if_pos hstate] at hcount
    show Function.update lock.counts (lrq r).state _ s = _
    rw [hstate, Function.update_self, hcount, ofNat_succ_sub_one]
    rfl
  · rw [if_neg hstate, Nat.add_zero] at hcount
    show Function.update lock.counts (lrq r).state _ s = _
    rw [Function.update_of_ne (Ne.symm hstate), hcount]
    rfl

/-- A request that holds nothing is not counted. -/
theorem Ok.countedBut_of_none (h : lock.Ok lrq) (hr : r ∈ lock.requests)
    (hnodup : lock.requests.Nodup) (hnone : (lrq r).state = .none) : lock.CountedBut lrq r := by
  intro s hs
  rw [h.counted s hs, countP_eq_others hr hnodup, if_neg (by rw [hnone]; exact Ne.symm hs),
    Nat.add_zero]

theorem decr_incr (lock : Lbl) (s : Level) : (lock.decr s).incr s = lock := by
  simp [decr, incr]

/-- What goes with the state computed from the others goes with each of them. -/
theorem compatible_of_lockState (h : lock.Steady lrq) (hcounted : lock.CountedBut lrq r)
    {requested : Level} (hcompat : compatibility requested (lockState lock.counts)) {x : ℕ}
    (hx : x ∈ lock.requests) (hne : x ≠ r) : compatibility requested (lrq x).state := by
  by_cases hnone : (lrq x).state = .none
  · rw [hnone]
    exact compatibility_none requested
  have hle : (lrq x).state ≤ lockState lock.counts := by
    refine le_lockState hnone ?_
    rw [hcounted _ hnone, Ne, ofNat_eq_zero (h.others_lt hnone)]
    have hpos : 0 < others (fun y => (lrq y).state = (lrq x).state) r lock.requests :=
      others_pos hx hne rfl
    omega
  -- The highest level is held by another request than `r`.
  have hhighest : lockState lock.counts ≠ .none := by
    intro hzero
    rw [hzero] at hle
    exact hnone (le_antisymm hle (by cases (lrq x).state <;> decide))
  have hcount := lockState_ne_zero hhighest
  rw [hcounted _ hhighest, Ne, ofNat_eq_zero (h.others_lt hhighest)] at hcount
  obtain ⟨y, hy, hheld⟩ := List.countP_pos_iff.1 (Nat.pos_of_ne_zero hcount)
  simp only [decide_eq_true_eq] at hheld
  by_cases hxy : x = y
  · rw [hxy, hheld.2]
    exact hcompat
  · refine compatibility_of_highest hcompat hle ?_
    rw [← hheld.2]
    exact h.compatible x hx y hy hxy

theorem granted_ok (h : lock.Steady lrq) (hcounted : lock.CountedBut lrq r)
    (hr : r ∈ lock.requests) (hnodup : lock.requests.Nodup)
    (hcompat : compatibility (lrq r).requested (lockState lock.counts)) (data : ℤ) :
    (lock.granted (lrq r) data).Ok (Function.update lrq r (lrq r).granted) := by
  have hother : ∀ x, x ≠ r → Function.update lrq r (lrq r).granted x = lrq x :=
    fun x hx => Function.update_of_ne hx _ _
  have hself : Function.update lrq r (lrq r).granted r = (lrq r).granted := Function.update_self ..
  have hpending : (lock.granted (lrq r) data).pendingRequests
      (Function.update lrq r (lrq r).granted) = others (fun x => (lrq x).pending = true) r lock.requests := by
    show lock.requests.countP _ = _
    rw [countP_eq_others hr hnodup, hself, if_neg (by simp [Lrq.granted]), Nat.add_zero]
    exact others_congr fun x _ hx => by rw [hother x hx]
  have hpendingOld : lock.pendingRequests lrq =
      others (fun x => (lrq x).pending = true) r lock.requests + if (lrq r).pending then 1 else 0 :=
    countP_eq_others hr hnodup
  have hcompatOther : ∀ x ∈ lock.requests, x ≠ r →
      compatibility (lrq r).requested (lrq x).state :=
    fun x hx hne => compatible_of_lockState h hcounted hcompat hx hne
  refine ⟨⟨?_, ?_, fun s hs => ?_, fun a ha b hb hab => ?_⟩, fun s hs => ?_, rfl⟩
  · rw [hpending]
    show (if (lrq r).pending then lock.pendingLrqCount - 1 else lock.pendingLrqCount) = _
    rw [h.pendingCount, hpendingOld]
    by_cases hp : (lrq r).pending
    · rw [if_pos hp, if_pos hp, ofNat_succ_sub_one]
    · rw [if_neg hp, if_neg hp, Nat.add_zero]
  · have hlt := h.pendingFits
    rw [hpending]
    omega
  · refine lt_of_le_of_lt ?_ (h.claimsFit s hs)
    show lock.requests.countP _ ≤ lock.requests.countP _
    refine List.countP_mono_left fun x _ hx => ?_
    simp only [decide_eq_true_eq] at hx ⊢
    by_cases hxr : x = r
    · subst hxr
      rw [hself] at hx
      exact Or.inr (or_self_iff.1 hx)
    · rwa [hother x hxr] at hx
  · by_cases har : a = r
    · subst har
      rw [hself, hother b (Ne.symm hab)]
      exact hcompatOther b hb (Ne.symm hab)
    · rw [hother a har]
      by_cases hbr : b = r
      · subst hbr
        rw [hself, compatibility_comm]
        exact hcompatOther a ha hab
      · rw [hother b hbr]
        exact h.compatible a ha b hb hab
  · show Function.update lock.counts (lrq r).requested _ s = UInt16.ofNat (lock.requests.countP _)
    have hsame : others (fun x => (Function.update lrq r (lrq r).granted x).state = s) r
        lock.requests = others (fun x => (lrq x).state = s) r lock.requests :=
      others_congr fun x _ hx => by rw [hother x hx]
    rw [countP_eq_others hr hnodup, hsame, hself]
    by_cases hlevel : (lrq r).requested = s
    · have hgranted : (lrq r).granted.state = s := hlevel
      rw [← hlevel, Function.update_self, hlevel, hcounted s hs, if_pos hgranted, UInt16.ofNat_add]
      rfl
    · have hgranted : (lrq r).granted.state ≠ s := hlevel
      rw [Function.update_of_ne (Ne.symm hlevel), hcounted s hs, if_neg hgranted, Nat.add_zero]

/-- A request leaves the lock. -/
theorem Ok.erased (h : lock.Ok lrq) (hr : r ∈ lock.requests) (hnodup : lock.requests.Nodup)
    (hrequests : lock'.requests = lock.requests.erase r)
    (hpendingCount : lock'.pendingLrqCount =
      if (lrq r).pending then lock.pendingLrqCount - 1 else lock.pendingLrqCount)
    (hcounts : ∀ s, s ≠ .none →
      lock'.counts s = UInt16.ofNat (others (fun x => (lrq x).state = s) r lock.requests))
    (hstate : lock'.state = lockState lock'.counts) (hlrq : ∀ x, x ≠ r → lrq' x = lrq x) :
    lock'.Ok lrq' := by
  have hpendingNew : lock'.pendingRequests lrq' =
      others (fun x => (lrq x).pending = true) r lock.requests := by
    rw [pendingRequests, hrequests, countP_erase hnodup]
    exact others_congr fun x _ hx => by rw [hlrq x hx]
  have hpendingOld : lock.pendingRequests lrq =
      others (fun x => (lrq x).pending = true) r lock.requests + if (lrq r).pending then 1 else 0 :=
    countP_eq_others hr hnodup
  refine ⟨⟨?_, ?_, fun s hs => ?_, fun a ha b hb hab => ?_⟩, fun s hs => ?_, hstate⟩
  · rw [hpendingCount, hpendingNew, h.pendingCount, hpendingOld]
    by_cases hp : (lrq r).pending
    · rw [if_pos hp, if_pos hp, ofNat_succ_sub_one]
    · rw [if_neg hp, if_neg hp, Nat.add_zero]
  · have hlt := h.pendingFits
    rw [hpendingNew]
    omega
  · have hclaims : lock'.claims lrq' s ≤ lock.claims lrq s := by
      rw [claims, claims, hrequests, countP_erase hnodup]
      refine le_trans (le_of_eq (others_congr fun x _ hx => ?_)) others_le
      rw [hlrq x hx]
    exact hclaims.trans_lt (h.claimsFit s hs)
  · rw [hrequests, hnodup.mem_erase_iff] at ha hb
    rw [hlrq a ha.1, hlrq b hb.1]
    exact h.compatible a ha.2 b hb.2 hab
  · rw [hcounts s hs, hrequests, countP_erase hnodup]
    exact congrArg _ (others_congr fun x _ hx => by rw [hlrq x hx])

/-- Only what is counted and compared matters, and not the order of the queue. -/
theorem Steady.congr (h : lock.Steady lrq) (hrequests : lock'.requests.Perm lock.requests)
    (hpendingCount : lock'.pendingLrqCount = lock.pendingLrqCount)
    (hstate : ∀ x ∈ lock.requests, (lrq' x).state = (lrq x).state)
    (hrequested : ∀ x ∈ lock.requests, (lrq' x).requested = (lrq x).requested)
    (hpending : ∀ x ∈ lock.requests, (lrq' x).pending = (lrq x).pending) :
    lock'.Steady lrq' := by
  have hpendingRequests : lock'.pendingRequests lrq' = lock.pendingRequests lrq := by
    rw [pendingRequests, hrequests.countP_eq]
    exact List.countP_congr fun x hx => by rw [hpending x hx]
  refine ⟨?_, hpendingRequests ▸ h.pendingFits, fun s hs => ?_, fun a ha b hb hab => ?_⟩
  · rw [hpendingCount, h.pendingCount, hpendingRequests]
  · have hclaims : lock'.claims lrq' s = lock.claims lrq s := by
      rw [claims, hrequests.countP_eq]
      exact List.countP_congr fun x hx => by rw [hstate x hx, hrequested x hx]
    exact hclaims ▸ h.claimsFit s hs
  · have ha := hrequests.mem_iff.1 ha
    have hb := hrequests.mem_iff.1 hb
    rw [hstate a ha, hstate b hb]
    exact h.compatible a ha b hb hab

theorem Ok.congr (h : lock.Ok lrq) (hrequests : lock'.requests.Perm lock.requests)
    (hcounts : lock'.counts = lock.counts) (hlockState : lock'.state = lock.state)
    (hpendingCount : lock'.pendingLrqCount = lock.pendingLrqCount)
    (hstate : ∀ x ∈ lock.requests, (lrq' x).state = (lrq x).state)
    (hrequested : ∀ x ∈ lock.requests, (lrq' x).requested = (lrq x).requested)
    (hpending : ∀ x ∈ lock.requests, (lrq' x).pending = (lrq x).pending) :
    lock'.Ok lrq' := by
  refine ⟨h.toSteady.congr hrequests hpendingCount hstate hrequested hpending, fun s hs => ?_, ?_⟩
  · rw [hcounts, h.counted s hs, hrequests.countP_eq]
    exact congrArg _ (List.countP_congr fun x hx => by rw [hstate x hx])
  · rw [hlockState, hcounts, h.stateEq]

/-- A new request matters only by what it asks for. -/
theorem Ok.enqueued (h : lock.Ok lrq)
    (hnotMem : r ∉ lock.requests) {request : Lrq} (hstate : request.state = .none)
    (hpending : request.pending = false) (hroom : lock.Room lrq request.requested)
    (hrequests : lock'.requests = lock.requests ++ [r]) (hcounts : lock'.counts = lock.counts)
    (hlockState : lock'.state = lock.state)
    (hpendingCount : lock'.pendingLrqCount = lock.pendingLrqCount) :
    lock'.Ok (Function.update lrq r request) := by
  have hself : Function.update lrq r request r = request := Function.update_self ..
  have hother : ∀ x ∈ lock.requests, Function.update lrq r request x = lrq x :=
    fun x hx => Function.update_of_ne (fun he : x = r => hnotMem (he ▸ hx)) _ _
  have hcount : ∀ p : Lrq → Bool,
      (lock'.requests.countP fun x => p (Function.update lrq r request x)) =
        (lock.requests.countP fun x => p (lrq x)) + if p request then 1 else 0 := by
    intro p
    rw [hrequests, List.countP_append, List.countP_singleton, hself]
    exact congrArg (· + _) (List.countP_congr fun x hx => by rw [hother x hx])
  have hpendingSame : lock'.pendingRequests (Function.update lrq r request) =
      lock.pendingRequests lrq := by
    refine (hcount fun q => q.pending = true).trans ?_
    simp [hpending, pendingRequests]
  refine ⟨⟨?_, hpendingSame ▸ h.pendingFits, fun s hs => ?_, fun a ha b hb hab => ?_⟩,
    fun s hs => ?_, ?_⟩
  · rw [hpendingCount, h.pendingCount, hpendingSame]
  · have hclaims : lock'.claims (Function.update lrq r request) s = _ :=
      hcount fun q => q.state = s ∨ q.requested = s
    have hlt := h.claimsFit s hs
    rw [claims] at hlt
    rw [hclaims]
    by_cases hlevel : request.requested = s
    · have hroom := hroom (hlevel ▸ hs)
      rw [hlevel, claims] at hroom
      simp only [hlevel, or_true, decide_true, if_true]
      exact hroom
    · simp only [hstate, hlevel, Ne.symm hs, or_self, decide_false, Bool.false_eq_true, if_false]
      exact hlt
  · rw [hrequests, List.mem_append, List.mem_singleton] at ha hb
    obtain ha | rfl := ha
    · rw [hother a ha]
      obtain hb | rfl := hb
      · rw [hother b hb]
        exact h.compatible a ha b hb hab
      · rw [hself, hstate]
        exact compatibility_none _
    · rw [hself, hstate, compatibility_comm]
      exact compatibility_none _
  · rw [hcounts, h.counted s hs]
    refine congrArg _ (Eq.symm ((hcount fun q => q.state = s).trans ?_))
    simp [hstate, Ne.symm hs]
  · rw [hlockState, hcounts, h.stateEq]

end

end Lbl

end FirebirdCore.Lock
