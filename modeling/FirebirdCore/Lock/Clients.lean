import FirebirdCore.Lock.Granting

/-!
# What the clients call keeps the invariant

Waiting, enqueueing, converting, rejecting, and what is done with owners and data.
-/
namespace FirebirdCore.Lock
open FirebirdCore.Tally

namespace Table

section
variable {t t' : Table} {r : ℕ}

/-! ## Waiting -/

theorem waitForRequest_lrq (t : Table) (r : ℕ) : (t.waitForRequest r).lrq =
    Function.update t.lrq r { t.lrq r with
      rejected := false
      pending := true } := rfl

theorem waitForRequest_lbl (t : Table) (r : ℕ) : (t.waitForRequest r).lbl =
    Function.update t.lbl (t.lrq r).lock { t.lbl (t.lrq r).lock with
      pendingLrqCount := (t.lbl (t.lrq r).lock).pendingLrqCount + 1
      requests := if (t.lrq r).state = .none then (t.lbl (t.lrq r).lock).requests.erase r ++ [r]
        else (t.lbl (t.lrq r).lock).requests } := rfl

theorem waitForRequest_own (t : Table) (r : ℕ) : (t.waitForRequest r).own =
    Function.update t.own (t.lrq r).owner { t.own (t.lrq r).owner with
      pending := (t.own (t.lrq r).owner).pending ++ [r] } := rfl

/-- What waiting leaves of a request. -/
theorem waitForRequest_fields (t : Table) (r x : ℕ) :
    ((t.waitForRequest r).lrq x).live = (t.lrq x).live ∧
      ((t.waitForRequest r).lrq x).owner = (t.lrq x).owner ∧
      ((t.waitForRequest r).lrq x).lock = (t.lrq x).lock ∧
      ((t.waitForRequest r).lrq x).state = (t.lrq x).state ∧
      ((t.waitForRequest r).lrq x).requested = (t.lrq x).requested := by
  rw [waitForRequest_lrq]
  by_cases hx : x = r
  · subst hx
    rw [Function.update_self]
    exact ⟨rfl, rfl, rfl, rfl, rfl⟩
  · rw [Function.update_of_ne hx]
    exact ⟨rfl, rfl, rfl, rfl, rfl⟩

/-- A request begins to wait where it is or at the end of the queue. -/
theorem waitForRequest_sameQueues (hmem : r ∈ (t.lbl (t.lrq r).lock).requests) :
    SameQueues t (t.waitForRequest r) := by
  have hlock : ∀ res, ((t.waitForRequest r).lbl res).requests.Perm (t.lbl res).requests ∧
      ((t.waitForRequest r).lbl res).live = (t.lbl res).live := by
    intro res
    rw [waitForRequest_lbl]
    by_cases hres : res = (t.lrq r).lock
    · rw [hres, Function.update_self]
      refine ⟨?_, rfl⟩
      dsimp only
      split_ifs
      · exact (List.perm_append_singleton _ _).trans (List.perm_cons_erase hmem).symm
      · exact .rfl
    · rw [Function.update_of_ne hres]
      exact ⟨.rfl, rfl⟩
  have howner : ∀ o, ((t.waitForRequest r).own o).requests = (t.own o).requests ∧
      ((t.waitForRequest r).own o).live = (t.own o).live := by
    intro o
    rw [waitForRequest_own]
    by_cases ho : o = (t.lrq r).owner
    · rw [ho, Function.update_self]
      exact ⟨rfl, rfl⟩
    · rw [Function.update_of_ne ho]
      exact ⟨rfl, rfl⟩
  have hfields := waitForRequest_fields t r
  exact ⟨fun x => (hfields x).1, fun x => (hfields x).2.1, fun x => (hfields x).2.2.1,
    fun res => (hlock res).1, fun res => (hlock res).2, fun o => (howner o).1,
    fun o => (howner o).2⟩

theorem waitForRequest_inv (h : t.Inv) (hr : (t.lrq r).live) (hnot : (t.lrq r).pending = false)
    (hroom : (t.lbl (t.lrq r).lock).PendingRoom t.lrq) : (t.waitForRequest r).Inv := by
  have hok := h.locks _ (h.linked.lock_live hr)
  have hmem := h.linked.onLock r hr
  have hnodup := h.linked.lockNodup (t.lrq r).lock
  have hlrq := waitForRequest_lrq t r
  have hlbl := waitForRequest_lbl t r
  have hown := waitForRequest_own t r
  have hself : (t.waitForRequest r).lrq r = { t.lrq r with
      rejected := false
      pending := true } := by
    rw [hlrq, Function.update_self]
  have hother : ∀ x, x ≠ r → (t.waitForRequest r).lrq x = t.lrq x := by
    intro x hx
    rw [hlrq, Function.update_of_ne hx]
  have hfields := waitForRequest_fields t r
  have hnotMem : ∀ o, r ∉ (t.own o).pending := by
    intro o hmem
    have hpending := ((h.pendingLinked.mem o r).1 hmem).2.2
    rw [hnot] at hpending
    cases hpending
  have hsame := waitForRequest_sameQueues hmem
  refine ⟨h.linked.congr hsame, ⟨fun o x => ?_, fun o => ?_⟩, fun res hres => ?_⟩
  · rw [(hfields x).1, (hfields x).2.1, hown]
    by_cases ho : o = (t.lrq r).owner
    · rw [ho, Function.update_self]
      by_cases hx : x = r
      · subst hx
        simp [hr, hself]
      · simp [hx, hother x hx, h.pendingLinked.mem]
    · rw [Function.update_of_ne ho, h.pendingLinked.mem]
      by_cases hx : x = r
      · subst hx
        simp [Ne.symm ho]
      · rw [hother x hx]
  · rw [hown]
    by_cases ho : o = (t.lrq r).owner
    · rw [ho, Function.update_self]
      exact (h.pendingLinked.nodup _).append (List.nodup_singleton r)
        (List.disjoint_singleton.2 (hnotMem _))
    · rw [Function.update_of_ne ho]
      exact h.pendingLinked.nodup o
  · rw [hsame.lockLive] at hres
    by_cases heq : res = (t.lrq r).lock
    · subst heq
      have hpendingNew : ((t.waitForRequest r).lbl (t.lrq r).lock).pendingRequests
          (t.waitForRequest r).lrq = (t.lbl (t.lrq r).lock).pendingRequests t.lrq + 1 := by
        rw [Lbl.pendingRequests, (hsame.requests _).countP_eq, Lbl.pendingRequests,
          countP_eq_others hmem hnodup, countP_eq_others hmem hnodup, hself, if_pos rfl, hnot,
          if_neg Bool.false_ne_true, Nat.add_zero]
        exact congrArg (· + 1) (others_congr fun x _ hx => by rw [hother x hx])
      have hcounts : ((t.waitForRequest r).lbl (t.lrq r).lock).counts =
          (t.lbl (t.lrq r).lock).counts := by
        rw [hlbl, Function.update_self]
      refine ⟨⟨?_, hpendingNew ▸ hroom, fun s hs => ?_, fun a ha b hb hab => ?_⟩, fun s hs => ?_, ?_⟩
      · rw [hpendingNew, UInt16.ofNat_add, ← hok.pendingCount, hlbl, Function.update_self]
        rfl
      · refine lt_of_eq_of_lt ?_ (hok.claimsFit s hs)
        rw [Lbl.claims, (hsame.requests _).countP_eq]
        exact List.countP_congr fun x _ => by rw [(hfields x).2.2.2.1, (hfields x).2.2.2.2]
      · rw [(hfields a).2.2.2.1, (hfields b).2.2.2.1]
        exact hok.compatible a ((hsame.requests _).mem_iff.1 ha) b
          ((hsame.requests _).mem_iff.1 hb) hab
      · rw [hcounts, hok.counted s hs, (hsame.requests _).countP_eq]
        exact congrArg _ (List.countP_congr fun x _ => by rw [(hfields x).2.2.2.1])
      · rw [hcounts, ← hok.stateEq, hlbl, Function.update_self]
    · rw [hlbl, hlrq, Function.update_of_ne heq]
      exact h.linked.ok_of_ne (h.locks res hres) (Ne.symm heq) _

theorem grantOrQue_inv (h : t.Inv) (hr : (t.lrq r).live) (hstate : (t.lrq r).state = .none)
    (hnot : (t.lrq r).pending = false) {wait : Bool}
    (hroom : wait → (t.lbl (t.lrq r).lock).PendingRoom t.lrq) : (t.grantOrQue r wait).Inv := by
  have hok := h.locks _ (h.linked.lock_live hr)
  rw [grantOrQue]
  split_ifs with hcompat hwait
  · have hcompat := hcompat.1
    rw [hok.stateEq] at hcompat
    exact postPending_inv (grant_inv h.linked h.pendingLinked hr (fun res _ => h.locks res)
      hok.toSteady (hok.countedBut_of_none (h.linked.onLock r hr) (h.linked.lockNodup _) hstate)
      hcompat) _
  · exact waitForRequest_inv h hr hnot (hroom hwait)
  · exact (releaseRequest_inv h hr).1

/-! ## A new request -/

/-- A free request is in no queue. -/
theorem Linked.free_notMem (h : t.Linked) (hr : (t.lrq r).live = false) (res : Resource) :
    r ∉ (t.lbl res).requests := by
  intro hmem
  have hlive := (h.lockOf res r hmem).1
  rw [hr] at hlive
  cases hlive

theorem Linked.free_notMem_own (h : t.Linked) (hr : (t.lrq r).live = false) (o : ℕ) :
    r ∉ (t.own o).requests := by
  intro hmem
  have hlive := (h.ownerOf o r hmem).1
  rw [hr] at hlive
  cases hlive

/-- The queues with a new request at the end. -/
theorem enqueued_linked (h : t.Linked) {o : ℕ} {res : Resource} {request : Lrq}
    (ho : (t.own o).live) (hfree : (t.lrq r).live = false)
    (hnew : request.live ∧ request.owner = o ∧ request.lock = res)
    (hlrq : t'.lrq = Function.update t.lrq r request)
    (hown : t'.own = Function.update t.own o
      { t.own o with requests := (t.own o).requests ++ [r] })
    (hother : ∀ x, x ≠ res → t'.lbl x = t.lbl x)
    (hrequests : (t'.lbl res).requests = (t.lbl res).requests ++ [r])
    (hlive : (t'.lbl res).live) : t'.Linked := by
  obtain ⟨hnewLive, hnewOwner, hnewLock⟩ := hnew
  have ⟨onLock, onOwner, lockOf, ownerOf, lockNodup, ownNodup, lockLive, ownLive⟩ := h
  have hself : t'.lrq r = request := by rw [hlrq, Function.update_self]
  have hsame : ∀ x, x ≠ r → t'.lrq x = t.lrq x := by
    intro x hx
    rw [hlrq, Function.update_of_ne hx]
  have hmem : ∀ y x, x ∈ (t'.lbl y).requests ↔ x ∈ (t.lbl y).requests ∨ y = res ∧ x = r := by
    intro y x
    by_cases hy : y = res
    · rw [hy, hrequests]
      simp
    · rw [hother y hy]
      simp [hy]
  have hmemOwn : ∀ p x, x ∈ (t'.own p).requests ↔ x ∈ (t.own p).requests ∨ p = o ∧ x = r := by
    intro p x
    rw [hown]
    by_cases hp : p = o
    · rw [hp, Function.update_self]
      simp
    · rw [Function.update_of_ne hp]
      simp [hp]
  have hne : ∀ y x, x ∈ (t.lbl y).requests → x ≠ r :=
    fun y x hx he => h.free_notMem hfree y (he ▸ hx)
  have hneOwn : ∀ p x, x ∈ (t.own p).requests → x ≠ r :=
    fun p x hx he => h.free_notMem_own hfree p (he ▸ hx)
  refine ⟨fun x hx => ?_, fun x hx => ?_, fun y x hx => ?_, fun p x hx => ?_, fun y => ?_,
    fun p => ?_, fun y => ?_, fun p hp => ?_⟩
  · rw [hmem]
    by_cases hxr : x = r
    · rw [hxr, hself]
      exact Or.inr ⟨hnewLock, rfl⟩
    · rw [hsame x hxr] at hx ⊢
      exact Or.inl (onLock x hx)
  · rw [hmemOwn]
    by_cases hxr : x = r
    · rw [hxr, hself]
      exact Or.inr ⟨hnewOwner, rfl⟩
    · rw [hsame x hxr] at hx ⊢
      exact Or.inl (onOwner x hx)
  · obtain hx | ⟨hy, hx⟩ := (hmem y x).1 hx
    · rw [hsame x (hne y x hx)]
      exact lockOf y x hx
    · rw [hx, hself, hy]
      exact ⟨hnewLive, hnewLock⟩
  · obtain hx | ⟨hp, hx⟩ := (hmemOwn p x).1 hx
    · rw [hsame x (hneOwn p x hx)]
      exact ownerOf p x hx
    · rw [hx, hself, hp]
      exact ⟨hnewLive, hnewOwner⟩
  · by_cases hy : y = res
    · rw [hy, hrequests]
      exact (lockNodup res).append (List.nodup_singleton r)
        (List.disjoint_singleton.2 (h.free_notMem hfree res))
    · rw [hother y hy]
      exact lockNodup y
  · rw [hown]
    by_cases hp : p = o
    · rw [hp, Function.update_self]
      exact (ownNodup o).append (List.nodup_singleton r)
        (List.disjoint_singleton.2 (h.free_notMem_own hfree o))
    · rw [Function.update_of_ne hp]
      exact ownNodup p
  · by_cases hy : y = res
    · rw [hy, hrequests]
      simp [hlive]
    · rw [hother y hy]
      exact lockLive y
  · rw [hown] at hp ⊢
    by_cases hpo : p = o
    · rw [hpo, Function.update_self]
      exact ho
    · rw [Function.update_of_ne hpo] at hp ⊢
      exact ownLive p hp

theorem enqueued_pendingLinked (h : t.PendingLinked) {o : ℕ} {request : Lrq}
    (hfree : (t.lrq r).live = false) (hpending : request.pending = false)
    (hlrq : t'.lrq = Function.update t.lrq r request)
    (hown : t'.own = Function.update t.own o
      { t.own o with requests := (t.own o).requests ++ [r] }) : t'.PendingLinked := by
  have hlists : ∀ p, (t'.own p).pending = (t.own p).pending := by
    intro p
    rw [hown]
    by_cases hp : p = o
    · rw [hp, Function.update_self]
    · rw [Function.update_of_ne hp]
  constructor
  · intro p x
    rw [hlists, h.mem, hlrq]
    by_cases hxr : x = r
    · rw [hxr, Function.update_self, hfree, hpending]
      simp
    · rw [Function.update_of_ne hxr]
  · intro p
    rw [hlists]
    exact h.nodup p

/-- The other locks do not see the new request. -/
theorem Linked.ok_of_free (h : t.Linked) {res : Resource} (hok : (t.lbl res).Ok t.lrq)
    (hfree : (t.lrq r).live = false) (request : Lrq) :
    (t.lbl res).Ok (Function.update t.lrq r request) := by
  have hsame : ∀ x ∈ (t.lbl res).requests, Function.update t.lrq r request x = t.lrq x :=
    fun x hx => Function.update_of_ne (fun he : x = r => h.free_notMem hfree res (he ▸ hx)) _ _
  refine hok.congr .rfl rfl rfl rfl (fun x hx => ?_) (fun x hx => ?_) (fun x hx => ?_) <;>
    rw [hsame x hx]

/-- The table with the new request at the end of the queue of an existing lock. -/
def queued (t : Table) (r o : ℕ) (res : Resource) (type : Level) (data : ℤ) : Table :=
  (t.newRequest r o res type data).onLbl res
    fun lock => { lock with requests := lock.requests ++ [r] }

theorem queued_lrq (t : Table) (r o : ℕ) (res : Resource) (type : Level) (data : ℤ) :
    (t.queued r o res type data).lrq =
      Function.update t.lrq r ⟨true, type, .none, false, false, o, res, data⟩ := rfl

theorem queued_lbl (t : Table) (r o : ℕ) (res : Resource) (type : Level) (data : ℤ) :
    (t.queued r o res type data).lbl = Function.update t.lbl res
      { t.lbl res with requests := (t.lbl res).requests ++ [r] } := rfl

theorem queued_inv (h : t.Inv) {o : ℕ} {res : Resource} {type : Level} (data : ℤ)
    (ho : (t.own o).live) (hfree : (t.lrq r).live = false) (hlive : (t.lbl res).live)
    (hroom : (t.lbl res).Room t.lrq type) : (t.queued r o res type data).Inv := by
  have hlrq := queued_lrq t r o res type data
  have hlbl := queued_lbl t r o res type data
  have hlock : (t.queued r o res type data).lbl res =
      { t.lbl res with requests := (t.lbl res).requests ++ [r] } := by
    rw [hlbl, Function.update_self]
  have hother : ∀ x, x ≠ res → (t.queued r o res type data).lbl x = t.lbl x := by
    intro x hx
    rw [hlbl, Function.update_of_ne hx]
  have hlinked := enqueued_linked h.linked ho hfree ⟨rfl, rfl, rfl⟩ hlrq rfl hother
    (by rw [hlock]) (by rw [hlock]; exact hlive)
  refine ⟨hlinked, enqueued_pendingLinked h.pendingLinked hfree rfl hlrq rfl, fun x hx => ?_⟩
  rw [hlrq]
  by_cases hxres : x = res
  · subst hxres
    rw [hlock]
    exact (h.locks x hlive).enqueued (h.linked.free_notMem hfree x) rfl rfl hroom rfl rfl rfl rfl
  · rw [hother x hxres] at hx ⊢
    exact h.linked.ok_of_free (h.locks x hx) hfree _

theorem enqueue_live_inv (h : t.Inv) {o : ℕ} {res : Resource} {type : Level} {data : ℤ} {wait : Bool}
    (ho : (t.own o).live) (hfree : (t.lrq r).live = false) (hlive : (t.lbl res).live)
    (hroom : (t.lbl res).Room t.lrq type)
    (hpendingRoom : wait → (t.lbl res).PendingRoom t.lrq) :
    ((t.queued r o res type data).grantOrQue r wait).Inv := by
  have hnotMem := h.linked.free_notMem hfree res
  have hself : (t.queued r o res type data).lrq r =
      ⟨true, type, .none, false, false, o, res, data⟩ := by
    rw [queued_lrq, Function.update_self]
  refine grantOrQue_inv (queued_inv h data ho hfree hlive hroom) (by rw [hself]) (by rw [hself])
    (by rw [hself]) fun hwait => ?_
  have hsame : ((t.queued r o res type data).lbl res).pendingRequests
      (t.queued r o res type data).lrq = (t.lbl res).pendingRequests t.lrq := by
    rw [Lbl.pendingRequests, queued_lbl, Function.update_self, List.countP_append,
      List.countP_singleton, hself, if_neg (by simp), Nat.add_zero]
    refine List.countP_congr fun x hx => ?_
    rw [queued_lrq, Function.update_of_ne (fun he : x = r => hnotMem (he ▸ hx))]
  rw [hself, Lbl.PendingRoom, hsame]
  exact hpendingRoom hwait

theorem enqueue_new_inv (h : t.Inv) {o : ℕ} {res : Resource} {type : Level} {data : ℤ}
    (ho : (t.own o).live) (hfree : (t.lrq r).live = false) (hlive : ¬ (t.lbl res).live) :
    ((((t.newRequest r o res type 0).newLock res type data).onLbl res
      fun lock => { lock with requests := lock.requests ++ [r] }).grant r).Inv := by
  have hempty : (t.lbl res).requests = [] := by
    by_contra hne
    exact hlive ((h.linked.lockLive res).2 hne)
  generalize hqueued : ((t.newRequest r o res type 0).newLock res type data).onLbl res
    (fun lock => { lock with requests := lock.requests ++ [r] }) = queued
  have hlrq : queued.lrq = Function.update t.lrq r
      ⟨true, type, .none, false, false, o, res, 0⟩ := by
    rw [← hqueued, onLbl_lrq, newLock, insertDataQue_lrq]
    rfl
  have hlbl : queued.lbl = Function.update t.lbl res ⟨true, type, [r], data, 0, fun _ => 0⟩ := by
    rw [← hqueued, onLbl_lbl, newLock, insertDataQue_lbl, onLbl_lbl, Function.update_self,
      Function.update_idem]
    rfl
  have hown : queued.own = Function.update t.own o
      { t.own o with requests := (t.own o).requests ++ [r] } := by
    rw [← hqueued, onLbl_own, newLock, insertDataQue_own]
    rfl
  have hself : queued.lrq r = ⟨true, type, .none, false, false, o, res, 0⟩ := by
    rw [hlrq, Function.update_self]
  have hlock : queued.lbl res = ⟨true, type, [r], data, 0, fun _ => 0⟩ := by
    rw [hlbl, Function.update_self]
  have hother : ∀ x, x ≠ res → queued.lbl x = t.lbl x := by
    intro x hx
    rw [hlbl, Function.update_of_ne hx]
  have hlinked := enqueued_linked h.linked ho hfree ⟨rfl, rfl, rfl⟩ hlrq hown hother
    (by rw [hlock, hempty]; rfl) (by rw [hlock])
  refine grant_inv hlinked (enqueued_pendingLinked h.pendingLinked hfree rfl hlrq hown)
    (by rw [hself]) (fun x hx hxlive => ?_) ?_ ?_ ?_
  · rw [hself] at hx
    rw [hother x hx] at hxlive ⊢
    rw [hlrq]
    exact h.linked.ok_of_free (h.locks x hxlive) hfree _
  · rw [hself, hlock]
    have hone : ∀ p : ℕ → Bool, [r].countP p < 2 ^ 16 := by
      intro p
      have hle := List.countP_le_length (p := p) (l := [r])
      rw [List.length_singleton] at hle
      omega
    refine ⟨?_, hone _, fun s _ => hone _, fun a ha b hb hab => ?_⟩
    · simp [Lbl.pendingRequests, hself]
    · rw [List.mem_singleton] at ha hb
      exact absurd (ha.trans hb.symm) hab
  · rw [hself, hlock]
    intro s _
    simp [others]
  · rw [hself, hlock]
    have hnone : lockState (fun _ => 0) = .none := lockState_eq_none.2 fun _ _ => rfl
    rw [hnone]
    exact compatibility_none type

theorem enqueue_inv (h : t.Inv) {o : ℕ} {res : Resource} {type : Level} {data : ℤ} {wait : Bool}
    (ho : (t.own o).live) (hfree : (t.lrq r).live = false)
    (hroom : (t.lbl res).Room t.lrq type)
    (hpendingRoom : wait → (t.lbl res).PendingRoom t.lrq) :
    (t.enqueue r o res type data wait).Inv := by
  rw [enqueue]
  split_ifs with hlive
  · exact enqueue_live_inv h ho hfree hlive hroom hpendingRoom
  · exact enqueue_new_inv h ho hfree hlive

/-! ## Converting -/

/-- Changing what a request asks for, or its `rejected` flag. -/
theorem onLrq_inv (h : t.Inv) (hr : (t.lrq r).live) (f : Lrq → Lrq)
    (hlive : (f (t.lrq r)).live = (t.lrq r).live) (howner : (f (t.lrq r)).owner = (t.lrq r).owner)
    (hlock : (f (t.lrq r)).lock = (t.lrq r).lock) (hstate : (f (t.lrq r)).state = (t.lrq r).state)
    (hpending : (f (t.lrq r)).pending = (t.lrq r).pending)
    (hclaims : ∀ s, s ≠ .none →
      (t.lbl (t.lrq r).lock).claims t.lrq s +
        (if (f (t.lrq r)).requested = s ∧ (f (t.lrq r)).requested ≠ (t.lrq r).requested ∧
          (t.lrq r).state ≠ s then 1 else 0) < 2 ^ 16) :
    (t.onLrq r f).Inv := by
  have hsame := onLrq_sameQueues t r f hlive howner hlock
  have hfields : ∀ x, ((t.onLrq r f).lrq x).state = (t.lrq x).state ∧
      ((t.onLrq r f).lrq x).pending = (t.lrq x).pending := by
    intro x
    rw [onLrq_lrq]
    by_cases hx : x = r
    · rw [hx, Function.update_self]
      exact ⟨hstate, hpending⟩
    · rw [Function.update_of_ne hx]
      exact ⟨rfl, rfl⟩
  refine ⟨h.linked.congr hsame, h.pendingLinked.congr hsame (fun x => (hfields x).2) fun _ => rfl,
    fun res hres => ?_⟩
  by_cases heq : res = (t.lrq r).lock
  · subst heq
    have hok := h.locks _ hres
    have hmem := h.linked.onLock r hr
    have hnodup := h.linked.lockNodup (t.lrq r).lock
    have hpendingSame : (t.lbl (t.lrq r).lock).pendingRequests (t.onLrq r f).lrq =
        (t.lbl (t.lrq r).lock).pendingRequests t.lrq :=
      List.countP_congr fun x _ => by rw [(hfields x).2]
    refine ⟨⟨?_, hpendingSame ▸ hok.pendingFits, fun s hs => ?_, fun a ha b hb hab => ?_⟩,
      fun s hs => ?_, hok.stateEq⟩
    · exact hok.pendingCount.trans (congrArg _ hpendingSame.symm)
    · refine lt_of_le_of_lt ?_ (hclaims s hs)
      show Lbl.claims _ _ s ≤ _
      rw [onLrq_lbl, Lbl.claims, Lbl.claims, countP_eq_others hmem hnodup,
        countP_eq_others hmem hnodup, (hfields r).1]
      have hothers : others (fun x => ((t.onLrq r f).lrq x).state = s ∨
          ((t.onLrq r f).lrq x).requested = s) r (t.lbl (t.lrq r).lock).requests =
          others (fun x => (t.lrq x).state = s ∨ (t.lrq x).requested = s) r
            (t.lbl (t.lrq r).lock).requests := by
        refine others_congr fun x _ hx => ?_
        rw [onLrq_lrq, Function.update_of_ne hx]
      rw [hothers, onLrq_lrq, Function.update_self]
      by_cases hheld : (t.lrq r).state = s
      · simp only [hheld, true_or, if_true]
        omega
      · by_cases hasked : (f (t.lrq r)).requested = s
        · by_cases hbefore : (f (t.lrq r)).requested = (t.lrq r).requested
          · rw [← hbefore]
            simp [hasked]
          · simp only [hheld, hasked, or_true, if_true, ne_eq, not_false_eq_true]
            simp only [hasked] at hbefore
            simp [hbefore]
        · simp [hheld, hasked]
    · rw [(hfields a).1, (hfields b).1]
      exact hok.compatible a ha b hb hab
    · refine (hok.counted s hs).trans (congrArg _ (List.countP_congr fun x _ => ?_))
      rw [(hfields x).1]
  · exact h.linked.ok_of_ne (h.locks res hres) (Ne.symm heq) _

/-- A denied conversion asks for what is held. -/
theorem unrequest_inv (h : t.Inv) (hr : (t.lrq r).live) :
    (t.onLrq r fun request => { request with requested := request.state }).Inv := by
  refine onLrq_inv h hr _ rfl rfl rfl rfl rfl fun s hs => ?_
  rw [if_neg fun hboth => hboth.2.2 hboth.1]
  exact (h.locks _ (h.linked.lock_live hr)).claimsFit s hs

/-- Asking for a level for which there is room. -/
theorem request_inv (h : t.Inv) (hr : (t.lrq r).live) {type : Level}
    (hroom : (t.lbl (t.lrq r).lock).Room t.lrq type) :
    (t.onLrq r ({ · with requested := type })).Inv := by
  refine onLrq_inv h hr _ rfl rfl rfl rfl rfl fun s hs => ?_
  have hfit := (h.locks _ (h.linked.lock_live hr)).claimsFit s hs
  split_ifs with hnew
  · have hs' : type = s := hnew.1
    exact hs' ▸ hroom (hs' ▸ hs)
  · exact hfit

theorem internalConvert_inv (h : t.Inv) (hr : (t.lrq r).live) {type : Level} {wait : Bool}
    (hroom : (t.lbl (t.lrq r).lock).Room t.lrq type)
    (hpendingRoom : wait → (t.lbl (t.lrq r).lock).PendingRoom t.lrq)
    (ht' : t.internalConvert r type wait = some t') : t'.Inv := by
  have hasked := request_inv h hr hroom
  rw [internalConvert] at ht'
  generalize hu : t.onLrq r ({ · with requested := type }) = u at hasked ht'
  have hself : u.lrq r = { t.lrq r with requested := type } := by
    rw [← hu, onLrq_lrq, Function.update_self]
  have hlive : (u.lrq r).live := by
    rw [hself]
    exact hr
  have hpendingSame : (u.lbl (u.lrq r).lock).pendingRequests u.lrq =
      (t.lbl (t.lrq r).lock).pendingRequests t.lrq := by
    rw [hself, ← hu]
    refine List.countP_congr fun x _ => ?_
    rw [onLrq_lrq]
    by_cases hx : x = r
    · rw [hx, Function.update_self]
    · rw [Function.update_of_ne hx]
  dsimp only at ht'
  split_ifs at ht' with hcompat hwait hpending
  · rw [← Option.some.inj ht']
    rw [onLbl_lbl, Function.update_self] at hcompat
    refine postPending_inv (grant_lowered_inv hasked hlive ?_) _
    rw [hself] at hcompat ⊢
    exact hcompat
  · rw [← Option.some.inj ht', onLbl_decr_incr]
    refine waitForRequest_inv hasked hlive (Bool.eq_false_of_not_eq_true hpending) ?_
    rw [Lbl.PendingRoom, hpendingSame]
    exact hpendingRoom hwait
  · rw [← Option.some.inj ht', onLbl_decr_incr]
    have hsame : (u.onLrq r ({ · with requested := (u.lrq r).state })) =
        u.onLrq r fun request => { request with requested := request.state } := rfl
    rw [hsame]
    exact unrequest_inv hasked hlive

/-! ## Rejecting -/

theorem rejectRequest_lrq (t : Table) (r : ℕ) : (t.rejectRequest r).lrq =
    Function.update t.lrq r { t.lrq r with
      rejected := true
      pending := false } := by
  simp [rejectRequest, clearPending]

theorem rejectRequest_lbl (t : Table) (r : ℕ) : (t.rejectRequest r).lbl =
    Function.update t.lbl (t.lrq r).lock { t.lbl (t.lrq r).lock with
      pendingLrqCount := (t.lbl (t.lrq r).lock).pendingLrqCount - 1 } := by
  simp [rejectRequest, clearPending]

theorem rejectRequest_own (t : Table) (r : ℕ) : (t.rejectRequest r).own =
    Function.update t.own (t.lrq r).owner { t.own (t.lrq r).owner with
      pending := (t.own (t.lrq r).owner).pending.erase r } := by
  simp [rejectRequest, clearPending]

theorem rejectRequest_sameQueues (t : Table) (r : ℕ) : SameQueues t (t.rejectRequest r) := by
  have hlrq : ∀ x, ((t.rejectRequest r).lrq x).live = (t.lrq x).live ∧
      ((t.rejectRequest r).lrq x).owner = (t.lrq x).owner ∧
      ((t.rejectRequest r).lrq x).lock = (t.lrq x).lock := by
    intro x
    rw [rejectRequest_lrq]
    by_cases hx : x = r
    · rw [hx, Function.update_self]
      exact ⟨rfl, rfl, rfl⟩
    · rw [Function.update_of_ne hx]
      exact ⟨rfl, rfl, rfl⟩
  have hlock : ∀ res, ((t.rejectRequest r).lbl res).requests = (t.lbl res).requests ∧
      ((t.rejectRequest r).lbl res).live = (t.lbl res).live := by
    intro res
    rw [rejectRequest_lbl]
    by_cases hres : res = (t.lrq r).lock
    · rw [hres, Function.update_self]
      exact ⟨rfl, rfl⟩
    · rw [Function.update_of_ne hres]
      exact ⟨rfl, rfl⟩
  have hown : ∀ o, ((t.rejectRequest r).own o).requests = (t.own o).requests ∧
      ((t.rejectRequest r).own o).live = (t.own o).live := by
    intro o
    rw [rejectRequest_own]
    by_cases ho : o = (t.lrq r).owner
    · rw [ho, Function.update_self]
      exact ⟨rfl, rfl⟩
    · rw [Function.update_of_ne ho]
      exact ⟨rfl, rfl⟩
  exact ⟨fun x => (hlrq x).1, fun x => (hlrq x).2.1, fun x => (hlrq x).2.2,
    fun res => (hlock res).1 ▸ .rfl, fun res => (hlock res).2, fun o => (hown o).1,
    fun o => (hown o).2⟩

theorem rejectRequest_inv (h : t.Inv) (hr : (t.lrq r).live) (hpending : (t.lrq r).pending) :
    (t.rejectRequest r).Inv := by
  have hok := h.locks _ (h.linked.lock_live hr)
  have hmem := h.linked.onLock r hr
  have hnodup := h.linked.lockNodup (t.lrq r).lock
  have hsame := rejectRequest_sameQueues t r
  have hlrq := rejectRequest_lrq t r
  have hlbl := rejectRequest_lbl t r
  have hown := rejectRequest_own t r
  generalize t.rejectRequest r = u at hsame hlrq hlbl hown ⊢
  have hself : u.lrq r = { t.lrq r with
      rejected := true
      pending := false } := by
    rw [hlrq, Function.update_self]
  have hother : ∀ x, x ≠ r → u.lrq x = t.lrq x := by
    intro x hx
    rw [hlrq, Function.update_of_ne hx]
  have hfields : ∀ x, (u.lrq x).state = (t.lrq x).state ∧
      (u.lrq x).requested = (t.lrq x).requested := by
    intro x
    by_cases hx : x = r
    · subst hx
      rw [hself]
      exact ⟨rfl, rfl⟩
    · rw [hother x hx]
      exact ⟨rfl, rfl⟩
  refine ⟨h.linked.congr hsame, h.pendingLinked.clear (r := r) (fun x hx => ?_) ?_
    fun o => ?_, fun res hres => ?_⟩
  · rw [hother x hx]
    exact ⟨rfl, rfl, rfl⟩
  · rw [hself]
  · rw [hown]
    by_cases ho : o = (t.lrq r).owner
    · rw [ho, Function.update_self, if_pos rfl]
    · rw [Function.update_of_ne ho, if_neg ho]
  · rw [hsame.lockLive] at hres
    by_cases heq : res = (t.lrq r).lock
    · subst heq
      rw [hlbl, Function.update_self]
      -- The lock as it would be after the request left and came back without its flag.
      have hpendingNew : (t.lbl (t.lrq r).lock).pendingRequests u.lrq + 1 =
          (t.lbl (t.lrq r).lock).pendingRequests t.lrq := by
        rw [Lbl.pendingRequests, Lbl.pendingRequests, countP_eq_others hmem hnodup,
          countP_eq_others hmem hnodup, hself, if_neg Bool.false_ne_true, if_pos hpending]
        exact congrArg (· + 1) (others_congr fun x _ hx => by rw [hother x hx])
      have hlt := hok.pendingFits
      refine ⟨⟨?_, ?_, fun s hs => ?_, fun a ha b hb hab => ?_⟩, fun s hs => ?_, hok.stateEq⟩
      · show (t.lbl (t.lrq r).lock).pendingLrqCount - 1 =
          UInt16.ofNat ((t.lbl (t.lrq r).lock).pendingRequests u.lrq)
        rw [hok.pendingCount, ← hpendingNew, ofNat_succ_sub_one]
      · show (t.lbl (t.lrq r).lock).pendingRequests u.lrq < 2 ^ 16
        omega
      · refine lt_of_eq_of_lt ?_ (hok.claimsFit s hs)
        exact List.countP_congr fun x _ => by rw [(hfields x).1, (hfields x).2]
      · rw [(hfields a).1, (hfields b).1]
        exact hok.compatible a ha b hb hab
      · refine (hok.counted s hs).trans (congrArg _ (List.countP_congr fun x _ => ?_))
        rw [(hfields x).1]
    · rw [hlbl, hlrq, Function.update_of_ne heq]
      exact h.linked.ok_of_ne (h.locks res hres) (Ne.symm heq) _

theorem rejectedConvert_inv (h : t.Inv) (hr : (t.lrq r).live) : (t.rejectedConvert r).Inv := by
  have hsame := postPending_sameQueues t (t.lrq r).lock
  exact unrequest_inv (postPending_inv h (t.lrq r).lock) ((hsame.live r).trans hr)

/-! ## Data and owners -/

/-- What giving data leaves of a lock. -/
theorem setData_fields (t : Table) (res : Resource) (data : ℤ) (x : Resource) :
    ((t.setData res data).lbl x).requests = (t.lbl x).requests ∧
      ((t.setData res data).lbl x).live = (t.lbl x).live ∧
      ((t.setData res data).lbl x).counts = (t.lbl x).counts ∧
      ((t.setData res data).lbl x).state = (t.lbl x).state ∧
      ((t.setData res data).lbl x).pendingLrqCount = (t.lbl x).pendingLrqCount := by
  rw [setData_lbl]
  by_cases hx : x = res
  · rw [hx, Function.update_self]
    exact ⟨rfl, rfl, rfl, rfl, rfl⟩
  · rw [Function.update_of_ne hx]
    exact ⟨rfl, rfl, rfl, rfl, rfl⟩

theorem setData_sameQueues (t : Table) (res : Resource) (data : ℤ) :
    SameQueues t (t.setData res data) :=
  ⟨fun x => by rw [setData_lrq], fun x => by rw [setData_lrq], fun x => by rw [setData_lrq],
    fun x => (setData_fields t res data x).1 ▸ .rfl, fun x => (setData_fields t res data x).2.1,
    fun o => by rw [setData_own], fun o => by rw [setData_own]⟩

theorem setData_inv (h : t.Inv) (res : Resource) (data : ℤ) : (t.setData res data).Inv := by
  have hsame := setData_sameQueues t res data
  refine ⟨h.linked.congr hsame, h.pendingLinked.congr hsame (fun x => by rw [setData_lrq])
    fun o => by rw [setData_own], fun x hx => ?_⟩
  rw [hsame.lockLive] at hx
  rw [setData_lrq]
  obtain ⟨hrequests, -, hcounts, hstate, hpending⟩ := setData_fields t res data x
  exact (h.locks x hx).congr (hrequests ▸ .rfl) hcounts hstate hpending (fun _ _ => rfl)
    (fun _ _ => rfl) fun _ _ => rfl

/-- Each round releases the first request that is left. -/
theorem purgeRequests_inv (h : t.Inv) {o fuel : ℕ} (hfuel : (t.own o).requests.length ≤ fuel) :
    (purgeRequests o fuel t).Inv ∧ ((purgeRequests o fuel t).own o).requests = [] := by
  induction fuel generalizing t with
  | zero => exact ⟨h, List.length_eq_zero_iff.1 (Nat.le_zero.1 hfuel)⟩
  | succ fuel ih =>
    rw [purgeRequests]
    cases hrequests : (t.own o).requests with
    | nil => exact ⟨h, hrequests⟩
    | cons r rest =>
      have hr : (t.lrq r).live := (h.linked.ownerOf o r (hrequests ▸ List.mem_cons_self)).1
      obtain ⟨hinv, hown⟩ := releaseRequest_inv h hr
      refine ih hinv ?_
      rw [hown, hrequests, List.erase_cons_head]
      rw [hrequests, List.length_cons] at hfuel
      omega

/-- An owner without requests owns none. -/
theorem Linked.owner_ne (h : t.Linked) {o x : ℕ} (hempty : (t.own o).requests = [])
    (hx : (t.lrq x).live) : (t.lrq x).owner ≠ o := by
  intro ho
  have hmem := h.onOwner x hx
  rw [ho, hempty] at hmem
  cases hmem

/-- An owner without requests may be set up or removed. -/
theorem onOwn_linked (h : t.Linked) {o : ℕ} (hempty : (t.own o).requests = []) (f : Own → Own)
    (hrequests : (f (t.own o)).requests = []) : (t.onOwn o f).Linked := by
  have hown : ∀ p, p ≠ o → (t.onOwn o f).own p = t.own p := by
    intro p hp
    rw [onOwn_own, Function.update_of_ne hp]
  have hself : (t.onOwn o f).own o = f (t.own o) := by
    rw [onOwn_own, Function.update_self]
  have ⟨onLock, onOwner, lockOf, ownerOf, lockNodup, ownNodup, lockLive, ownLive⟩ := h
  refine ⟨onLock, fun x hx => ?_, lockOf, fun p x hx => ?_, lockNodup, fun p => ?_, lockLive,
    fun p hp => ?_⟩
  · rw [onOwn_lrq, hown _ (h.owner_ne hempty hx)]
    exact onOwner x hx
  · by_cases hp : p = o
    · rw [hp, hself, hrequests] at hx
      cases hx
    · rw [hown p hp] at hx
      exact ownerOf p x hx
  · by_cases hp : p = o
    · rw [hp, hself, hrequests]
      exact List.nodup_nil
    · exact hown p hp ▸ ownNodup p
  · by_cases hpo : p = o
    · rw [hpo, hself, hrequests] at hp
      exact absurd rfl hp
    · rw [hown p hpo] at hp ⊢
      exact ownLive p hp

theorem onOwn_inv (h : t.Inv) {o : ℕ} (hempty : (t.own o).requests = []) (f : Own → Own)
    (hrequests : (f (t.own o)).requests = []) (hpending : (f (t.own o)).pending = []) :
    (t.onOwn o f).Inv := by
  refine ⟨onOwn_linked h.linked hempty f hrequests, ⟨fun p x => ?_, fun p => ?_⟩, h.locks⟩
  · rw [onOwn_lrq, onOwn_own]
    by_cases hp : p = o
    · subst hp
      rw [Function.update_self, hpending]
      exact iff_of_false List.not_mem_nil fun hx => h.linked.owner_ne hempty hx.1 hx.2.1
    · rw [Function.update_of_ne hp]
      exact h.pendingLinked.mem p x
  · rw [onOwn_own]
    by_cases hp : p = o
    · rw [hp, Function.update_self, hpending]
      exact List.nodup_nil
    · rw [Function.update_of_ne hp]
      exact h.pendingLinked.nodup p

theorem pending_eq_nil (h : t.Inv) {o : ℕ} (hempty : (t.own o).requests = []) :
    (t.own o).pending = [] := by
  refine List.eq_nil_iff_forall_not_mem.2 fun x hx => ?_
  obtain ⟨hlive, howner, -⟩ := (h.pendingLinked.mem o x).1 hx
  have hmem := h.linked.onOwner x hlive
  rw [howner, hempty] at hmem
  cases hmem

theorem purgeOwner_inv (h : t.Inv) (o : ℕ) : (t.purgeOwner o).Inv := by
  obtain ⟨hinv, hempty⟩ := purgeRequests_inv h (o := o) le_rfl
  exact onOwn_inv hinv hempty _ hempty (pending_eq_nil hinv hempty)

end

end Table

end FirebirdCore.Lock
