import FirebirdCore.Lock.Counts

/-!
# Granting and releasing

`Linked` says that the queues of locks and owners hold just the requests in use, `PendingLinked` the
same of the pending lists. With `Lbl.Ok` for every lock they are the invariant `Inv`, which granting,
posting pending requests and releasing keep.
-/
namespace FirebirdCore.Lock
open FirebirdCore.Tally

namespace Table

/-! ## The queues -/

/-- The queues of locks and owners hold just the requests in use. -/
structure Linked (t : Table) : Prop where
  onLock : ∀ r, (t.lrq r).live → r ∈ (t.lbl (t.lrq r).lock).requests
  onOwner : ∀ r, (t.lrq r).live → r ∈ (t.own (t.lrq r).owner).requests
  lockOf : ∀ res, ∀ r ∈ (t.lbl res).requests, (t.lrq r).live ∧ (t.lrq r).lock = res
  ownerOf : ∀ o, ∀ r ∈ (t.own o).requests, (t.lrq r).live ∧ (t.lrq r).owner = o
  lockNodup : ∀ res, (t.lbl res).requests.Nodup
  ownNodup : ∀ o, (t.own o).requests.Nodup
  lockLive : ∀ res, (t.lbl res).live ↔ (t.lbl res).requests ≠ []
  ownLive : ∀ o, (t.own o).requests ≠ [] → (t.own o).live

/-- The pending lists of the owners hold just the pending requests. -/
structure PendingLinked (t : Table) : Prop where
  mem : ∀ o r, r ∈ (t.own o).pending ↔ (t.lrq r).live ∧ (t.lrq r).owner = o ∧ (t.lrq r).pending
  nodup : ∀ o, (t.own o).pending.Nodup

structure Inv (t : Table) : Prop where
  linked : t.Linked
  pendingLinked : t.PendingLinked
  locks : ∀ res, (t.lbl res).live → (t.lbl res).Ok t.lrq

/-- The two tables have the same requests in their queues. -/
structure SameQueues (t t' : Table) : Prop where
  live : ∀ r, (t'.lrq r).live = (t.lrq r).live
  owner : ∀ r, (t'.lrq r).owner = (t.lrq r).owner
  lock : ∀ r, (t'.lrq r).lock = (t.lrq r).lock
  requests : ∀ res, (t'.lbl res).requests.Perm (t.lbl res).requests
  lockLive : ∀ res, (t'.lbl res).live = (t.lbl res).live
  ownRequests : ∀ o, (t'.own o).requests = (t.own o).requests
  ownLive : ∀ o, (t'.own o).live = (t.own o).live

section
variable {t t' : Table} {r : ℕ}

theorem SameQueues.refl (t : Table) : SameQueues t t :=
  ⟨fun _ => rfl, fun _ => rfl, fun _ => rfl, fun _ => .rfl, fun _ => rfl, fun _ => rfl, fun _ => rfl⟩

theorem SameQueues.trans {t'' : Table} (h : SameQueues t t') (h' : SameQueues t' t'') :
    SameQueues t t'' :=
  ⟨fun r => (h'.live r).trans (h.live r), fun r => (h'.owner r).trans (h.owner r),
    fun r => (h'.lock r).trans (h.lock r), fun res => (h'.requests res).trans (h.requests res),
    fun res => (h'.lockLive res).trans (h.lockLive res),
    fun o => (h'.ownRequests o).trans (h.ownRequests o),
    fun o => (h'.ownLive o).trans (h.ownLive o)⟩

theorem Linked.congr (h : t.Linked) (hsame : SameQueues t t') : t'.Linked where
  onLock r hr := by
    rw [hsame.live] at hr
    rw [hsame.lock, (hsame.requests _).mem_iff]
    exact h.onLock r hr
  onOwner r hr := by
    rw [hsame.live] at hr
    rw [hsame.owner, hsame.ownRequests]
    exact h.onOwner r hr
  lockOf res r hr := by
    rw [hsame.live, hsame.lock]
    exact h.lockOf res r ((hsame.requests res).mem_iff.1 hr)
  ownerOf o r hr := by
    rw [hsame.ownRequests] at hr
    rw [hsame.live, hsame.owner]
    exact h.ownerOf o r hr
  lockNodup res := (hsame.requests res).nodup_iff.2 (h.lockNodup res)
  ownNodup o := hsame.ownRequests o ▸ h.ownNodup o
  lockLive res := by
    have hlength := (hsame.requests res).length_eq
    rw [hsame.lockLive, h.lockLive, ← List.length_pos_iff, ← List.length_pos_iff, hlength]
  ownLive o ho := by
    rw [hsame.ownRequests] at ho
    rw [hsame.ownLive]
    exact h.ownLive o ho

theorem PendingLinked.congr (h : t.PendingLinked) (hsame : SameQueues t t')
    (hpending : ∀ r, (t'.lrq r).pending = (t.lrq r).pending)
    (hown : ∀ o, (t'.own o).pending = (t.own o).pending) : t'.PendingLinked where
  mem o r := by
    rw [hown, hsame.live, hsame.owner, hpending]
    exact h.mem o r
  nodup o := hown o ▸ h.nodup o

theorem Linked.notMem (h : t.Linked) {res : Resource} (hr : (t.lrq r).lock ≠ res) :
    r ∉ (t.lbl res).requests :=
  fun hmem => hr (h.lockOf res r hmem).2

/-- Changing a request does not matter to the other locks. -/
theorem Linked.ok_of_ne (h : t.Linked) {res : Resource} (hok : (t.lbl res).Ok t.lrq)
    (hr : (t.lrq r).lock ≠ res) (request : Lrq) :
    (t.lbl res).Ok (Function.update t.lrq r request) := by
  have hsame : ∀ x ∈ (t.lbl res).requests, Function.update t.lrq r request x = t.lrq x :=
    fun x hx => Function.update_of_ne (fun he : x = r => h.notMem hr (he ▸ hx)) _ _
  refine hok.congr .rfl rfl rfl rfl (fun x hx => ?_) (fun x hx => ?_) (fun x hx => ?_) <;>
    rw [hsame x hx]

theorem Linked.lock_live (h : t.Linked) (hr : (t.lrq r).live) :
    (t.lbl (t.lrq r).lock).live :=
  (h.lockLive _).2 (List.ne_nil_of_mem (h.onLock r hr))

/-! ## Granting -/

theorem grant_sameQueues (t : Table) (r : ℕ) : SameQueues t (t.grant r) := by
  obtain ⟨data, hlbl⟩ := grant_lbl t r
  have hlrq : ∀ x, ((t.grant r).lrq x).live = (t.lrq x).live ∧
      ((t.grant r).lrq x).owner = (t.lrq x).owner ∧ ((t.grant r).lrq x).lock = (t.lrq x).lock := by
    intro x
    rw [grant_lrq]
    by_cases hx : x = r
    · rw [hx, Function.update_self]
      exact ⟨rfl, rfl, rfl⟩
    · rw [Function.update_of_ne hx]
      exact ⟨rfl, rfl, rfl⟩
  have hlock : ∀ res, ((t.grant r).lbl res).requests = (t.lbl res).requests ∧
      ((t.grant r).lbl res).live = (t.lbl res).live := by
    intro res
    rw [hlbl]
    by_cases hres : res = (t.lrq r).lock
    · rw [hres, Function.update_self]
      exact ⟨rfl, rfl⟩
    · rw [Function.update_of_ne hres]
      exact ⟨rfl, rfl⟩
  have hown : ∀ o, ((t.grant r).own o).requests = (t.own o).requests ∧
      ((t.grant r).own o).live = (t.own o).live := by
    intro o
    rw [grant_own]
    split_ifs
    · by_cases ho : o = (t.lrq r).owner
      · rw [ho, Function.update_self]
        exact ⟨rfl, rfl⟩
      · rw [Function.update_of_ne ho]
        exact ⟨rfl, rfl⟩
    · exact ⟨rfl, rfl⟩
  exact ⟨fun x => (hlrq x).1, fun x => (hlrq x).2.1, fun x => (hlrq x).2.2,
    fun res => (hlock res).1 ▸ .rfl, fun res => (hlock res).2, fun o => (hown o).1,
    fun o => (hown o).2⟩

/-- Clearing the flag of a request and taking it off the list of its owner. -/
theorem PendingLinked.clear (h : t.PendingLinked)
    (hother : ∀ x, x ≠ r → (t'.lrq x).live = (t.lrq x).live ∧
      (t'.lrq x).owner = (t.lrq x).owner ∧ (t'.lrq x).pending = (t.lrq x).pending)
    (hself : (t'.lrq r).pending = false)
    (hown : ∀ o, (t'.own o).pending =
      if o = (t.lrq r).owner then (t.own o).pending.erase r else (t.own o).pending) :
    t'.PendingLinked := by
  refine ⟨fun o x => ?_, fun o => ?_⟩
  · rw [hown]
    by_cases hx : x = r
    · subst hx
      simp only [hself, Bool.false_eq_true, and_false, iff_false]
      split_ifs with ho
      · exact (h.nodup o).not_mem_erase
      · exact fun hmem => ho ((h.mem o x).1 hmem).2.1.symm
    · obtain ⟨hlive, howner, hpending⟩ := hother x hx
      rw [hlive, howner, hpending, ← h.mem]
      split_ifs
      · exact List.mem_erase_of_ne hx
      · rfl
  · rw [hown]
    split_ifs
    · exact (h.nodup o).erase r
    · exact h.nodup o

theorem PendingLinked.erase_eq (h : t.PendingLinked) (hr : (t.lrq r).pending = false) (o : ℕ) :
    (t.own o).pending.erase r = (t.own o).pending := by
  refine List.erase_of_not_mem fun hmem => ?_
  have hpending := ((h.mem o r).1 hmem).2.2
  rw [hr] at hpending
  cases hpending

theorem grant_pendingLinked (h : t.PendingLinked) : (t.grant r).PendingLinked := by
  refine h.clear (r := r) (fun x hx => ?_) ?_ fun o => ?_
  · rw [grant_lrq, Function.update_of_ne hx]
    exact ⟨rfl, rfl, rfl⟩
  · rw [grant_lrq, Function.update_self]
    rfl
  · rw [grant_own]
    by_cases hr : (t.lrq r).pending
    · rw [if_pos hr]
      by_cases ho : o = (t.lrq r).owner
      · rw [if_pos ho, ho, Function.update_self]
      · rw [if_neg ho, Function.update_of_ne ho]
    · rw [if_neg hr, h.erase_eq (Bool.eq_false_of_not_eq_true hr), ite_self]

/-- Granting a request that goes with the others on its lock. -/
theorem grant_inv (hlinked : t.Linked) (hpending : t.PendingLinked) (hr : (t.lrq r).live)
    (hothers : ∀ res, res ≠ (t.lrq r).lock → (t.lbl res).live → (t.lbl res).Ok t.lrq)
    (hsteady : (t.lbl (t.lrq r).lock).Steady t.lrq)
    (hcounted : (t.lbl (t.lrq r).lock).CountedBut t.lrq r)
    (hcompat : compatibility (t.lrq r).requested (lockState (t.lbl (t.lrq r).lock).counts)) :
    (t.grant r).Inv := by
  have hsame := grant_sameQueues t r
  refine ⟨hlinked.congr hsame, grant_pendingLinked hpending, fun res hres => ?_⟩
  rw [hsame.lockLive] at hres
  obtain ⟨data, hlbl⟩ := grant_lbl t r
  rw [hlbl, grant_lrq]
  by_cases heq : res = (t.lrq r).lock
  · rw [heq, Function.update_self]
    exact Lbl.granted_ok hsteady hcounted (hlinked.onLock r hr) (hlinked.lockNodup _) hcompat data
  · rw [Function.update_of_ne heq]
    exact hlinked.ok_of_ne (hothers res heq hres) (Ne.symm heq) _

/-- The same for a conversion whose former level is taken off the counts first. -/
theorem grant_lowered_inv (h : t.Inv) (hr : (t.lrq r).live)
    (hcompat : compatibility (t.lrq r).requested
      (lockState ((t.lbl (t.lrq r).lock).decr (t.lrq r).state).counts)) :
    ((t.onLbl (t.lrq r).lock (·.decr (t.lrq r).state)).grant r).Inv := by
  generalize hlowered : t.onLbl (t.lrq r).lock (·.decr (t.lrq r).state) = lowered
  have hlrq : lowered.lrq = t.lrq := hlowered ▸ rfl
  have hown : lowered.own = t.own := hlowered ▸ rfl
  have hself : lowered.lbl (t.lrq r).lock = (t.lbl (t.lrq r).lock).decr (t.lrq r).state := by
    rw [← hlowered, onLbl_lbl, Function.update_self]
  have hother : ∀ res, res ≠ (t.lrq r).lock → lowered.lbl res = t.lbl res := by
    intro res hres
    rw [← hlowered, onLbl_lbl, Function.update_of_ne hres]
  have hlock : ∀ res, (lowered.lbl res).requests = (t.lbl res).requests ∧
      (lowered.lbl res).live = (t.lbl res).live := by
    intro res
    by_cases hres : res = (t.lrq r).lock
    · rw [hres, hself]
      exact ⟨rfl, rfl⟩
    · rw [hother res hres]
      exact ⟨rfl, rfl⟩
  have hsame : SameQueues t lowered :=
    ⟨fun x => by rw [hlrq], fun x => by rw [hlrq], fun x => by rw [hlrq],
      fun res => (hlock res).1 ▸ .rfl, fun res => (hlock res).2, fun o => by rw [hown],
      fun o => by rw [hown]⟩
  have hok := h.locks _ (h.linked.lock_live hr)
  have hmem := h.linked.onLock r hr
  have hnodup := h.linked.lockNodup (t.lrq r).lock
  refine grant_inv (h.linked.congr hsame) (h.pendingLinked.congr hsame (fun x => by rw [hlrq])
    fun o => by rw [hown]) (hlrq ▸ hr) (fun res hres hlive => ?_) ?_ ?_ ?_
  · rw [hlrq] at hres ⊢
    rw [hother res hres] at hlive ⊢
    exact h.locks res hlive
  · rw [hlrq, hself]
    exact hok.toSteady.congr .rfl rfl (fun _ _ => rfl) (fun _ _ => rfl) (fun _ _ => rfl)
  · rw [hlrq, hself]
    exact hok.countedBut hmem hnodup
  · rw [hlrq, hself]
    exact hcompat

/-- Lowering the count of a request and raising it again changes nothing. -/
theorem onLbl_decr_incr (t : Table) (res : Resource) (s : Level) :
    (t.onLbl res (·.decr s)).onLbl res (·.incr s) = t := by
  cases t
  simp [onLbl, Lbl.decr_incr]

theorem onLbl_sameQueues (t : Table) (res : Resource) (f : Lbl → Lbl)
    (hrequests : (f (t.lbl res)).requests = (t.lbl res).requests)
    (hlive : (f (t.lbl res)).live = (t.lbl res).live) : SameQueues t (t.onLbl res f) := by
  have hlock : ∀ x, ((t.onLbl res f).lbl x).requests = (t.lbl x).requests ∧
      ((t.onLbl res f).lbl x).live = (t.lbl x).live := by
    intro x
    rw [onLbl_lbl]
    by_cases hx : x = res
    · rw [hx, Function.update_self]
      exact ⟨hrequests, hlive⟩
    · rw [Function.update_of_ne hx]
      exact ⟨rfl, rfl⟩
  exact ⟨fun _ => rfl, fun _ => rfl, fun _ => rfl, fun x => (hlock x).1 ▸ .rfl,
    fun x => (hlock x).2, fun _ => rfl, fun _ => rfl⟩

theorem onLrq_sameQueues (t : Table) (r : ℕ) (f : Lrq → Lrq)
    (hlive : (f (t.lrq r)).live = (t.lrq r).live) (howner : (f (t.lrq r)).owner = (t.lrq r).owner)
    (hlock : (f (t.lrq r)).lock = (t.lrq r).lock) : SameQueues t (t.onLrq r f) := by
  have hlrq : ∀ x, ((t.onLrq r f).lrq x).live = (t.lrq x).live ∧
      ((t.onLrq r f).lrq x).owner = (t.lrq x).owner ∧
      ((t.onLrq r f).lrq x).lock = (t.lrq x).lock := by
    intro x
    rw [onLrq_lrq]
    by_cases hx : x = r
    · rw [hx, Function.update_self]
      exact ⟨hlive, howner, hlock⟩
    · rw [Function.update_of_ne hx]
      exact ⟨rfl, rfl, rfl⟩
  exact ⟨fun x => (hlrq x).1, fun x => (hlrq x).2.1, fun x => (hlrq x).2.2, fun _ => .rfl,
    fun _ => rfl, fun _ => rfl, fun _ => rfl⟩

theorem grant_lowered_sameQueues (t : Table) (r : ℕ) :
    SameQueues t ((t.onLbl (t.lrq r).lock (·.decr (t.lrq r).state)).grant r) :=
  (onLbl_sameQueues t _ _ rfl rfl).trans (grant_sameQueues _ r)

theorem postPendingLoop_sameQueues (t : Table) (rs : List ℕ) :
    SameQueues t (t.postPendingLoop rs) := by
  induction rs generalizing t with
  | nil => exact .refl t
  | cons r rs ih =>
    rw [postPendingLoop]
    dsimp only
    split_ifs
    · exact ih t
    · exact (grant_lowered_sameQueues t r).trans (ih _)
    · rw [onLbl_decr_incr]
      exact .refl t
    · exact (grant_sameQueues t r).trans (ih _)
    · exact .refl t

theorem postPending_sameQueues (t : Table) (res : Resource) : SameQueues t (t.postPending res) := by
  rw [postPending]
  split_ifs
  · exact .refl t
  · exact postPendingLoop_sameQueues t _

/-- Each round of the loop grants what goes with the others, or ends it. -/
theorem postPendingLoop_inv (h : t.Inv) (rs : List ℕ) (hrs : ∀ r ∈ rs, (t.lrq r).live) :
    (t.postPendingLoop rs).Inv := by
  induction rs generalizing t with
  | nil => exact h
  | cons r rs ih =>
    obtain ⟨hr, hrest⟩ := List.forall_mem_cons.1 hrs
    rw [postPendingLoop]
    by_cases hpending : (!(t.lrq r).pending) = true
    · rw [if_pos hpending]
      exact ih h hrest
    rw [if_neg hpending]
    by_cases hstate : (t.lrq r).state ≠ .none
    · rw [if_pos hstate]
      by_cases hcompat : compatibility (t.lrq r).requested
          (lockState ((t.onLbl (t.lrq r).lock (·.decr (t.lrq r).state)).lbl (t.lrq r).lock).counts)
      · rw [if_pos hcompat]
        rw [onLbl_lbl, Function.update_self] at hcompat
        have hsame := grant_lowered_sameQueues t r
        exact ih (grant_lowered_inv h hr hcompat) fun x hx => (hsame.live x).trans (hrest x hx)
      · rw [if_neg hcompat, onLbl_decr_incr]
        exact h
    rw [if_neg hstate]
    have hnone : (t.lrq r).state = .none := not_not.1 hstate
    by_cases hcompat : compatibility (t.lrq r).requested (t.lbl (t.lrq r).lock).state
    · rw [if_pos hcompat]
      have hok := h.locks _ (h.linked.lock_live hr)
      rw [hok.stateEq] at hcompat
      have hsame := grant_sameQueues t r
      have hinv := grant_inv h.linked h.pendingLinked hr (fun res _ => h.locks res) hok.toSteady
        (hok.countedBut_of_none (h.linked.onLock r hr) (h.linked.lockNodup _) hnone) hcompat
      exact ih hinv fun x hx => (hsame.live x).trans (hrest x hx)
    · rw [if_neg hcompat]
      exact h

theorem postPending_inv (h : t.Inv) (res : Resource) : (t.postPending res).Inv := by
  rw [postPending]
  split_ifs
  · exact h
  · exact postPendingLoop_inv h _ fun r hr => (h.linked.lockOf res r hr).1

/-! ## Releasing -/

theorem unlinkRequest_lrq (t : Table) (r : ℕ) : (t.unlinkRequest r).lrq =
    Function.update t.lrq r { t.lrq r with
      live := false
      pending := false } := by
  refine funext fun x => ?_
  by_cases hx : x = r
  · subst hx
    rw [Function.update_self]
    by_cases hpending : (t.lrq x).pending <;> simp [unlinkRequest, clearPending, hpending]
  · rw [Function.update_of_ne hx]
    by_cases hpending : (t.lrq r).pending <;> simp [unlinkRequest, clearPending, hpending, hx]

theorem unlinkRequest_lbl (t : Table) (r : ℕ) : (t.unlinkRequest r).lbl =
    Function.update t.lbl (t.lrq r).lock { t.lbl (t.lrq r).lock with
      requests := (t.lbl (t.lrq r).lock).requests.erase r
      pendingLrqCount := if (t.lrq r).pending then (t.lbl (t.lrq r).lock).pendingLrqCount - 1
        else (t.lbl (t.lrq r).lock).pendingLrqCount } := by
  by_cases hpending : (t.lrq r).pending <;> simp [unlinkRequest, clearPending, hpending]

theorem unlinkRequest_own (t : Table) (r : ℕ) : (t.unlinkRequest r).own =
    Function.update t.own (t.lrq r).owner { t.own (t.lrq r).owner with
      requests := (t.own (t.lrq r).owner).requests.erase r
      pending := if (t.lrq r).pending then (t.own (t.lrq r).owner).pending.erase r
        else (t.own (t.lrq r).owner).pending } := by
  by_cases hpending : (t.lrq r).pending <;> simp [unlinkRequest, clearPending, hpending]

/-- The queues after a request left them. -/
theorem unlinkRequest_linked (h : t.Linked)
    (hlrq : t'.lrq = (t.unlinkRequest r).lrq) (hown : t'.own = (t.unlinkRequest r).own)
    (hrequests : ∀ res, (t'.lbl res).requests = ((t.unlinkRequest r).lbl res).requests)
    (hlive : ∀ res, (t'.lbl res).live ↔ (t'.lbl res).requests ≠ []) : t'.Linked := by
  have ⟨onLock, onOwner, lockOf, ownerOf, lockNodup, ownNodup, _, ownLive⟩ := h
  have hself : t'.lrq r = { t.lrq r with
      live := false
      pending := false } := by
    rw [hlrq, unlinkRequest_lrq, Function.update_self]
  have hother : ∀ x, x ≠ r → t'.lrq x = t.lrq x := by
    intro x hx
    rw [hlrq, unlinkRequest_lrq, Function.update_of_ne hx]
  have hdead : (t'.lrq r).live = false := by rw [hself]
  -- No queue has the request any more, and each has the others.
  have hlock : ∀ res, (t'.lbl res).requests = (t.lbl res).requests.erase r := by
    intro res
    rw [hrequests, unlinkRequest_lbl]
    by_cases hres : res = (t.lrq r).lock
    · rw [hres, Function.update_self]
    · rw [Function.update_of_ne hres, List.erase_of_not_mem (h.notMem (Ne.symm hres))]
  have howner : ∀ o, (t'.own o).requests = (t.own o).requests.erase r ∧
      (t'.own o).live = (t.own o).live := by
    intro o
    rw [hown, unlinkRequest_own]
    by_cases ho : o = (t.lrq r).owner
    · rw [ho, Function.update_self]
      exact ⟨rfl, rfl⟩
    · rw [Function.update_of_ne ho,
        List.erase_of_not_mem fun hmem => ho (ownerOf o r hmem).2.symm]
      exact ⟨rfl, rfl⟩
  refine ⟨fun x hx => ?_, fun x hx => ?_, fun res x hx => ?_, fun o x hx => ?_, fun res => ?_,
    fun o => ?_, hlive, fun o ho => ?_⟩
  · have hne : x ≠ r := fun he => by rw [he, hdead] at hx; cases hx
    rw [hother x hne] at hx ⊢
    rw [hlock, (lockNodup _).mem_erase_iff]
    exact ⟨hne, onLock x hx⟩
  · have hne : x ≠ r := fun he => by rw [he, hdead] at hx; cases hx
    rw [hother x hne] at hx ⊢
    rw [(howner _).1, (ownNodup _).mem_erase_iff]
    exact ⟨hne, onOwner x hx⟩
  · rw [hlock, (lockNodup _).mem_erase_iff] at hx
    rw [hother x hx.1]
    exact lockOf res x hx.2
  · rw [(howner o).1, (ownNodup _).mem_erase_iff] at hx
    rw [hother x hx.1]
    exact ownerOf o x hx.2
  · exact hlock res ▸ (lockNodup res).erase r
  · exact (howner o).1 ▸ (ownNodup o).erase r
  · rw [(howner o).1] at ho
    rw [(howner o).2]
    exact ownLive o fun hnil => ho (by rw [hnil, List.erase_nil])

theorem unlinkRequest_pendingLinked (h : t.PendingLinked)
    (hlrq : t'.lrq = (t.unlinkRequest r).lrq) (hown : t'.own = (t.unlinkRequest r).own) :
    t'.PendingLinked := by
  refine h.clear (r := r) (fun x hx => ?_) ?_ fun o => ?_
  · rw [hlrq, unlinkRequest_lrq, Function.update_of_ne hx]
    exact ⟨rfl, rfl, rfl⟩
  · rw [hlrq, unlinkRequest_lrq, Function.update_self]
  · rw [hown, unlinkRequest_own]
    by_cases ho : o = (t.lrq r).owner
    · rw [if_pos ho, ho, Function.update_self]
      by_cases hp : (t.lrq r).pending
      · simp only [hp, if_true]
      · simp only [hp, Bool.false_eq_true, if_false]
        exact (h.erase_eq (Bool.eq_false_of_not_eq_true hp) _).symm
    · rw [if_neg ho, Function.update_of_ne ho]

theorem unlinked_inv (h : t.Inv)
    (hlrq : t'.lrq = (t.unlinkRequest r).lrq) (hown : t'.own = (t.unlinkRequest r).own)
    (hother : ∀ res, res ≠ (t.lrq r).lock → t'.lbl res = t.lbl res)
    (hrequests : (t'.lbl (t.lrq r).lock).requests = (t.lbl (t.lrq r).lock).requests.erase r)
    (hlive : (t'.lbl (t.lrq r).lock).live ↔ (t'.lbl (t.lrq r).lock).requests ≠ [])
    (hok : (t'.lbl (t.lrq r).lock).live → (t'.lbl (t.lrq r).lock).Ok t'.lrq) : t'.Inv := by
  have hlinked := unlinkRequest_linked h.linked hlrq hown (fun res => ?_) fun res => ?_
  · refine ⟨hlinked, unlinkRequest_pendingLinked h.pendingLinked hlrq hown, fun res hres => ?_⟩
    by_cases heq : res = (t.lrq r).lock
    · subst heq
      exact hok hres
    · rw [hother res heq] at hres ⊢
      rw [hlrq, unlinkRequest_lrq]
      exact h.linked.ok_of_ne (h.locks res hres) (Ne.symm heq) _
  · rw [unlinkRequest_lbl]
    by_cases heq : res = (t.lrq r).lock
    · rw [heq, hrequests, Function.update_self]
    · rw [hother res heq, Function.update_of_ne heq]
  · by_cases heq : res = (t.lrq r).lock
    · rw [heq]
      exact hlive
    · rw [hother res heq]
      exact h.linked.lockLive res

/-- A release takes the request off its queues and posts the pending ones of the lock, in a table that
is in order again. -/
theorem releaseRequest_eq (h : t.Inv) (hr : (t.lrq r).live) : ∃ v : Table, v.Inv ∧
    v.lrq = (t.unlinkRequest r).lrq ∧ v.own = (t.unlinkRequest r).own ∧
    (∀ res, res ≠ (t.lrq r).lock → v.lbl res = t.lbl res) ∧
    (v.lbl (t.lrq r).lock).requests = (t.lbl (t.lrq r).lock).requests.erase r ∧
    t.releaseRequest r = v.postPending (t.lrq r).lock := by
  have hok := h.locks _ (h.linked.lock_live hr)
  have hmem := h.linked.onLock r hr
  have hnodup := h.linked.lockNodup (t.lrq r).lock
  have hunlinked := unlinkRequest_lbl t r
  have hlrq : ∀ x, x ≠ r → (t.unlinkRequest r).lrq x = t.lrq x := by
    intro x hx
    rw [unlinkRequest_lrq, Function.update_of_ne hx]
  rw [releaseRequest]
  generalize hu : t.unlinkRequest r = u at hunlinked hlrq
  have hself : u.lbl (t.lrq r).lock = { t.lbl (t.lrq r).lock with
      requests := (t.lbl (t.lrq r).lock).requests.erase r
      pendingLrqCount := if (t.lrq r).pending then (t.lbl (t.lrq r).lock).pendingLrqCount - 1
        else (t.lbl (t.lrq r).lock).pendingLrqCount } := by
    rw [hunlinked, Function.update_self]
  have hother : ∀ res, res ≠ (t.lrq r).lock → u.lbl res = t.lbl res := by
    intro res hres
    rw [hunlinked, Function.update_of_ne hres]
  have hlockLive : (u.lbl (t.lrq r).lock).live := by
    rw [hself]
    exact h.linked.lock_live hr
  dsimp only
  by_cases hempty : (u.lbl (t.lrq r).lock).requests = []
  · rw [if_pos hempty]
    have hrequests : (((u.removeDataQue (t.lrq r).lock).onLbl (t.lrq r).lock
        ({ · with live := false })).lbl (t.lrq r).lock).requests = [] := by
      rw [onLbl_lbl, Function.update_self]
      exact hempty
    have herase : (t.lbl (t.lrq r).lock).requests.erase r = [] := by
      rw [hself] at hempty
      exact hempty
    refine ⟨(u.removeDataQue (t.lrq r).lock).onLbl (t.lrq r).lock ({ · with live := false }), ?_, rfl,
      rfl, fun res hres => ?_, hrequests.trans herase.symm, ?_⟩
    · refine unlinked_inv h (r := r) (by rw [hu]; rfl) (by rw [hu]; rfl)
        (fun res hres => ?_) (hrequests.trans herase.symm) ?_ fun hlive => ?_
      · rw [onLbl_lbl, Function.update_of_ne hres]
        exact hother res hres
      · rw [onLbl_lbl, Function.update_self]
        show false = true ↔ (u.lbl _).requests ≠ []
        simp [hempty]
      · rw [onLbl_lbl, Function.update_self] at hlive
        cases hlive
    · rw [onLbl_lbl, Function.update_of_ne hres]
      exact hother res hres
    · rw [postPending, hrequests, postPendingLoop, ite_self]
  rw [if_neg hempty]
  -- It remains to see that the counts and the state are right before the pending ones are posted.
  have hpost : ∀ v : Table, v.lrq = u.lrq → v.own = u.own →
      (∀ res, res ≠ (t.lrq r).lock → v.lbl res = u.lbl res) →
      (v.lbl (t.lrq r).lock).requests = (u.lbl (t.lrq r).lock).requests →
      (v.lbl (t.lrq r).lock).live = (u.lbl (t.lrq r).lock).live →
      (v.lbl (t.lrq r).lock).pendingLrqCount = (u.lbl (t.lrq r).lock).pendingLrqCount →
      (∀ s, s ≠ .none → (v.lbl (t.lrq r).lock).counts s =
        UInt16.ofNat (others (fun x => (t.lrq x).state = s) r (t.lbl (t.lrq r).lock).requests)) →
      (v.lbl (t.lrq r).lock).state = lockState (v.lbl (t.lrq r).lock).counts →
      v.Inv ∧ v.lrq = u.lrq ∧ v.own = u.own ∧ (∀ res, res ≠ (t.lrq r).lock → v.lbl res = t.lbl res) ∧
        (v.lbl (t.lrq r).lock).requests = (t.lbl (t.lrq r).lock).requests.erase r := by
    intro v hvlrq hvown hvother hvrequests hvlive hvpending hvcounts hvstate
    have herase : (v.lbl (t.lrq r).lock).requests = (t.lbl (t.lrq r).lock).requests.erase r := by
      rw [hvrequests, hself]
    have hothers : ∀ res, res ≠ (t.lrq r).lock → v.lbl res = t.lbl res := fun res hres =>
      (hvother res hres).trans (hother res hres)
    refine ⟨unlinked_inv h (hu ▸ hvlrq) (hu ▸ hvown) hothers herase ?_ fun _ => ?_, hvlrq, hvown,
      hothers, herase⟩
    · rw [hvrequests, hvlive, hlockLive]
      simp [hempty]
    · refine hok.erased hmem hnodup herase ?_ hvcounts hvstate fun x hx => ?_
      · rw [hvpending, hself]
      · rw [hvlrq, hlrq x hx]
  by_cases hstate : (t.lrq r).state ≠ .none
  · rw [if_pos hstate]
    have hcounted := hok.countedBut hmem hnodup
    have hlower : ((u.onLbl (t.lrq r).lock (·.decr (t.lrq r).state)).lbl (t.lrq r).lock) =
        (u.lbl (t.lrq r).lock).decr (t.lrq r).state := by
      rw [onLbl_lbl, Function.update_self]
    have hcountsEq : ((u.lbl (t.lrq r).lock).decr (t.lrq r).state).counts =
        ((t.lbl (t.lrq r).lock).decr (t.lrq r).state).counts := by
      rw [hself]
      rfl
    by_cases hzero : ((u.onLbl (t.lrq r).lock (·.decr (t.lrq r).state)).lbl
        (t.lrq r).lock).counts (t.lrq r).state = 0
    · rw [if_pos hzero]
      obtain ⟨hinv, hvlrq, hvown, hvother, hverase⟩ := hpost
        ((u.onLbl (t.lrq r).lock (·.decr (t.lrq r).state)).onLbl (t.lrq r).lock
          fun lock => { lock with state := lockState lock.counts })
        rfl rfl (fun res hres => by
          rw [onLbl_lbl, Function.update_of_ne hres, onLbl_lbl, Function.update_of_ne hres])
        (by rw [onLbl_lbl, Function.update_self, hlower]; rfl)
        (by rw [onLbl_lbl, Function.update_self, hlower]; rfl)
        (by rw [onLbl_lbl, Function.update_self, hlower]; rfl)
        (fun s hs => by
          rw [onLbl_lbl, Function.update_self, hlower, hcountsEq]
          exact hcounted s hs)
        (by rw [onLbl_lbl, Function.update_self])
      exact ⟨_, hinv, hvlrq, hvown, hvother, hverase, rfl⟩
    · rw [if_neg hzero]
      obtain ⟨hinv, hvlrq, hvown, hvother, hverase⟩ := hpost
        (u.onLbl (t.lrq r).lock (·.decr (t.lrq r).state))
        rfl rfl (fun res hres => by rw [onLbl_lbl, Function.update_of_ne hres])
        (by rw [hlower]; rfl) (by rw [hlower]; rfl) (by rw [hlower]; rfl)
        (fun s hs => by
          rw [hlower, hcountsEq]
          exact hcounted s hs)
        (by
          rw [hlower, hcountsEq]
          show (u.lbl (t.lrq r).lock).state = _
          rw [hself]
          refine hok.stateEq.trans (lockState_congr fun s hs => ?_)
          -- The level that was lowered is still held.
          rw [hlower, hcountsEq] at hzero
          by_cases heq : s = (t.lrq r).state
          · subst heq
            refine iff_of_false (fun h0 => ?_) hzero
            rw [hok.counted _ hs, ofNat_eq_zero (hok.held_lt hs)] at h0
            have hpos : 0 < (t.lbl (t.lrq r).lock).requests.countP
                fun x => (t.lrq x).state = (t.lrq r).state :=
              List.countP_pos_iff.2 ⟨r, hmem, by simp⟩
            omega
          · show _ ↔ Function.update _ _ _ s = 0
            rw [Function.update_of_ne heq])
      exact ⟨_, hinv, hvlrq, hvown, hvother, hverase, rfl⟩
  · rw [if_neg hstate]
    have hnone : (t.lrq r).state = .none := not_not.1 hstate
    obtain ⟨hinv, hvlrq, hvown, hvother, hverase⟩ := hpost u rfl rfl (fun _ _ => rfl) rfl rfl rfl
      (fun s hs => by
        rw [hself]
        exact hok.countedBut_of_none hmem hnodup hnone s hs)
      (by
        rw [hself]
        exact hok.stateEq)
    exact ⟨_, hinv, hvlrq, hvown, hvother, hverase, rfl⟩

theorem releaseRequest_inv (h : t.Inv) (hr : (t.lrq r).live) :
    (t.releaseRequest r).Inv ∧
      ∀ o, ((t.releaseRequest r).own o).requests = (t.own o).requests.erase r := by
  obtain ⟨v, hinv, -, hown, -, -, hrelease⟩ := releaseRequest_eq h hr
  rw [hrelease]
  refine ⟨postPending_inv hinv (t.lrq r).lock, fun o => ?_⟩
  rw [(postPending_sameQueues v _).ownRequests, hown, unlinkRequest_own]
  by_cases ho : o = (t.lrq r).owner
  · rw [ho, Function.update_self]
  · rw [Function.update_of_ne ho,
      List.erase_of_not_mem fun hmem => ho (h.linked.ownerOf o r hmem).2.symm]

end

end Table

end FirebirdCore.Lock
