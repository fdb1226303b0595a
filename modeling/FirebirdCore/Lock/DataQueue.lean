import FirebirdCore.Lock.Clients
import FirebirdCore.Lib.Run
import Mathlib.Algebra.BigOperators.Finprod
import Mathlib.Data.List.Sort

/-!
# The data queues

Each series has a queue of its locks that have data, the least first, and `queryData` reads the
aggregates off it. Whatever is done with the table, the queue has just the locks with data: this needs
no bound on the counters, only that the queues of locks and owners are in order.
-/
namespace FirebirdCore.Lock

/-! ## Queries -/

/-- The aggregates, `LCK_MIN` to `LCK_ANY`. -/
inductive Aggregate where
  | MIN
  | MAX
  | CNT
  | SUM
  | AVG
  | ANY
  deriving DecidableEq, Repr

/-- A `SINT64` after an addition. -/
def sint64 (x : ℤ) : ℤ := x.bmod (2 ^ 64)

namespace Table

/-- What one lock of the queue does to `data` and `count`. -/
def queryLock (t : Table) (aggregate : Aggregate) (acc : ℤ × ℤ) (lock : Resource) : ℤ × ℤ :=
  match aggregate with
  | .CNT => (acc.1, acc.2 + 1)
  | .AVG => (sint64 (acc.1 + (t.lbl lock).data), acc.2 + 1)
  | .SUM => (sint64 (acc.1 + (t.lbl lock).data), acc.2)
  | _ => acc

def queryData (t : Table) (series : ℕ) (aggregate : Aggregate) : ℤ :=
  if maxSeries ≤ series then 0
  else
    let locks := t.dataQue series
    let (data, count) := locks.foldl (t.queryLock aggregate) (0, 0)
    match aggregate with
    | .CNT => count
    | .SUM => data
    | .AVG => if count ≠ 0 then data.tdiv count else 0
    | .ANY => if locks ≠ [] then 1 else 0
    | .MIN => (locks.head?.map fun lock => (t.lbl lock).data).getD 0
    | .MAX => (locks.getLast?.map fun lock => (t.lbl lock).data).getD 0

/-! ## The queue of a series -/

/-- The locks of a series that have data. -/
def dataLocks (t : Table) (series : ℕ) : Set Resource :=
  {res | res.series = series ∧ (t.lbl res).live ∧ (t.lbl res).data ≠ 0}

/-- The queues have just the locks with data, in ascending order of it, `but` one that is left out. -/
structure DataQueuedBut (t : Table) (but : Set Resource) : Prop where
  mem : ∀ series res, res ∈ t.dataQue series ↔
    series < maxSeries ∧ res ∈ t.dataLocks series ∧ res ∉ but
  nodup : ∀ series, (t.dataQue series).Nodup
  sorted : ∀ series, (t.dataQue series).Pairwise fun a b => (t.lbl a).data ≤ (t.lbl b).data

def DataQueued (t : Table) : Prop := t.DataQueuedBut ∅

/-- The two tables have the same data in their locks and queues. -/
structure SameData (t t' : Table) : Prop where
  queue : t'.dataQue = t.dataQue
  live : ∀ res, (t'.lbl res).live = (t.lbl res).live
  data : ∀ res, (t'.lbl res).data = (t.lbl res).data

section
variable {t t' : Table} {r : ℕ} {res : Resource} {but : Set Resource}

theorem SameData.refl (t : Table) : SameData t t := ⟨rfl, fun _ => rfl, fun _ => rfl⟩

theorem SameData.trans {t'' : Table} (h : SameData t t') (h' : SameData t' t'') : SameData t t'' :=
  ⟨h'.queue.trans h.queue, fun x => (h'.live x).trans (h.live x),
    fun x => (h'.data x).trans (h.data x)⟩

theorem DataQueuedBut.congr (h : t.DataQueuedBut but) (hsame : SameData t t') :
    t'.DataQueuedBut but := by
  obtain ⟨hqueue, hlive, hdata⟩ := hsame
  constructor
  · intro series x
    rw [hqueue, h.mem]
    simp only [dataLocks, Set.mem_ofPred_eq, hlive, hdata]
  · intro series
    rw [hqueue]
    exact h.nodup series
  · intro series
    rw [hqueue]
    simp only [hdata]
    exact h.sorted series

theorem onLrq_sameData (t : Table) (r : ℕ) (f : Lrq → Lrq) : SameData t (t.onLrq r f) :=
  ⟨rfl, fun _ => rfl, fun _ => rfl⟩

theorem onOwn_sameData (t : Table) (o : ℕ) (f : Own → Own) : SameData t (t.onOwn o f) :=
  ⟨rfl, fun _ => rfl, fun _ => rfl⟩

theorem onLbl_sameData (t : Table) (res : Resource) (f : Lbl → Lbl)
    (hlive : (f (t.lbl res)).live = (t.lbl res).live)
    (hdata : (f (t.lbl res)).data = (t.lbl res).data) : SameData t (t.onLbl res f) := by
  constructor
  · rfl
  · intro x
    rw [onLbl_lbl]
    by_cases hx : x = res
    · rw [hx, Function.update_self, hlive]
    · rw [Function.update_of_ne hx]
  · intro x
    rw [onLbl_lbl]
    by_cases hx : x = res
    · rw [hx, Function.update_self, hdata]
    · rw [Function.update_of_ne hx]

theorem clearPending_sameData (t : Table) (r : ℕ) : SameData t (t.clearPending r) := by
  rw [clearPending]
  refine SameData.trans ?_ (onLbl_sameData _ _ _ rfl rfl)
  exact (onOwn_sameData t _ _).trans (onLrq_sameData _ _ _)

/-! ### Taking a lock off its queue and putting it back -/

theorem removeDataQue_queue (t : Table) (res : Resource) (series : ℕ) :
    (t.removeDataQue res).dataQue series =
      if series = res.series then (t.dataQue series).erase res else t.dataQue series := by
  rw [removeDataQue]
  by_cases hseries : series = res.series
  · rw [if_pos hseries, hseries]
    exact Function.update_self ..
  · rw [if_neg hseries]
    exact Function.update_of_ne hseries ..

theorem removeDataQue_queued (h : t.DataQueued) (res : Resource) :
    (t.removeDataQue res).DataQueuedBut {res} := by
  constructor
  · intro series x
    have hmem := h.mem series x
    simp only [Set.mem_empty_iff_false, not_false_eq_true, and_true] at hmem
    rw [removeDataQue_queue, Set.mem_singleton_iff]
    split_ifs with hseries
    · rw [(h.nodup series).mem_erase_iff, hmem]
      exact ⟨fun hx => ⟨hx.2.1, hx.2.2, hx.1⟩, fun hx => ⟨hx.2.2, hx.1, hx.2.1⟩⟩
    · rw [hmem]
      refine ⟨fun hx => ⟨hx.1, hx.2, fun heq => hseries ?_⟩, fun hx => ⟨hx.1, hx.2.1⟩⟩
      rw [← heq]
      exact hx.2.1.symm
  · intro series
    rw [removeDataQue_queue]
    split_ifs
    · exact (h.nodup series).erase res
    · exact h.nodup series
  · intro series
    rw [removeDataQue_queue, removeDataQue_lbl]
    split_ifs
    · exact (h.sorted series).sublist List.erase_sublist
    · exact h.sorted series

/-- A lock that is left out may be changed. -/
theorem DataQueuedBut.onLbl (h : t.DataQueuedBut {res}) (f : Lbl → Lbl) :
    (t.onLbl res f).DataQueuedBut {res} := by
  have hother : ∀ x, x ≠ res → (t.onLbl res f).lbl x = t.lbl x := fun x hx => by
    rw [onLbl_lbl, Function.update_of_ne hx]
  constructor
  · intro series x
    have hqueue : (t.onLbl res f).dataQue = t.dataQue := rfl
    rw [hqueue, h.mem, Set.mem_singleton_iff]
    refine and_congr_right fun _ => and_congr_left fun hx => ?_
    simp only [dataLocks, Set.mem_ofPred_eq, hother x hx]
  · exact h.nodup
  · intro series
    refine (h.sorted series).imp_of_mem fun {a b} ha hb hab => ?_
    rw [hother a ((h.mem series a).1 ha).2.2, hother b ((h.mem series b).1 hb).2.2]
    exact hab

/-- A lock that is not in use is left out. -/
theorem DataQueuedBut.of_dead (h : t.DataQueuedBut {res}) (hdead : ¬ (t.lbl res).live) :
    t.DataQueued := by
  refine ⟨fun series x => ?_, h.nodup, h.sorted⟩
  rw [h.mem, Set.mem_singleton_iff]
  refine and_congr_right fun _ => and_congr_right fun hx => ?_
  refine iff_of_true (fun heq => ?_) (Set.notMem_empty x)
  rw [heq] at hx
  exact hdead hx.2.1

theorem DataQueued.of_dead (h : t.DataQueued) (hdead : ¬ (t.lbl res).live) :
    t.DataQueuedBut {res} := by
  refine ⟨fun series x => ?_, h.nodup, h.sorted⟩
  rw [h.mem, Set.mem_singleton_iff]
  refine and_congr_right fun _ => and_congr_right fun hx => ?_
  refine iff_of_true (Set.notMem_empty x) fun heq => ?_
  rw [heq] at hx
  exact hdead hx.2.1

theorem insertData_eq (lbl : Resource → Lbl) (res : Resource) (locks : List Resource) :
    insertData lbl res locks = locks.orderedInsert (fun a b => (lbl a).data ≤ (lbl b).data) res := by
  induction locks with
  | nil => rfl
  | cons x xs ih => rw [insertData, List.orderedInsert_cons, ih]

theorem insertDataQue_queued (h : t.DataQueuedBut {res}) (hlive : (t.lbl res).live) :
    (t.insertDataQue res).DataQueued := by
  have hmem : ∀ series x, x ∈ t.dataQue series →
      series < maxSeries ∧ x ∈ t.dataLocks series ∧ x ≠ res := fun series x hx => (h.mem series x).1 hx
  rw [insertDataQue]
  split_ifs with hinsert
  · generalize hqueue : Function.update t.dataQue res.series
      (insertData t.lbl res (t.dataQue res.series)) = queue
    have hother : ∀ series, series ≠ res.series → queue series = t.dataQue series := by
      intro series hseries
      rw [← hqueue, Function.update_of_ne hseries]
    have hself : queue res.series = (t.dataQue res.series).orderedInsert
        (fun a b => (t.lbl a).data ≤ (t.lbl b).data) res := by
      rw [← hqueue, Function.update_self, insertData_eq]
    have hperm : (queue res.series).Perm (res :: t.dataQue res.series) := by
      rw [hself]
      exact List.perm_orderedInsert ..
    have hnot : ∀ series, res ∉ t.dataQue series := fun series hres => (hmem series res hres).2.2 rfl
    constructor
    · intro series x
      show x ∈ queue series ↔ series < maxSeries ∧ x ∈ t.dataLocks series ∧ x ∉ ∅
      by_cases hseries : series = res.series
      · subst hseries
        rw [hperm.mem_iff, List.mem_cons, h.mem]
        by_cases hx : x = res
        · subst hx
          exact iff_of_true (.inl rfl) ⟨hinsert.1, ⟨rfl, hlive, hinsert.2⟩, Set.notMem_empty x⟩
        · simp [hx]
      · rw [hother series hseries, h.mem]
        refine and_congr_right fun _ => and_congr_right fun hx => ?_
        refine iff_of_true (fun heq => hseries ?_) (Set.notMem_empty x)
        rw [Set.mem_singleton_iff] at heq
        rw [← heq]
        exact hx.1.symm
    · intro series
      show (queue series).Nodup
      by_cases hseries : series = res.series
      · rw [hseries, hperm.nodup_iff]
        exact List.nodup_cons.2 ⟨hnot _, h.nodup _⟩
      · rw [hother series hseries]
        exact h.nodup series
    · intro series
      show (queue series).Pairwise fun a b => (t.lbl a).data ≤ (t.lbl b).data
      by_cases hseries : series = res.series
      · rw [hseries, hself]
        have : Std.Total fun a b => (t.lbl a).data ≤ (t.lbl b).data := ⟨fun a b => le_total _ _⟩
        have : IsTrans Resource fun a b => (t.lbl a).data ≤ (t.lbl b).data :=
          ⟨fun a b c hab hbc => le_trans hab hbc⟩
        exact (h.sorted res.series).orderedInsert res _
      · rw [hother series hseries]
        exact h.sorted series
  · -- A lock without data, or of a series without a queue, stays out.
    refine ⟨fun series x => ?_, h.nodup, h.sorted⟩
    rw [h.mem, Set.mem_singleton_iff]
    refine and_congr_right fun hseries => and_congr_right fun hx => ?_
    refine iff_of_true (fun heq => ?_) (Set.notMem_empty x)
    rw [heq] at hx
    exact hinsert ⟨hx.1 ▸ hseries, hx.2.2⟩

theorem setData_queued (h : t.DataQueued) (hlive : (t.lbl res).live) (data : ℤ) :
    (t.setData res data).DataQueued := by
  refine insertDataQue_queued ((removeDataQue_queued h res).onLbl _) ?_
  rw [onLbl_lbl, Function.update_self]
  exact hlive

theorem newLock_queued (h : t.DataQueued) (hdead : ¬ (t.lbl res).live) (type : Level) (data : ℤ) :
    (t.newLock res type data).DataQueued := by
  refine insertDataQue_queued ((h.of_dead hdead).onLbl _) ?_
  rw [onLbl_lbl, Function.update_self]

/-! ### What the operations do -/

/-- The queues of the requests and those of the data are in order. -/
structure InOrder (t : Table) : Prop where
  linked : t.Linked
  data : t.DataQueued

theorem grant_queued (h : t.DataQueued) (hlive : (t.lbl (t.lrq r).lock).live) :
    (t.grant r).DataQueued := by
  rw [grant]
  have hgranted : ((t.onLbl (t.lrq r).lock (·.incr (t.lrq r).requested)).onLrq r
      ({ · with state := (t.lrq r).requested })).DataQueued :=
    h.congr ((onLbl_sameData t _ _ rfl rfl).trans (onLrq_sameData _ _ _))
  have hlocked : (((t.onLbl (t.lrq r).lock (·.incr (t.lrq r).requested)).onLrq r
      ({ · with state := (t.lrq r).requested })).lbl (t.lrq r).lock).live := by
    rw [onLrq_lbl, onLbl_lbl, Function.update_self]
    exact hlive
  generalize (t.onLbl (t.lrq r).lock (·.incr (t.lrq r).requested)).onLrq r
    ({ · with state := (t.lrq r).requested }) = u at hgranted hlocked
  have hset : ((u.setData (t.lrq r).lock (t.lrq r).data).onLrq r ({ · with data := 0 })).DataQueued :=
    (setData_queued hgranted hlocked _).congr (onLrq_sameData _ _ _)
  have hstate : ∀ v : Table, v.DataQueued → (v.onLbl (t.lrq r).lock
      fun lock => { lock with state := lockState lock.counts }).DataQueued :=
    fun v hv => hv.congr (onLbl_sameData v _ _ rfl rfl)
  split_ifs
  · exact (hstate _ hset).congr (clearPending_sameData _ r)
  · exact (hstate u hgranted).congr (clearPending_sameData _ r)
  · exact hstate _ hset
  · exact hstate u hgranted

theorem grant_inOrder (h : t.InOrder) (hr : (t.lrq r).live) : (t.grant r).InOrder :=
  ⟨h.linked.congr (grant_sameQueues t r), grant_queued h.data (h.linked.lock_live hr)⟩

theorem InOrder.congr (h : t.InOrder) (hqueues : SameQueues t t') (hdata : SameData t t') :
    t'.InOrder :=
  ⟨h.linked.congr hqueues, DataQueuedBut.congr h.data hdata⟩

theorem grant_lowered_inOrder (h : t.InOrder) (hr : (t.lrq r).live) :
    ((t.onLbl (t.lrq r).lock (·.decr (t.lrq r).state)).grant r).InOrder :=
  grant_inOrder (h.congr (onLbl_sameQueues t _ _ rfl rfl) (onLbl_sameData t _ _ rfl rfl)) hr

theorem postPendingLoop_inOrder (h : t.InOrder) (rs : List ℕ) (hrs : ∀ r ∈ rs, (t.lrq r).live) :
    (t.postPendingLoop rs).InOrder := by
  induction rs generalizing t with
  | nil => exact h
  | cons r rs ih =>
    obtain ⟨hr, hrest⟩ := List.forall_mem_cons.1 hrs
    rw [postPendingLoop]
    dsimp only
    split_ifs
    · exact ih h hrest
    · have hsame := grant_lowered_sameQueues t r
      exact ih (grant_lowered_inOrder h hr) fun x hx => (hsame.live x).trans (hrest x hx)
    · rw [onLbl_decr_incr]
      exact h
    · have hsame := grant_sameQueues t r
      exact ih (grant_inOrder h hr) fun x hx => (hsame.live x).trans (hrest x hx)
    · exact h

theorem postPending_inOrder (h : t.InOrder) (res : Resource) : (t.postPending res).InOrder := by
  rw [postPending]
  split_ifs
  · exact h
  · exact postPendingLoop_inOrder h _ fun r hr => (h.linked.lockOf res r hr).1

theorem unlinkRequest_sameData (t : Table) (r : ℕ) : SameData t (t.unlinkRequest r) := by
  rw [unlinkRequest]
  have hunlinked := ((onLbl_sameData t (t.lrq r).lock
    (fun lock => { lock with requests := lock.requests.erase r }) rfl rfl).trans
    (onOwn_sameData _ (t.lrq r).owner
      fun owner => { owner with requests := owner.requests.erase r })).trans
    (onLrq_sameData _ r ({ · with live := false }))
  split_ifs
  · exact hunlinked.trans (clearPending_sameData _ r)
  · exact hunlinked

/-- Changing the counts and the state of a lock leaves it in its queues. -/
theorem InOrder.onLbl (h : t.InOrder) (res : Resource) (f : Lbl → Lbl)
    (hrequests : (f (t.lbl res)).requests = (t.lbl res).requests)
    (hlive : (f (t.lbl res)).live = (t.lbl res).live)
    (hdata : (f (t.lbl res)).data = (t.lbl res).data) : (t.onLbl res f).InOrder :=
  h.congr (onLbl_sameQueues t res f hrequests hlive) (onLbl_sameData t res f hlive hdata)

/-- The lock goes with its last request, and leaves the queue of its series. -/
theorem releaseRequest_inOrder (h : t.InOrder) (hr : (t.lrq r).live) :
    (t.releaseRequest r).InOrder ∧
      ∀ o, ((t.releaseRequest r).own o).requests = (t.own o).requests.erase r := by
  have hqueues := unlinkRequest_lbl t r
  have hdata := h.data.congr (unlinkRequest_sameData t r)
  have hlocked : ∀ res, ((t.unlinkRequest r).lbl res).live ↔ (t.lbl res).requests ≠ [] := fun res => by
    rw [(unlinkRequest_sameData t r).live]
    exact h.linked.lockLive res
  have hrequests : ∀ res, res ≠ (t.lrq r).lock →
      ((t.unlinkRequest r).lbl res).requests = (t.lbl res).requests := fun res hres => by
    rw [hqueues, Function.update_of_ne hres]
  have howner : ∀ o, ((t.unlinkRequest r).own o).requests = (t.own o).requests.erase r := fun o => by
    rw [unlinkRequest_own]
    by_cases ho : o = (t.lrq r).owner
    · rw [ho, Function.update_self]
    · rw [Function.update_of_ne ho,
        List.erase_of_not_mem fun hmem => ho (h.linked.ownerOf o r hmem).2.symm]
  have hmem := h.linked.onLock r hr
  rw [releaseRequest]
  generalize hu : t.unlinkRequest r = u at hqueues hdata hlocked hrequests howner
  dsimp only
  by_cases hempty : (u.lbl (t.lrq r).lock).requests = []
  · rw [if_pos hempty]
    have hlbl : ∀ res, ((u.onLbl (t.lrq r).lock ({ · with live := false })).lbl res).requests =
        (u.lbl res).requests := fun res => by
      rw [onLbl_lbl]
      by_cases hres : res = (t.lrq r).lock
      · rw [hres, Function.update_self]
      · rw [Function.update_of_ne hres]
    have hlinked : ((u.removeDataQue (t.lrq r).lock).onLbl (t.lrq r).lock
        ({ · with live := false })).Linked := by
      refine unlinkRequest_linked h.linked (by rw [hu]; rfl) (by rw [hu]; rfl) (fun res => ?_) fun res => ?_
      · rw [hu]
        exact hlbl res
      · by_cases hres : res = (t.lrq r).lock
        · rw [hres, onLbl_lbl, Function.update_self]
          simp [hempty]
        · rw [onLbl_lbl, Function.update_of_ne hres, removeDataQue_lbl, hlocked, hrequests res hres]
    refine ⟨⟨hlinked, ?_⟩, howner⟩
    refine ((removeDataQue_queued hdata _).onLbl _).of_dead ?_
    rw [onLbl_lbl, Function.update_self]
    exact Bool.false_ne_true
  rw [if_neg hempty]
  have hinOrder : u.InOrder := by
    refine ⟨unlinkRequest_linked h.linked (by rw [hu]) (by rw [hu]) (fun res => by rw [hu])
      fun res => ?_, hdata⟩
    by_cases hres : res = (t.lrq r).lock
    · rw [hlocked, hres]
      exact iff_of_true (List.ne_nil_of_mem hmem) hempty
    · rw [hlocked, hrequests res hres]
  have hpost : ∀ v : Table, v.InOrder → v.own = u.own → (v.postPending (t.lrq r).lock).InOrder ∧
      ∀ o, ((v.postPending (t.lrq r).lock).own o).requests = (t.own o).requests.erase r := by
    intro v hv hown
    refine ⟨postPending_inOrder hv _, fun o => ?_⟩
    rw [(postPending_sameQueues v _).ownRequests, hown, howner]
  split_ifs
  · exact hpost _ ((hinOrder.onLbl _ _ rfl rfl rfl).onLbl _ _ rfl rfl rfl) rfl
  · exact hpost _ (hinOrder.onLbl _ _ rfl rfl rfl) rfl
  · exact hpost u hinOrder rfl

theorem waitForRequest_inOrder (h : t.InOrder) (hr : (t.lrq r).live) :
    (t.waitForRequest r).InOrder := by
  refine h.congr (waitForRequest_sameQueues (h.linked.onLock r hr)) ?_
  rw [waitForRequest]
  refine SameData.trans ?_ (onLbl_sameData _ _ _ rfl rfl)
  exact (onLrq_sameData t r _).trans (onOwn_sameData _ _ _)

theorem grantOrQue_inOrder (h : t.InOrder) (hr : (t.lrq r).live) (wait : Bool) :
    (t.grantOrQue r wait).InOrder := by
  rw [grantOrQue]
  split_ifs
  · exact postPending_inOrder (grant_inOrder h hr) _
  · exact waitForRequest_inOrder h hr
  · exact (releaseRequest_inOrder h hr).1

theorem enqueue_inOrder (h : t.InOrder) {o : ℕ} (ho : (t.own o).live) (hfree : (t.lrq r).live = false)
    (res : Resource) (type : Level) (data : ℤ) (wait : Bool) :
    (t.enqueue r o res type data wait).InOrder := by
  rw [enqueue]
  split_ifs with hlive
  · have hlbl := queued_lbl t r o res type data
    have hqueued : (t.queued r o res type data).InOrder := by
      refine ⟨?_, h.data.congr ?_⟩
      · refine enqueued_linked h.linked ho hfree ⟨rfl, rfl, rfl⟩ (queued_lrq t r o res type data) rfl
          (fun x hx => ?_) ?_ ?_
        · rw [hlbl, Function.update_of_ne hx]
        · rw [hlbl, Function.update_self]
        · rw [hlbl, Function.update_self]
          exact hlive
      · rw [queued, newRequest]
        refine SameData.trans ?_ (onLbl_sameData _ _ _ rfl rfl)
        exact (onLrq_sameData t r _).trans (onOwn_sameData _ _ _)
    refine grantOrQue_inOrder hqueued ?_ wait
    rw [queued_lrq, Function.update_self]
  · have hempty : (t.lbl res).requests = [] := by
      by_contra hne
      exact hlive ((h.linked.lockLive res).2 hne)
    have hlbl : (((t.newRequest r o res type 0).newLock res type data).onLbl res
        fun lock => { lock with requests := lock.requests ++ [r] }).lbl =
        Function.update t.lbl res ⟨true, type, [r], data, 0, fun _ => 0⟩ := by
      rw [onLbl_lbl, newLock, insertDataQue_lbl, onLbl_lbl, Function.update_self,
        Function.update_idem]
      rfl
    have hlrq : (((t.newRequest r o res type 0).newLock res type data).onLbl res
        fun lock => { lock with requests := lock.requests ++ [r] }).lrq =
        Function.update t.lrq r ⟨true, type, .none, false, false, o, res, 0⟩ := by
      rw [onLbl_lrq, newLock, insertDataQue_lrq]
      rfl
    have hdata : (t.newRequest r o res type 0).DataQueued :=
      h.data.congr ((onLrq_sameData t r _).trans (onOwn_sameData _ _ _))
    refine grant_inOrder ⟨?_, ?_⟩ ?_
    · refine enqueued_linked h.linked ho hfree ⟨rfl, rfl, rfl⟩ hlrq ?_ (fun x hx => ?_) ?_ ?_
      · rw [onLbl_own, newLock, insertDataQue_own]
        rfl
      · rw [hlbl, Function.update_of_ne hx]
      · rw [hlbl, Function.update_self, hempty]
        rfl
      · rw [hlbl, Function.update_self]
    · exact (newLock_queued hdata hlive type data).congr (onLbl_sameData _ _ _ rfl rfl)
    · rw [hlrq, Function.update_self]

theorem internalConvert_inOrder (h : t.InOrder) (hr : (t.lrq r).live) {type : Level} {wait : Bool}
    (ht' : t.internalConvert r type wait = some t') : t'.InOrder := by
  have hasked : (t.onLrq r ({ · with requested := type })).InOrder :=
    h.congr (onLrq_sameQueues t r _ rfl rfl rfl) (onLrq_sameData t r _)
  have hlive : ((t.onLrq r ({ · with requested := type })).lrq r).live := by
    rw [onLrq_lrq, Function.update_self]
    exact hr
  rw [internalConvert] at ht'
  generalize t.onLrq r ({ · with requested := type }) = u at hasked hlive ht'
  dsimp only at ht'
  rw [onLbl_decr_incr] at ht'
  split_ifs at ht'
  · rw [← Option.some.inj ht']
    exact postPending_inOrder (grant_lowered_inOrder hasked hlive) _
  · rw [← Option.some.inj ht']
    exact waitForRequest_inOrder hasked hlive
  · rw [← Option.some.inj ht']
    exact hasked.congr (onLrq_sameQueues u r _ rfl rfl rfl) (onLrq_sameData u r _)

theorem rejectRequest_inOrder (h : t.InOrder) (r : ℕ) : (t.rejectRequest r).InOrder :=
  h.congr (rejectRequest_sameQueues t r)
    ((onLrq_sameData t r _).trans (clearPending_sameData _ r))

theorem rejectedConvert_inOrder (h : t.InOrder) (r : ℕ) : (t.rejectedConvert r).InOrder :=
  (postPending_inOrder h (t.lrq r).lock).congr (onLrq_sameQueues _ r _ rfl rfl rfl)
    (onLrq_sameData _ r _)

theorem setData_inOrder (h : t.InOrder) (hr : (t.lrq r).live) (data : ℤ) :
    (t.setData (t.lrq r).lock data).InOrder :=
  ⟨h.linked.congr (setData_sameQueues t _ data),
    setData_queued h.data (h.linked.lock_live hr) data⟩

theorem purgeRequests_inOrder (h : t.InOrder) {o fuel : ℕ}
    (hfuel : (t.own o).requests.length ≤ fuel) :
    (purgeRequests o fuel t).InOrder ∧ ((purgeRequests o fuel t).own o).requests = [] := by
  induction fuel generalizing t with
  | zero => exact ⟨h, List.length_eq_zero_iff.1 (Nat.le_zero.1 hfuel)⟩
  | succ fuel ih =>
    rw [purgeRequests]
    cases hrequests : (t.own o).requests with
    | nil => exact ⟨h, hrequests⟩
    | cons r rest =>
      have hr : (t.lrq r).live := (h.linked.ownerOf o r (hrequests ▸ List.mem_cons_self)).1
      obtain ⟨hinOrder, hown⟩ := releaseRequest_inOrder h hr
      apply ih hinOrder
      rw [hown, hrequests, List.erase_cons_head]
      rw [hrequests, List.length_cons] at hfuel
      omega

theorem onOwn_inOrder (h : t.InOrder) {o : ℕ} (hempty : (t.own o).requests = []) (f : Own → Own)
    (hrequests : (f (t.own o)).requests = []) : (t.onOwn o f).InOrder :=
  ⟨onOwn_linked h.linked hempty f hrequests, h.data.congr (onOwn_sameData t o f)⟩

theorem purgeOwner_inOrder (h : t.InOrder) (o : ℕ) : (t.purgeOwner o).InOrder := by
  obtain ⟨hinOrder, hempty⟩ := purgeRequests_inOrder h (o := o) le_rfl
  exact onOwn_inOrder hinOrder hempty _ hempty

end

theorem empty_inOrder : empty.InOrder := by
  refine ⟨⟨?_, ?_, ?_, ?_, ?_, ?_, ?_, ?_⟩, ⟨?_, ?_, ?_⟩⟩ <;> simp [empty, dataLocks]

end Table

/-! ## Runs -/

theorem apply_inOrder {t t' : Table} (h : t.InOrder) {op : Op} (ht' : op.apply t = some t') :
    t'.InOrder := by
  cases op <;> rw [Op.apply] at ht'
  case createOwner o =>
    split_ifs at ht' with ho
    have hempty : (t.own o).requests = [] := by
      by_contra hne
      exact ho (h.linked.ownLive o hne)
    exact Option.some.inj ht' ▸ Table.onOwn_inOrder h hempty _ rfl
  case enqueue r o res type data wait =>
    split_ifs at ht' with hlive
    exact Option.some.inj ht' ▸ Table.enqueue_inOrder h hlive.1
      (Bool.eq_false_of_not_eq_true hlive.2) res type data wait
  case convert r type wait =>
    split_ifs at ht' with hlive
    exact Table.internalConvert_inOrder h hlive ht'
  case downgrade r =>
    split_ifs at ht' with hlive
    rw [Table.downgrade] at ht'
    split_ifs at ht'
    · exact Option.some.inj ht' ▸ (Table.releaseRequest_inOrder h hlive).1
    · exact Table.internalConvert_inOrder h hlive ht'
  case dequeue r =>
    split_ifs at ht' with hlive
    exact Option.some.inj ht' ▸ (Table.releaseRequest_inOrder h hlive).1
  case reject r =>
    split_ifs at ht'
    exact Option.some.inj ht' ▸ Table.rejectRequest_inOrder h r
  case rejectedEnqueue r =>
    split_ifs at ht' with hlive
    exact Option.some.inj ht' ▸ (Table.releaseRequest_inOrder h hlive.1).1
  case rejectedConvert r =>
    split_ifs at ht'
    exact Option.some.inj ht' ▸ Table.rejectedConvert_inOrder h r
  case writeData r data =>
    split_ifs at ht' with hlive
    exact Option.some.inj ht' ▸ Table.setData_inOrder h hlive data
  case purgeOwner o =>
    split_ifs at ht'
    exact Option.some.inj ht' ▸ Table.purgeOwner_inOrder h o

theorem step_inOrder {t : Table} (h : t.InOrder) (op : Op) : (step t op).InOrder := by
  rw [step]
  cases happly : op.apply t with
  | none => exact h
  | some t' => exact apply_inOrder h happly

theorem run_inOrder {t : Table} (h : t.InOrder) (ops : List Op) : (Run.run step t ops).InOrder := by
  induction ops generalizing t with
  | nil => exact h
  | cons op ops ih => exact ih (step_inOrder h op)

/-! ## What the queries answer -/

/-- The queue of a series has just its locks with data, in ascending order of it. -/
structure Table.DataQueue (t : Table) (series : ℕ) : Prop where
  mem : ∀ res, res ∈ t.dataQue series ↔ res ∈ t.dataLocks series
  nodup : (t.dataQue series).Nodup
  sorted : (t.dataQue series).Pairwise fun a b => (t.lbl a).data ≤ (t.lbl b).data

/-- The queries answer the aggregates of the data of the locks that have some, the sum as a `SINT64` and
the average rounded towards zero. -/
structure Table.Answers (t : Table) (series : ℕ) : Prop where
  finite : (t.dataLocks series).Finite
  minimum : (t.dataLocks series).Nonempty →
    IsLeast ((fun res => (t.lbl res).data) '' t.dataLocks series) (t.queryData series .MIN)
  maximum : (t.dataLocks series).Nonempty →
    IsGreatest ((fun res => (t.lbl res).data) '' t.dataLocks series) (t.queryData series .MAX)
  count : t.queryData series .CNT = (t.dataLocks series).ncard
  sum : t.queryData series .SUM = sint64 (∑ᶠ res ∈ t.dataLocks series, (t.lbl res).data)
  average : t.queryData series .AVG =
    (sint64 (∑ᶠ res ∈ t.dataLocks series, (t.lbl res).data)).tdiv (t.dataLocks series).ncard
  exact : -2 ^ 63 ≤ ∑ᶠ res ∈ t.dataLocks series, (t.lbl res).data →
    ∑ᶠ res ∈ t.dataLocks series, (t.lbl res).data < 2 ^ 63 →
    t.queryData series .SUM = ∑ᶠ res ∈ t.dataLocks series, (t.lbl res).data
  any : ((t.dataLocks series).Nonempty → t.queryData series .ANY = 1) ∧
    (t.dataLocks series = ∅ → t.queryData series .ANY = 0)
  none : t.dataLocks series = ∅ → ∀ aggregate, t.queryData series aggregate = 0

theorem sint64_add (a b : ℤ) : sint64 (sint64 a + b) = sint64 (a + b) := Int.bmod_add_bmod

theorem sint64_of_fits {x : ℤ} (hlow : -2 ^ 63 ≤ x) (hhigh : x < 2 ^ 63) : sint64 x = x := by
  rw [sint64]
  apply Int.bmod_eq_of_le <;> omega

namespace Table

section
variable {t : Table} {series : ℕ}

theorem foldl_sum (t : Table) (locks : List Resource) (data count : ℤ) :
    locks.foldl (t.queryLock .SUM) (sint64 data, count) =
      (sint64 (data + (locks.map fun res => (t.lbl res).data).sum), count) := by
  induction locks generalizing data with
  | nil => simp
  | cons lock locks ih =>
    rw [List.foldl_cons, queryLock, sint64_add, ih, List.map_cons, List.sum_cons, add_assoc]

theorem foldl_average (t : Table) (locks : List Resource) (data count : ℤ) :
    locks.foldl (t.queryLock .AVG) (sint64 data, count) =
      (sint64 (data + (locks.map fun res => (t.lbl res).data).sum), count + locks.length) := by
  induction locks generalizing data count with
  | nil => simp
  | cons lock locks ih =>
    rw [List.foldl_cons, queryLock, sint64_add, ih, List.map_cons, List.sum_cons, List.length_cons]
    push_cast
    rw [add_assoc, add_assoc, add_comm (1 : ℤ)]

theorem foldl_count (t : Table) (locks : List Resource) (data count : ℤ) :
    locks.foldl (t.queryLock .CNT) (data, count) = (data, count + locks.length) := by
  induction locks generalizing count with
  | nil => simp
  | cons lock locks ih =>
    rw [List.foldl_cons, queryLock, ih, List.length_cons]
    push_cast
    rw [add_assoc, add_comm (1 : ℤ)]

/-- A sorted queue has its least element in front and its greatest at the end. -/
theorem isLeast_head {f : Resource → ℤ} {locks : List Resource} (hne : locks ≠ [])
    (hsorted : locks.Pairwise fun a b => f a ≤ f b) :
    IsLeast (f '' {res | res ∈ locks}) ((locks.head?.map f).getD 0) := by
  cases locks with
  | nil => exact absurd rfl hne
  | cons first rest =>
    constructor
    · exact ⟨first, List.mem_cons_self, rfl⟩
    · rintro x ⟨lock, hlock, rfl⟩
      obtain heq | hrest := List.mem_cons.1 hlock
      · exact heq ▸ le_rfl
      · exact (List.pairwise_cons.1 hsorted).1 lock hrest

theorem isGreatest_getLast {f : Resource → ℤ} {locks : List Resource} (hne : locks ≠ [])
    (hsorted : locks.Pairwise fun a b => f a ≤ f b) :
    IsGreatest (f '' {res | res ∈ locks}) ((locks.getLast?.map f).getD 0) := by
  obtain ⟨rest, last, rfl⟩ := List.eq_nil_or_concat' locks |>.resolve_left hne
  rw [List.getLast?_append_cons]
  constructor
  · exact ⟨last, List.mem_append_right _ List.mem_cons_self, rfl⟩
  · rintro x ⟨lock, hlock, rfl⟩
    obtain hrest | hlast := List.mem_append.1 hlock
    · exact (List.pairwise_append.1 hsorted).2.2 lock hrest last List.mem_cons_self
    · exact List.mem_singleton.1 hlast ▸ le_rfl

theorem InOrder.dataQueue (h : t.InOrder) (hseries : series < maxSeries) : t.DataQueue series :=
  ⟨fun res => by rw [h.data.mem]; simp [hseries], h.data.nodup series, h.data.sorted series⟩

/-- The aggregates of the locks with data, from their queue. -/
theorem DataQueue.answers (h : t.DataQueue series) (hseries : series < maxSeries) :
    t.Answers series := by
  classical
  have hlocks : t.dataLocks series = {res | res ∈ t.dataQue series} :=
    Set.ext fun res => (h.mem res).symm
  have hfinset : t.dataLocks series = (t.dataQue series).toFinset := by
    rw [hlocks, List.coe_toFinset]
  have hcard : (t.dataLocks series).ncard = (t.dataQue series).length := by
    rw [hfinset, Set.ncard_coe_finset, List.toFinset_card_of_nodup h.nodup]
  have hsum : ∑ᶠ res ∈ t.dataLocks series, (t.lbl res).data =
      ((t.dataQue series).map fun res => (t.lbl res).data).sum := by
    rw [hfinset, finsum_mem_coe_finset, List.sum_toFinset _ h.nodup]
  have hempty : t.dataLocks series = ∅ → t.dataQue series = [] := by
    intro hnone
    refine List.eq_nil_iff_forall_not_mem.2 fun res hres => ?_
    rw [h.mem, hnone] at hres
    exact hres
  have hnonempty : (t.dataLocks series).Nonempty → t.dataQue series ≠ [] := by
    rintro ⟨res, hres⟩
    exact List.ne_nil_of_mem ((h.mem res).2 hres)
  have hquery : ∀ aggregate, t.queryData series aggregate = _ := fun aggregate => by
    rw [queryData, if_neg (not_le.2 hseries)]
  have hzero : ((0, 0) : ℤ × ℤ) = (sint64 0, 0) := rfl
  have hSum : t.queryData series .SUM =
      sint64 (∑ᶠ res ∈ t.dataLocks series, (t.lbl res).data) := by
    rw [hquery]
    dsimp only
    rw [hzero, foldl_sum, hsum, zero_add]
  refine ⟨?_, fun hne => ?_, fun hne => ?_, ?_, hSum, ?_, fun hlow hhigh => ?_, ⟨fun hne => ?_, fun hnone => ?_⟩,
    fun hnone aggregate => ?_⟩
  · rw [hfinset]
    exact Finset.finite_toSet _
  · rw [hquery, hlocks]
    exact isLeast_head (hnonempty hne) h.sorted
  · rw [hquery, hlocks]
    exact isGreatest_getLast (hnonempty hne) h.sorted
  · rw [hquery]
    dsimp only
    rw [foldl_count, hcard, zero_add]
  · rw [hquery]
    dsimp only
    rw [hzero, foldl_average, hsum, hcard, zero_add, zero_add]
    by_cases hcount : ((t.dataQue series).length : ℤ) = 0
    · rw [if_neg (not_not.2 hcount), hcount, Int.tdiv_zero]
    · exact if_pos hcount
  · rw [hSum, sint64_of_fits hlow hhigh]
  · rw [hquery]
    exact if_pos (hnonempty hne)
  · rw [hquery]
    exact if_neg (not_not.2 (hempty hnone))
  · rw [hquery, hempty hnone]
    cases aggregate <;> rfl

end

end Table

/-- After every run the queue of a series has just the locks of the series that have data, in ascending
order of it, and the queries answer from them. -/
theorem dataQueue_answers (ops : List Op) {series : ℕ} (hseries : series < Table.maxSeries) :
    (Run.run step .empty ops).DataQueue series ∧ (Run.run step .empty ops).Answers series :=
  have hqueue := (run_inOrder Table.empty_inOrder ops).dataQueue hseries
  ⟨hqueue, hqueue.answers hseries⟩

/-- Three locks of series 3, a request that has to wait with its data, and a release. -/
theorem dataQueue_answers_threeLocks :
    (Run.run step .empty [.createOwner 0, .createOwner 1, .enqueue 0 0 ⟨3, [1]⟩ .EX 9 false,
      .enqueue 1 0 ⟨3, [2]⟩ .SR 4 false, .enqueue 2 1 ⟨3, [1]⟩ .EX 7 true,
      .enqueue 3 1 ⟨3, [3]⟩ .PR 0 false, .writeData 3 6, .dequeue 0]).DataQueue 3 ∧
    (Run.run step .empty [.createOwner 0, .createOwner 1, .enqueue 0 0 ⟨3, [1]⟩ .EX 9 false,
      .enqueue 1 0 ⟨3, [2]⟩ .SR 4 false, .enqueue 2 1 ⟨3, [1]⟩ .EX 7 true,
      .enqueue 3 1 ⟨3, [3]⟩ .PR 0 false, .writeData 3 6, .dequeue 0]).Answers 3 :=
  dataQueue_answers _ (by decide)

/-- Two locks of series 3 that are given data. -/
def twoLocks (a b : ℤ) : Table :=
  Run.run step .empty
    [.createOwner 0, .enqueue 0 0 ⟨3, [1]⟩ .SR a false, .enqueue 1 0 ⟨3, [2]⟩ .SR b false]

theorem twoLocks_dataLocks {a b : ℤ}
    (hqueue : (twoLocks a b).dataQue 3 = [⟨3, [1]⟩, ⟨3, [2]⟩] ∨
      (twoLocks a b).dataQue 3 = [⟨3, [2]⟩, ⟨3, [1]⟩]) :
    (twoLocks a b).dataLocks 3 = {⟨3, [1]⟩, ⟨3, [2]⟩} := by
  have hqueued : (twoLocks a b).DataQueue 3 :=
    (run_inOrder Table.empty_inOrder _).dataQueue (by decide)
  ext res
  rw [← hqueued.mem]
  obtain hqueue | hqueue := hqueue <;> rw [hqueue] <;> simp [or_comm]

/-- The average of 1 and 2 is rounded, and the sum of two data near `2 ^ 63` is not theirs. -/
theorem twoLocks_inexact :
    ((twoLocks 1 2).queryData 3 .AVG : ℚ) ≠
      (∑ᶠ res ∈ (twoLocks 1 2).dataLocks 3, (((twoLocks 1 2).lbl res).data : ℚ)) /
        ((twoLocks 1 2).dataLocks 3).ncard ∧
    (twoLocks (2 ^ 63 - 1) (2 ^ 63 - 1)).queryData 3 .SUM ≠
      ∑ᶠ res ∈ (twoLocks (2 ^ 63 - 1) (2 ^ 63 - 1)).dataLocks 3,
        ((twoLocks (2 ^ 63 - 1) (2 ^ 63 - 1)).lbl res).data := by
  have hne : (⟨3, [1]⟩ : Resource) ≠ ⟨3, [2]⟩ := by decide
  constructor
  · have havg : (twoLocks 1 2).queryData 3 .AVG = 1 := by decide +kernel
    have hone : ((twoLocks 1 2).lbl ⟨3, [1]⟩).data = 1 := by decide +kernel
    have htwo : ((twoLocks 1 2).lbl ⟨3, [2]⟩).data = 2 := by decide +kernel
    rw [twoLocks_dataLocks (.inl (by decide +kernel)), finsum_mem_pair hne, Set.ncard_pair hne, havg,
      hone, htwo]
    norm_num
  · have hsum : (twoLocks (2 ^ 63 - 1) (2 ^ 63 - 1)).queryData 3 .SUM = -2 := by decide +kernel
    have hone : ((twoLocks (2 ^ 63 - 1) (2 ^ 63 - 1)).lbl ⟨3, [1]⟩).data = 2 ^ 63 - 1 := by
      decide +kernel
    have htwo : ((twoLocks (2 ^ 63 - 1) (2 ^ 63 - 1)).lbl ⟨3, [2]⟩).data = 2 ^ 63 - 1 := by
      decide +kernel
    rw [twoLocks_dataLocks (.inr (by decide +kernel)), finsum_mem_pair hne, hsum, hone, htwo]
    norm_num

end FirebirdCore.Lock
