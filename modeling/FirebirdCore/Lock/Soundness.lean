import FirebirdCore.Lock.Clients
import FirebirdCore.Lib.Run

/-!
# Runs of the lock manager

Every run in which no counter overflows keeps the table sound.
-/
namespace FirebirdCore.Lock

/-! ## Runs -/

/-- No counter overflows: fewer than `2 ^ 16 - 1` requests on the lock hold or ask for the level that
is asked for, and fewer are pending when the request may have to wait. -/
def Op.Fits (t : Table) : Op → Prop
  | .enqueue _ _ res type _ wait =>
      (t.lbl res).Room t.lrq type ∧ (wait → (t.lbl res).PendingRoom t.lrq)
  | .convert r type wait =>
      (t.lbl (t.lrq r).lock).Room t.lrq type ∧ (wait → (t.lbl (t.lrq r).lock).PendingRoom t.lrq)
  | .downgrade r => (t.lbl (t.lrq r).lock).Room t.lrq (t.downgradeLevel r)
  | .createOwner _ => True
  | .dequeue _ => True
  | .reject _ => True
  | .rejectedEnqueue _ => True
  | .rejectedConvert _ => True
  | .writeData _ _ => True
  | .purgeOwner _ => True

instance (lock : Lbl) (lrq : ℕ → Lrq) (s : Level) : Decidable (lock.Room lrq s) :=
  inferInstanceAs (Decidable (_ → _))

instance (lock : Lbl) (lrq : ℕ → Lrq) : Decidable (lock.PendingRoom lrq) :=
  inferInstanceAs (Decidable (_ < _))

instance (t : Table) : (op : Op) → Decidable (op.Fits t)
  | .enqueue _ _ res type _ wait =>
      inferInstanceAs (Decidable
        ((t.lbl res).Room t.lrq type ∧ (wait → (t.lbl res).PendingRoom t.lrq)))
  | .convert r type wait =>
      inferInstanceAs (Decidable ((t.lbl (t.lrq r).lock).Room t.lrq type ∧
        (wait → (t.lbl (t.lrq r).lock).PendingRoom t.lrq)))
  | .downgrade r =>
      inferInstanceAs (Decidable ((t.lbl (t.lrq r).lock).Room t.lrq (t.downgradeLevel r)))
  | .createOwner _ => instDecidableTrue
  | .dequeue _ => instDecidableTrue
  | .reject _ => instDecidableTrue
  | .rejectedEnqueue _ => instDecidableTrue
  | .rejectedConvert _ => instDecidableTrue
  | .writeData _ _ => instDecidableTrue
  | .purgeOwner _ => instDecidableTrue

theorem apply_inv {t t' : Table} (h : t.Inv) {op : Op} (hfits : op.Fits t)
    (ht' : op.apply t = some t') : t'.Inv := by
  cases op <;> rw [Op.apply] at ht'
  case createOwner o =>
    split_ifs at ht' with ho
    have hempty : (t.own o).requests = [] := by
      by_contra hne
      exact ho (h.linked.ownLive o hne)
    exact Option.some.inj ht' ▸ Table.onOwn_inv h hempty _ rfl rfl
  case enqueue r o res type data wait =>
    split_ifs at ht' with hlive
    exact Option.some.inj ht' ▸ Table.enqueue_inv h hlive.1 (Bool.eq_false_of_not_eq_true hlive.2)
      hfits.1 hfits.2
  case convert r type wait =>
    split_ifs at ht' with hlive
    exact Table.internalConvert_inv h hlive hfits.1 hfits.2 ht'
  case downgrade r =>
    split_ifs at ht' with hlive
    rw [Table.downgrade] at ht'
    split_ifs at ht' with hlevel
    · exact Option.some.inj ht' ▸ (Table.releaseRequest_inv h hlive).1
    · exact Table.internalConvert_inv h hlive hfits (fun hwait => absurd hwait Bool.false_ne_true) ht'
  case dequeue r =>
    split_ifs at ht' with hlive
    exact Option.some.inj ht' ▸ (Table.releaseRequest_inv h hlive).1
  case reject r =>
    split_ifs at ht' with hlive
    exact Option.some.inj ht' ▸ Table.rejectRequest_inv h hlive.1 hlive.2
  case rejectedEnqueue r =>
    split_ifs at ht' with hlive
    exact Option.some.inj ht' ▸ (Table.releaseRequest_inv h hlive.1).1
  case rejectedConvert r =>
    split_ifs at ht' with hlive
    exact Option.some.inj ht' ▸ Table.rejectedConvert_inv h hlive.1
  case writeData r data =>
    split_ifs at ht' with hlive
    exact Option.some.inj ht' ▸ Table.setData_inv h _ data
  case purgeOwner o =>
    split_ifs at ht' with hlive
    exact Option.some.inj ht' ▸ Table.purgeOwner_inv h o

theorem step_inv {t : Table} (op : Op) (h : t.Inv) (hfits : op.Fits t) : (step t op).Inv := by
  rw [step]
  cases happly : op.apply t with
  | none => exact h
  | some t' => exact apply_inv h hfits happly

theorem empty_inv : Table.empty.Inv := by
  refine ⟨⟨?_, ?_, ?_, ?_, ?_, ?_, ?_, ?_⟩, ⟨?_, ?_⟩, ?_⟩ <;> simp [Table.empty]

/-- What the table promises to its clients. A request in `LCK_none` holds nothing and is not
counted. -/
structure Table.Sound (t : Table) : Prop where
  queues : ∀ res r, r ∈ (t.lbl res).requests ↔ (t.lrq r).live ∧ (t.lrq r).lock = res
  compatible : ∀ res, ∀ a ∈ (t.lbl res).requests, ∀ b ∈ (t.lbl res).requests, a ≠ b →
    compatibility (t.lrq a).state (t.lrq b).state
  counts : ∀ res, (t.lbl res).live → ∀ s, s ≠ .none → ((t.lbl res).counts s).toNat =
    (t.lbl res).requests.countP fun r => (t.lrq r).state = s
  highest : ∀ res, (t.lbl res).live →
    (∀ r ∈ (t.lbl res).requests, (t.lrq r).state ≤ (t.lbl res).state) ∧
      ((t.lbl res).state = .none ∨
        ∃ r ∈ (t.lbl res).requests, (t.lrq r).state = (t.lbl res).state)
  pendingCount : ∀ res, (t.lbl res).live → (t.lbl res).pendingLrqCount.toNat =
    (t.lbl res).requests.countP fun r => (t.lrq r).pending
  pending : ∀ o r, r ∈ (t.own o).pending ↔ (t.lrq r).live ∧ (t.lrq r).owner = o ∧ (t.lrq r).pending

theorem toNat_ofNat {n : ℕ} (h : n < 2 ^ 16) : (UInt16.ofNat n).toNat = n := by
  rw [UInt16.toNat_ofNat']
  omega

theorem Table.Inv.sound {t : Table} (h : t.Inv) : t.Sound := by
  refine ⟨fun res r => ⟨h.linked.lockOf res r, fun hr => hr.2 ▸ h.linked.onLock r hr.1⟩,
    fun res a ha => ?_, fun res hres s hs => ?_, fun res hres => ⟨fun r hr => ?_, ?_⟩,
    fun res hres => ?_, h.pendingLinked.mem⟩
  · have hok := h.locks res ((h.linked.lockLive res).2 (List.ne_nil_of_mem ha))
    exact hok.compatible a ha
  · have hok := h.locks res hres
    rw [hok.counted s hs, toNat_ofNat (hok.held_lt hs)]
  · have hok := h.locks res hres
    by_cases hnone : (t.lrq r).state = .none
    · rw [hnone]
      cases (t.lbl res).state <;> decide
    · rw [hok.stateEq]
      refine le_lockState hnone fun hzero => ?_
      rw [hok.counted _ hnone, ofNat_eq_zero (hok.held_lt hnone), List.countP_eq_zero] at hzero
      exact hzero r hr (by simp)
  · have hok := h.locks res hres
    by_cases hnone : (t.lbl res).state = .none
    · exact Or.inl hnone
    · refine Or.inr ?_
      have hheld : (t.lbl res).counts (t.lbl res).state ≠ 0 := by
        rw [hok.stateEq] at hnone ⊢
        exact lockState_ne_zero hnone
      rw [hok.counted _ hnone, Ne, ofNat_eq_zero (hok.held_lt hnone)] at hheld
      obtain ⟨r, hr, hstate⟩ := List.countP_pos_iff.1 (Nat.pos_of_ne_zero hheld)
      exact ⟨r, hr, by simpa using hstate⟩
  · have hok := h.locks res hres
    rw [hok.pendingCount, toNat_ofNat hok.pendingFits, Lbl.pendingRequests]
    exact List.countP_congr fun x _ => by simp

/-- Every run in which no counter overflows keeps the table sound. -/
theorem lockTable_sound (ops : List Op) (hfits : Run.AlongRun step (fun t op => op.Fits t) .empty ops) :
    (Run.run step .empty ops).Sound :=
  (Run.run_invariant Table.Inv (fun _ op h hop => step_inv op h hop) empty_inv hfits).sound

/-- Two owners, a request that has to wait, a conversion, a rejection and a purge. -/
theorem lockTable_sound_witness : (Run.run step .empty
    [.createOwner 0, .createOwner 1, .enqueue 0 0 ⟨1, [7]⟩ .PR 5 false,
      .enqueue 1 1 ⟨1, [7]⟩ .EX 0 true, .convert 0 .SW true, .downgrade 0, .convert 1 .SR false,
      .enqueue 2 0 ⟨1, [7]⟩ .EX 0 true, .reject 2, .rejectedEnqueue 2, .purgeOwner 1]).Sound :=
  lockTable_sound _ (by decide +kernel)

/-! ## More requests than a counter counts -/

def sharedLock : Resource := ⟨1, [7]⟩

/-- A request of owner 0 for a read lock. -/
def readRequest : Lrq := ⟨true, .SR, .none, false, false, 0, sharedLock, 0⟩

/-- One owner takes this many read locks on a resource. -/
def readers (n : ℕ) : List Op :=
  .createOwner 0 :: (List.range n).map fun r => .enqueue r 0 sharedLock .SR 0 false

/-- The table after them. -/
structure AfterReaders (n : ℕ) (t : Table) : Prop where
  owner : (t.own 0).live
  free : ∀ r, n ≤ r → (t.lrq r).live = false
  held : ∀ r, r < n → (t.lrq r).state = .SR
  live : (t.lbl sharedLock).live
  requests : (t.lbl sharedLock).requests = List.range n
  pendingCount : (t.lbl sharedLock).pendingLrqCount = 0
  counts : (t.lbl sharedLock).counts = Function.update (fun _ => 0) .SR (UInt16.ofNat n)
  state : (t.lbl sharedLock).state = lockState (t.lbl sharedLock).counts

theorem grant_reader {n : ℕ} {t : Table} (howner : (t.own 0).live)
    (hself : t.lrq n = readRequest)
    (hfree : ∀ r, n < r → (t.lrq r).live = false) (hheld : ∀ r, r < n → (t.lrq r).state = .SR)
    (hlive : (t.lbl sharedLock).live) (hrequests : (t.lbl sharedLock).requests = List.range (n + 1))
    (hpending : (t.lbl sharedLock).pendingLrqCount = 0)
    (hcounts : (t.lbl sharedLock).counts =
      Function.update (fun _ => 0) .SR (UInt16.ofNat n)) : AfterReaders (n + 1) (t.grant n) := by
  obtain ⟨data, hlbl⟩ := Table.grant_lbl t n
  have hown : (t.grant n).own = t.own := by
    rw [Table.grant_own, hself]
    rfl
  rw [hself] at hlbl
  have hlock : (t.grant n).lbl sharedLock = (t.lbl sharedLock).granted readRequest data := by
    rw [hlbl]
    exact Function.update_self ..
  refine ⟨by rw [hown]; exact howner, fun r hr => ?_, fun r hr => ?_, by rw [hlock]; exact hlive,
    by rw [hlock]; exact hrequests, by rw [hlock]; exact hpending, ?_, by rw [hlock]; rfl⟩
  · rw [Table.grant_lrq, Function.update_of_ne (by omega)]
    exact hfree r hr
  · rw [Table.grant_lrq]
    by_cases hrn : r = n
    · rw [hrn, Function.update_self, hself]
      rfl
    · rw [Function.update_of_ne hrn]
      exact hheld r (by omega)
  · rw [hlock]
    show Function.update (t.lbl sharedLock).counts .SR ((t.lbl sharedLock).counts .SR + 1) = _
    rw [hcounts, Function.update_self, Function.update_idem, UInt16.ofNat_add]
    rfl

theorem afterReaders_one : AfterReaders 1 (Run.run step .empty (readers 1)) := by
  have hrun : Run.run step .empty (readers 1) =
      ((((Table.empty.onOwn 0 fun _ => ⟨true, [], []⟩).newRequest 0 0 sharedLock .SR 0).newLock
        sharedLock .SR 0).onLbl sharedLock
          fun lock => { lock with requests := lock.requests ++ [0] }).grant 0 := rfl
  rw [hrun]
  refine grant_reader rfl rfl (fun r hr => ?_) (fun r hr => absurd hr (Nat.not_lt_zero r)) rfl rfl
    rfl (Function.update_eq_self Level.SR _).symm
  show (Function.update Table.empty.lrq 0 _ r).live = false
  rw [Function.update_of_ne hr.ne']
  rfl

/-- One more reader is granted at once, whatever the counter has become. -/
theorem afterReaders_succ {n : ℕ} {t : Table} (h : AfterReaders n t) :
    AfterReaders (n + 1) (step t (.enqueue n 0 sharedLock .SR 0 false)) := by
  have hfree : (t.lrq n).live = false := h.free n le_rfl
  generalize hqueued : (t.newRequest n 0 sharedLock .SR 0).onLbl sharedLock
    (fun lock => { lock with requests := lock.requests ++ [n] }) = queued
  have hself : queued.lrq n = readRequest := by
    rw [← hqueued, Table.onLbl_lrq, Table.newRequest, Table.onOwn_lrq, Table.onLrq_lrq,
      Function.update_self]
    rfl
  have hother : ∀ r, r ≠ n → queued.lrq r = t.lrq r := by
    intro r hr
    rw [← hqueued, Table.onLbl_lrq, Table.newRequest, Table.onOwn_lrq, Table.onLrq_lrq,
      Function.update_of_ne hr]
  have hlock : queued.lbl sharedLock = { t.lbl sharedLock with
      requests := (t.lbl sharedLock).requests ++ [n] } := by
    rw [← hqueued, Table.onLbl_lbl, Function.update_self]
    rfl
  have hgranted : AfterReaders (n + 1) (queued.grant n) := by
    refine grant_reader ?_ hself (fun r hr => ?_) (fun r hr => ?_) ?_ ?_ ?_ ?_
    · rw [← hqueued]
      exact h.owner
    · rw [hother r (by omega)]
      exact h.free r hr.le
    · rw [hother r (by omega)]
      exact h.held r hr
    · rw [hlock]
      exact h.live
    · rw [hlock, List.range_succ, ← h.requests]
    · rw [hlock]
      exact h.pendingCount
    · rw [hlock]
      exact h.counts
  have hstep : step t (.enqueue n 0 sharedLock .SR 0 false) = queued.grantOrQue n false := by
    rw [step, Op.apply, if_pos ⟨h.owner, by rw [hfree]; exact Bool.false_ne_true⟩, Option.getD_some,
      Table.enqueue, if_pos h.live, hqueued]
  have hcompat : compatibility .SR (queued.lbl sharedLock).state := by
    rw [hlock, h.state, h.counts]
    by_cases hzero : UInt16.ofNat n = 0
    · have hstate : lockState (Function.update (fun _ => 0) .SR (UInt16.ofNat n)) = .none := by
        refine lockState_eq_none.2 fun s _ => ?_
        by_cases hs : s = .SR
        · rw [hs, Function.update_self, hzero]
        · rw [Function.update_of_ne hs]
      rw [hstate]
      rfl
    · have hstate : lockState (Function.update (fun _ => 0) .SR (UInt16.ofNat n)) = .SR := by
        simp [lockState, hzero]
      rw [hstate]
      rfl
  have hpending : (queued.lbl sharedLock).pendingLrqCount = 0 := by
    rw [hlock]
    exact h.pendingCount
  have hpost : (queued.grant n).postPending sharedLock = queued.grant n :=
    if_pos hgranted.pendingCount
  have hgrant : queued.grantOrQue n false = (queued.grant n).postPending sharedLock := by
    rw [Table.grantOrQue, hself]
    exact if_pos ⟨hcompat, Or.inr hpending⟩
  rw [hstep, hgrant, hpost]
  exact hgranted

theorem afterReaders (n : ℕ) : AfterReaders (n + 1) (Run.run step .empty (readers (n + 1))) := by
  induction n with
  | zero => exact afterReaders_one
  | succ n ih =>
    have hops : readers (n + 2) =
        readers (n + 1) ++ [.enqueue (n + 1) 0 sharedLock .SR 0 false] := by
      rw [readers, List.range_succ, List.map_append]
      rfl
    rw [hops, Run.run_append]
    exact afterReaders_succ ih

/-- With `2 ^ 16` read locks granted the counter of the lock is zero and its state none. -/
theorem readers_not_sound :
    ((Run.run step .empty (readers (2 ^ 16))).lbl sharedLock).state = .none ∧
      ¬ (Run.run step .empty (readers (2 ^ 16))).Sound := by
  have h := afterReaders (2 ^ 16 - 1)
  rw [Nat.sub_add_cancel Nat.one_le_two_pow] at h
  generalize Run.run step .empty (readers (2 ^ 16)) = t at h
  have hcount : (t.lbl sharedLock).counts .SR = 0 := by
    rw [h.counts, Function.update_self]
    rfl
  refine ⟨?_, fun hsound => ?_⟩
  · rw [h.state]
    refine lockState_eq_none.2 fun s _ => ?_
    by_cases hs : s = .SR
    · rw [hs, hcount]
    · rw [h.counts, Function.update_of_ne hs]
  · have hheld := hsound.counts sharedLock h.live .SR (by decide)
    rw [hcount, h.requests, List.countP_eq_length.2, List.length_range] at hheld
    · cases hheld
    · intro r hr
      simp [h.held r (List.mem_range.1 hr)]

end FirebirdCore.Lock
