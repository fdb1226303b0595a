import Mathlib.Data.List.Basic
import Mathlib.Order.Basic
import Mathlib.Tactic

/-!
# The lock table

Requests, locks and owners of the lock manager with the operations on them. A lock is found by its
resource, the series and the key; requests and owners have numbers. The queues are lists. Counters
have the 16 bits that they have in shared memory.
-/
namespace FirebirdCore.Lock

/-! ## Lock levels -/

inductive Level where
  | none
  | null
  | SR
  | PR
  | SW
  | PW
  | EX
  deriving DecidableEq, Repr

namespace Level

def toNat : Level → ℕ
  | none => 0
  | null => 1
  | SR => 2
  | PR => 3
  | SW => 4
  | PW => 5
  | EX => 6

/-- The level below. -/
def pred : Level → Level
  | none => none
  | null => none
  | SR => null
  | PR => SR
  | SW => PR
  | PW => SW
  | EX => PW

theorem toNat_injective : Function.Injective toNat := by
  intro a b h
  cases a <;> cases b <;> first | rfl | cases h

instance : LinearOrder Level := LinearOrder.lift' toNat toNat_injective

instance : Fintype Level :=
  ⟨{none, null, SR, PR, SW, PW, EX}, by intro s; cases s <;> decide⟩

end Level

/-- `compatibility[requested][state]`. -/
def compatibility (requested state : Level) : Bool :=
  let table : List (List Bool) := [
    [true, true, true, true, true, true, true],
    [true, true, true, true, true, true, true],
    [true, true, true, true, true, true, false],
    [true, true, true, true, false, false, false],
    [true, true, true, false, true, false, false],
    [true, true, true, false, false, false, false],
    [true, true, false, false, false, false, false]]
  (table.getD requested.toNat []).getD state.toNat false

theorem compatibility_comm (a b : Level) : compatibility a b = compatibility b a := by
  revert a b
  decide

@[simp] theorem compatibility_none (a : Level) : compatibility a .none = true := by
  revert a
  decide

/-- What goes with the highest of some levels that go together goes with all of them. -/
theorem compatibility_of_highest :
    ∀ {requested highest state : Level}, compatibility requested highest → state ≤ highest →
      compatibility state highest → compatibility requested state := by
  decide

/-! ## The blocks -/

structure Resource where
  series : ℕ
  key : List UInt8
  deriving DecidableEq, Repr

/-- A lock request, `live` when the block is in use. -/
structure Lrq where
  live : Bool
  requested : Level
  state : Level
  pending : Bool
  rejected : Bool
  owner : ℕ
  lock : Resource
  data : ℤ
  deriving DecidableEq, Repr

structure Lbl where
  live : Bool
  state : Level
  requests : List ℕ
  data : ℤ
  pendingLrqCount : UInt16
  counts : Level → UInt16

structure Own where
  live : Bool
  requests : List ℕ
  pending : List ℕ
  deriving DecidableEq, Repr

/-- `dataQue` are the locks of a series that have data, by it. -/
structure Table where
  lrq : ℕ → Lrq
  lbl : Resource → Lbl
  own : ℕ → Own
  dataQue : ℕ → List Resource

namespace Table

def onLrq (t : Table) (r : ℕ) (f : Lrq → Lrq) : Table :=
  { t with lrq := Function.update t.lrq r (f (t.lrq r)) }

def onLbl (t : Table) (res : Resource) (f : Lbl → Lbl) : Table :=
  { t with lbl := Function.update t.lbl res (f (t.lbl res)) }

def onOwn (t : Table) (o : ℕ) (f : Own → Own) : Table :=
  { t with own := Function.update t.own o (f (t.own o)) }

/-- A table without requests. -/
def empty : Table where
  lrq := fun _ => ⟨false, .none, .none, false, false, 0, ⟨0, []⟩, 0⟩
  lbl := fun _ => ⟨false, .none, [], 0, 0, fun _ => 0⟩
  own := fun _ => ⟨false, [], []⟩
  dataQue := fun _ => []

/-! ## The data queues -/

def maxSeries : ℕ := 7

def removeDataQue (t : Table) (res : Resource) : Table :=
  { t with dataQue := Function.update t.dataQue res.series ((t.dataQue res.series).erase res) }

/-- In front of the first lock whose data is not below. -/
def insertData (lbl : Resource → Lbl) (res : Resource) : List Resource → List Resource
  | [] => [res]
  | x :: xs => if (lbl res).data ≤ (lbl x).data then res :: x :: xs else x :: insertData lbl res xs

def insertDataQue (t : Table) (res : Resource) : Table :=
  if res.series < maxSeries ∧ (t.lbl res).data ≠ 0 then
    { t with
      dataQue := Function.update t.dataQue res.series (insertData t.lbl res (t.dataQue res.series)) }
  else t

/-- Give the lock this data. -/
def setData (t : Table) (res : Resource) (data : ℤ) : Table :=
  ((t.removeDataQue res).onLbl res ({ · with data := data })).insertDataQue res

end Table

/-! ## Granting -/

/-- Compute the current state of a lock. -/
def lockState (counts : Level → UInt16) : Level :=
  if counts .EX ≠ 0 then .EX
  else if counts .PW ≠ 0 then .PW
  else if counts .SW ≠ 0 then .SW
  else if counts .PR ≠ 0 then .PR
  else if counts .SR ≠ 0 then .SR
  else if counts .null ≠ 0 then .null
  else .none

def Lbl.incr (lock : Lbl) (s : Level) : Lbl :=
  { lock with counts := Function.update lock.counts s (lock.counts s + 1) }

def Lbl.decr (lock : Lbl) (s : Level) : Lbl :=
  { lock with counts := Function.update lock.counts s (lock.counts s - 1) }

namespace Table

/-- The request is not pending any more. -/
def clearPending (t : Table) (r : ℕ) : Table :=
  let request := t.lrq r
  ((t.onOwn request.owner fun owner => { owner with pending := owner.pending.erase r }).onLrq r
    ({ · with pending := false })).onLbl request.lock
      fun lock => { lock with pendingLrqCount := lock.pendingLrqCount - 1 }

/-- Grant a lock request. For a conversion the former level has been taken off the counts. -/
def grant (t : Table) (r : ℕ) : Table :=
  let request := t.lrq r
  let t := t.onLbl request.lock (·.incr request.requested)
  let t := t.onLrq r ({ · with state := request.requested })
  let t := if request.data ≠ 0 then
      (t.setData request.lock request.data).onLrq r ({ · with data := 0 })
    else t
  let t := t.onLbl request.lock fun lock => { lock with state := lockState lock.counts }
  if request.pending then t.clearPending r else t

/-- Grant what can be granted of these requests, up to the first pending one that cannot. -/
def postPendingLoop : Table → List ℕ → Table
  | t, [] => t
  | t, r :: rs =>
      let request := t.lrq r
      if !request.pending then postPendingLoop t rs
      else if request.state ≠ .none then
        let lowered := t.onLbl request.lock (·.decr request.state)
        if compatibility request.requested (lockState (lowered.lbl request.lock).counts) then
          postPendingLoop (lowered.grant r) rs
        else lowered.onLbl request.lock (·.incr request.state)
      else if compatibility request.requested (t.lbl request.lock).state then
        postPendingLoop (t.grant r) rs
      else t

/-- There has been a change in state of a lock. -/
def postPending (t : Table) (res : Resource) : Table :=
  if (t.lbl res).pendingLrqCount = 0 then t else t.postPendingLoop (t.lbl res).requests

/-! ## Releasing and waiting -/

/-- Disconnect the request from its lock and its owner. -/
def unlinkRequest (t : Table) (r : ℕ) : Table :=
  let request := t.lrq r
  let t := t.onLbl request.lock fun lock => { lock with requests := lock.requests.erase r }
  let t := t.onOwn request.owner fun owner => { owner with requests := owner.requests.erase r }
  let t := t.onLrq r ({ · with live := false })
  if request.pending then t.clearPending r else t

def releaseRequest (t : Table) (r : ℕ) : Table :=
  let request := t.lrq r
  let res := request.lock
  let t := t.unlinkRequest r
  -- If there are no outstanding requests, release the lock.
  if (t.lbl res).requests = [] then (t.removeDataQue res).onLbl res ({ · with live := false })
  else if request.state ≠ .none then
    let t := t.onLbl res (·.decr request.state)
    let t := if (t.lbl res).counts request.state = 0 then
        t.onLbl res fun lock => { lock with state := lockState lock.counts }
      else t
    t.postPending res
  else t.postPending res

/-- The start of `wait_for_request`. -/
def waitForRequest (t : Table) (r : ℕ) : Table :=
  let request := t.lrq r
  let t := t.onLrq r fun request => { request with
    rejected := false
    pending := true }
  let t := t.onOwn request.owner fun owner => { owner with pending := owner.pending ++ [r] }
  t.onLbl request.lock fun lock => { lock with
    pendingLrqCount := lock.pendingLrqCount + 1
    requests := if request.state = .none then lock.requests.erase r ++ [r] else lock.requests }

/-- There is a request against an existing lock. -/
def grantOrQue (t : Table) (r : ℕ) (wait : Bool) : Table :=
  let request := t.lrq r
  let lock := t.lbl request.lock
  if compatibility request.requested lock.state ∧
      (request.requested = .null ∨ lock.pendingLrqCount = 0) then
    (t.grant r).postPending request.lock
  else if wait then t.waitForRequest r
  else t.releaseRequest r

/-! ## What the clients call -/

/-- Set up the request block `r`, a free one. -/
def newRequest (t : Table) (r o : ℕ) (res : Resource) (type : Level) (data : ℤ) : Table :=
  (t.onLrq r fun _ => ⟨true, type, .none, false, false, o, res, data⟩).onOwn o
    fun owner => { owner with requests := owner.requests ++ [r] }

/-- The lock block of a resource that had none. -/
def newLock (t : Table) (res : Resource) (type : Level) (data : ℤ) : Table :=
  (t.onLbl res fun _ => ⟨true, type, [], data, 0, fun _ => 0⟩).insertDataQue res

def enqueue (t : Table) (r o : ℕ) (res : Resource) (type : Level) (data : ℤ) (wait : Bool) :
    Table :=
  if (t.lbl res).live then
    ((t.newRequest r o res type data).onLbl res
      fun lock => { lock with requests := lock.requests ++ [r] }).grantOrQue r wait
  else
    (((t.newRequest r o res type 0).newLock res type data).onLbl res
      fun lock => { lock with requests := lock.requests ++ [r] }).grant r

/-- `internal_convert` up to the wait. A request that waits already must not wait again. -/
def internalConvert (t : Table) (r : ℕ) (type : Level) (wait : Bool) : Option Table :=
  let t := t.onLrq r ({ · with requested := type })
  let request := t.lrq r
  let lowered := t.onLbl request.lock (·.decr request.state)
  if compatibility type (lockState (lowered.lbl request.lock).counts) then
    some ((lowered.grant r).postPending request.lock)
  else
    let t := lowered.onLbl request.lock (·.incr request.state)
    if wait then
      if request.pending then none else some (t.waitForRequest r)
    else some (t.onLrq r ({ · with requested := request.state }))

/-- The highest level that other requests of the lock are pending for. -/
def pendingState (t : Table) (r : ℕ) : Level :=
  (t.lbl (t.lrq r).lock).requests.foldl
    (fun s p => if (t.lrq p).pending ∧ p ≠ r then max (t.lrq p).requested s else s) .none

/-- Lower the level until it goes with `pendingState`. -/
def lowerLevel (pendingState : Level) : ℕ → Level → Level
  | 0, state => state
  | fuel + 1, state =>
      if state > .none ∧ !compatibility pendingState state then lowerLevel pendingState fuel state.pred
      else state

/-- The level that `downgrade` keeps. -/
def downgradeLevel (t : Table) (r : ℕ) : Level :=
  lowerLevel (t.pendingState r) (t.lrq r).state.toNat (t.lrq r).state

def downgrade (t : Table) (r : ℕ) : Option Table :=
  let state := t.downgradeLevel r
  if state = .none ∨ state = .null then some (t.releaseRequest r)
  else t.internalConvert r state false

/-- A pending request is rejected: it timed out, was cancelled, or breaks a deadlock. -/
def rejectRequest (t : Table) (r : ℕ) : Table :=
  (t.onLrq r ({ · with rejected := true })).clearPending r

/-- The end of `internal_convert` for a request that was rejected. -/
def rejectedConvert (t : Table) (r : ℕ) : Table :=
  (t.postPending (t.lrq r).lock).onLrq r fun request => { request with requested := request.state }

/-- Release the requests of the owner one by one. -/
def purgeRequests (o : ℕ) : ℕ → Table → Table
  | 0, t => t
  | fuel + 1, t =>
      match (t.own o).requests with
      | [] => t
      | r :: _ => purgeRequests o fuel (t.releaseRequest r)

def purgeOwner (t : Table) (o : ℕ) : Table :=
  (purgeRequests o (t.own o).requests.length t).onOwn o ({ · with live := false })

end Table

/-! ## Steps -/

inductive Op where
  | createOwner (o : ℕ)
  | enqueue (r o : ℕ) (res : Resource) (type : Level) (data : ℤ) (wait : Bool)
  | convert (r : ℕ) (type : Level) (wait : Bool)
  | downgrade (r : ℕ)
  | dequeue (r : ℕ)
  | reject (r : ℕ)
  | rejectedEnqueue (r : ℕ)
  | rejectedConvert (r : ℕ)
  | writeData (r : ℕ) (data : ℤ)
  | purgeOwner (o : ℕ)
  deriving DecidableEq, Repr

/-- One step, `none` when it is not possible. -/
def Op.apply (t : Table) : Op → Option Table
  | .createOwner o => if (t.own o).live then none else some (t.onOwn o fun _ => ⟨true, [], []⟩)
  | .enqueue r o res type data wait =>
      if (t.own o).live ∧ ¬ (t.lrq r).live then some (t.enqueue r o res type data wait) else none
  | .convert r type wait => if (t.lrq r).live then t.internalConvert r type wait else none
  | .downgrade r => if (t.lrq r).live then t.downgrade r else none
  | .dequeue r => if (t.lrq r).live then some (t.releaseRequest r) else none
  | .reject r =>
      if (t.lrq r).live ∧ (t.lrq r).pending then some (t.rejectRequest r) else none
  | .rejectedEnqueue r =>
      if (t.lrq r).live ∧ (t.lrq r).rejected ∧ ¬ (t.lrq r).pending then some (t.releaseRequest r)
      else none
  | .rejectedConvert r =>
      if (t.lrq r).live ∧ (t.lrq r).rejected ∧ ¬ (t.lrq r).pending then some (t.rejectedConvert r)
      else none
  | .writeData r data => if (t.lrq r).live then some (t.setData (t.lrq r).lock data) else none
  | .purgeOwner o => if (t.own o).live then some (t.purgeOwner o) else none

/-- A step that is not possible does not happen. -/
def step (t : Table) (op : Op) : Table := (op.apply t).getD t

end FirebirdCore.Lock
