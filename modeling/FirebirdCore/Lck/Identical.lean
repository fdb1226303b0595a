import FirebirdCore.Lock.Table
import FirebirdCore.Lib.Path
import FirebirdCore.Lib.Run

/-!
# Identical locks of one attachment

The locks of an attachment that have one type and key share one request to the lock manager. `lck.cpp`
enters the first of them in the attachment's compatibility table, and `lck_identical` leads from there
to the others. Locks are numbers below `count`, the number of blocks there are; a loop over a list
visits no more than these unless the list runs into itself.
-/
namespace FirebirdCore.Lck
open Lock Run Path

/-- What the owner of a lock sets: the blocks within which it is compatible (0 is none), and whether it
has a blocking AST. -/
structure Settings where
  compatible : ℕ
  compatible2 : ℕ
  ast : Bool
  deriving DecidableEq, Repr

/-- The request that the lock manager holds for the identical locks. -/
structure Request where
  id : ℕ
  level : Level
  astArgument : ℕ
  deriving DecidableEq, Repr

/-- `first` is what `hash_get_lock` finds. -/
structure Locks where
  first : Option ℕ
  identical : ℕ → Option ℕ
  logical : ℕ → Level
  physical : ℕ → Level
  id : ℕ → ℕ
  request : Option Request

/-- What the blocking ASTs of some locks do, which may call all of this again. -/
abbrev Delivery := List ℕ → Locks → Locks

variable (count : ℕ) (settings : ℕ → Settings) (deliver : Delivery)

/-- All identical locks. -/
def Locks.all (s : Locks) : List ℕ := walk s.identical count s.first

def compatible (s : Locks) (lock1 lock2 : ℕ) (level2 : Level) : Bool :=
  let a := settings lock1
  let b := settings lock2
  (a.compatible != 0 && b.compatible != 0 && a.compatible == b.compatible &&
    (a.compatible2 == 0 || b.compatible2 == 0 || a.compatible2 == b.compatible2)) ||
  compatibility (s.logical lock1) level2

/-! ## The compatibility table -/

def hashInsertLock (s : Locks) (lock : ℕ) : Locks :=
  match s.first with
  | none => { s with first := some lock }
  -- second in the list, out of pure laziness
  | some first => { s with
      identical := Function.update (Function.update s.identical lock (s.identical first)) first
        (some lock) }

/-- The locks without this one, the one that was first, and whether this one was the last; `none` if it
is not there. -/
def hashRemoveLock (s : Locks) (lock : ℕ) : Option (Locks × ℕ × Bool) :=
  match s.first with
  | none => none
  | some first =>
      if first = lock then
        match s.identical lock with
        | some next => some ({ s with first := some next }, first, false)
        | none => some ({ s with first := none }, first, true)
      else
        match (s.all count).find? fun last => s.identical last == some lock with
        | none => none
        | some last =>
            some ({ s with identical := Function.update s.identical last (s.identical lock) }, first,
              false)

/-! ## Calls of the lock manager, which answers with the number of the request, 0 for a refusal -/

def managerEnqueue (s : Locks) (level : Level) (lock answer : ℕ) : Locks :=
  if answer = 0 then s else { s with request := some ⟨answer, level, lock⟩ }

def managerConvert (s : Locks) (id : ℕ) (level : Level) (lock answer : ℕ) : Option Locks :=
  match s.request with
  | none => none
  | some request =>
      if request.id = id ∧ answer ≠ 0 then some { s with request := some ⟨id, level, lock⟩ } else none

def managerDequeue (s : Locks) (id : ℕ) : Locks :=
  { s with request := s.request.filter (·.id != id) }

/-! ## The internal lock manager -/

/-- The locks with an AST that are not compatible with this one at its own level. -/
def blocking (s : Locks) (lock : ℕ) : List ℕ :=
  (s.all count).filter fun next =>
    next != lock && !compatible settings s next lock (s.logical lock) && (settings next).ast

def internalAst (s : Locks) (lock : ℕ) : Locks :=
  match blocking count settings s lock with
  | [] => s
  | locks => deliver locks s

def internalCompatible (s : Locks) (first lock : ℕ) (level : Level) : Locks × Bool :=
  if (walk s.identical count first).any fun next =>
      !(settings next).ast && !compatible settings s next lock level then
    (s, false)
  else
    let s := internalAst count settings deliver s first
    (s, (walk s.identical count first).all fun next => compatible settings s next first level)

def setPhysical (s : Locks) (locks : List ℕ) (level : Level) : Locks :=
  { s with physical := fun lock => if lock ∈ locks then level else s.physical lock }

/-- The highest logical level of the locks, by its number. -/
def highest (logical : ℕ → Level) (locks : List ℕ) : Level :=
  locks.foldl (fun level lock => max level (logical lock)) .none

def internalDowngrade (s : Locks) (first answer : ℕ) : Locks × Level :=
  let locks := walk s.identical count first
  let level := highest s.logical locks
  if level < s.physical first then
    match managerConvert s (s.id first) level first answer with
    | some s => (setPhysical s locks level, level)
    | none => (s, s.physical first)
  else (s, s.physical first)

def internalDequeue (s : Locks) (lock answer : ℕ) : Locks :=
  match hashRemoveLock count s lock with
  | none => s
  | some (s, _, true) =>
      { managerDequeue s (s.id lock) with
        id := Function.update s.id lock 0
        physical := Function.update s.physical lock .none
        logical := Function.update s.logical lock .none }
  | some (s, first, false) => (internalDowngrade count s first answer).1

/-- There is no identical lock, so that the lock manager is asked. -/
def enqueueFirst (s : Locks) (lock : ℕ) (level : Level) (answer : ℕ) : Locks × Bool :=
  let s := { managerEnqueue s level lock answer with id := Function.update s.id lock answer }
  if answer = 0 then
    ({ s with
      physical := Function.update s.physical lock .none
      logical := Function.update s.logical lock .none }, false)
  else
    let s := hashInsertLock s lock
    ({ s with
      logical := Function.update s.logical lock level
      physical := Function.update s.physical lock level }, true)

/-- The lock joins the identical ones, of which `first` is the first. -/
def join (s : Locks) (first lock : ℕ) (level : Level) (convertFlg : Bool) : Locks :=
  let s := { s with
    id := Function.update s.id lock (s.id first)
    logical := Function.update s.logical lock level
    physical := Function.update s.physical lock (s.physical first) }
  if convertFlg then s else hashInsertLock s lock

/-- The lock manager is asked only if the level is higher than the physical one. -/
def enqueueIdentical (s : Locks) (first lock : ℕ) (level : Level) (convertFlg : Bool) (answer : ℕ) :
    Locks × Bool :=
  if s.physical first < level then
    match managerConvert s (s.id first) level lock answer with
    | none => (s, false)
    | some s =>
        (join (setPhysical s (walk s.identical count first) level) first lock level convertFlg,
          true)
  else (join s first lock level convertFlg, true)

def internalEnqueue (s : Locks) (lock : ℕ) (level : Level) (convertFlg : Bool) (answer : ℕ) :
    Locks × Bool :=
  match s.first with
  | none => enqueueFirst s lock level answer
  | some first =>
      match internalCompatible count settings deliver s first lock level with
      | (s, false) => (s, false)
      | (s, true) =>
          -- the ASTs may have removed them all
          match s.first with
          | none => enqueueFirst s lock level answer
          | some first => enqueueIdentical count s first lock level convertFlg answer

inductive Op where
  | enqueue (lock : ℕ) (level : Level) (convertFlg : Bool) (answer : ℕ)
  | downgrade (lock answer : ℕ)
  | dequeue (lock answer : ℕ)
  deriving DecidableEq, Repr

def step (s : Locks) : Op → Locks
  | .enqueue lock level convertFlg answer =>
      (internalEnqueue count settings deliver s lock level convertFlg answer).1
  | .downgrade lock answer => (internalDowngrade count s lock answer).1
  | .dequeue lock answer => internalDequeue count s lock answer

/-- No lock is enqueued. -/
def noLocks : Locks where
  first := none
  identical := fun _ => none
  logical := fun _ => .none
  physical := fun _ => .none
  id := fun _ => 0
  request := none

end FirebirdCore.Lck
