import FirebirdCore.Lib.Ring
import FirebirdCore.Lib.Run

/-!
# The queues of the lock table

The self-relative queues of `lock.cpp` and what a process does to them between acquiring and releasing
the shared memory, store by store: `insert_tail` and `remove_que` note in the words of `shb` what they
are about to do, and `acquire_shmem` finishes or undoes it when the previous owner died.
-/
namespace FirebirdCore.Lock.Queues

/-- The links of every block and the words of `shb` and `lhb` that the recovery reads. Blocks are
offsets into the shared memory, 0 is none. -/
structure Shared where
  srqForward : ℕ → ℕ
  srqBackward : ℕ → ℕ
  insertQue : ℕ
  insertPrior : ℕ
  removeNode : ℕ
  activeOwner : ℤ

def Shared.setForward (s : Shared) (block offset : ℕ) : Shared :=
  { s with srqForward := Function.update s.srqForward block offset }

def Shared.setBackward (s : Shared) (block offset : ℕ) : Shared :=
  { s with srqBackward := Function.update s.srqBackward block offset }

/-- One store into the shared memory, `none` if the `CHECK` in front of it fails. -/
abbrev Store := Shared → Option Shared

/-- Makes the first `k` of the stores; tells whether these were all. -/
def perform : List Store → ℕ → Shared → Shared × Bool
  | [], _, s => (s, true)
  | _ :: _, 0, s => (s, false)
  | store :: stores, k + 1, s =>
      match store s with
      | some s' => perform stores k s'
      | none => (s, false)

def insertTail (lockSrq node : ℕ) : List Store :=
  [fun s => some { s with insertQue := lockSrq },
    fun s => some { s with insertPrior := s.srqBackward lockSrq },
    fun s => some (s.setForward node lockSrq),
    fun s => some (s.setBackward node (s.srqBackward lockSrq)),
    fun s => some (s.setForward (s.srqBackward lockSrq) node),
    fun s => some (s.setBackward lockSrq node),
    fun s => some { s with insertQue := 0 },
    fun s => some { s with insertPrior := 0 }]

/-- The next link might point back to the node, or to its prior one if a crash came in between. -/
def linkNext (node : ℕ) : Store := fun s =>
  let lockSrq := s.srqForward node
  if s.srqBackward lockSrq = node ∨ s.srqBackward lockSrq = s.srqBackward node then
    some (s.setBackward lockSrq (s.srqBackward node))
  else none

def linkPrior (node : ℕ) : Store := fun s =>
  let lockSrq := s.srqBackward node
  if s.srqForward lockSrq = node ∨ s.srqForward lockSrq = s.srqForward node then
    some (s.setForward lockSrq (s.srqForward node))
  else none

def removeQue (node : ℕ) : List Store :=
  [fun s => some { s with removeNode := node },
    linkNext node,
    linkPrior node,
    fun s => some { s with removeNode := 0 },
    -- `SRQ_INIT`
    fun s => some (s.setBackward node node),
    fun s => some (s.setForward node node)]

def undoInsertion : List Store :=
  [fun s => some (s.setBackward s.insertQue s.insertPrior),
    fun s => some (s.setForward s.insertPrior s.insertQue),
    fun s => some { s with insertQue := 0 },
    fun s => some { s with insertPrior := 0 }]

/-- What `acquire_shmem` does after the death of the previous owner. -/
def recovery (s : Shared) : List Store :=
  if s.removeNode ≠ 0 then removeQue s.removeNode
  else if s.insertQue ≠ 0 ∧ s.insertPrior ≠ 0 then undoInsertion
  else []

/-- `acquire_shmem` by a process that makes `k` stores of the recovery, or all if these are not more. -/
def acquireShmem (owner : ℤ) (k : ℕ) (s : Shared) : Shared × Bool :=
  let priorActive := s.activeOwner
  let s := { s with activeOwner := owner }
  if 0 < priorActive then perform (recovery s) k s else (s, true)

def releaseShmem (s : Shared) : Shared := { s with activeOwner := 0 }

inductive Op where
  | insertTail (lockSrq node : ℕ)
  | removeQue (node : ℕ)
  deriving DecidableEq, Repr

def Op.stores : Op → List Store
  | insertTail lockSrq node => Queues.insertTail lockSrq node
  | removeQue node => Queues.removeQue node

/-- A process acquires the shared memory as `acquirer`, goes on as `owner` (`setOwner`), makes one queue
operation and releases the memory, unless it dies after `recoveryStores` stores of the recovery or
`opStores` stores of the operation. Several operations under one acquisition leave what several
sessions leave that follow each other. -/
structure Session where
  acquirer : ℤ
  recoveryStores : ℕ
  owner : ℤ
  op : Op
  opStores : ℕ
  deriving DecidableEq, Repr

def Session.acquire (σ : Session) (s : Shared) : Shared × Bool :=
  acquireShmem σ.acquirer σ.recoveryStores s

def step (s : Shared) (σ : Session) : Shared :=
  match σ.acquire s with
  | (s, false) => s
  | (s, true) =>
      match perform σ.op.stores σ.opStores { s with activeOwner := σ.owner } with
      | (s, false) => s
      | (s, true) => releaseShmem s

/-- The shared memory as the next process finds it that survives the recovery. -/
def reacquired (owner : ℤ) (s : Shared) : Shared := (acquireShmem owner 6 s).1

/-! ## Well-formed queues -/

open Ring

/-- The blocks of `heads` are heads of queues with the members `c`, and no block is in two of them. -/
structure Consistent (heads : Set ℕ) (fwd back : ℕ → ℕ) (c : ℕ → List ℕ) : Prop where
  ring : ∀ q ∈ heads, IsRing fwd back q (c q)
  nodup : ∀ q ∈ heads, (q :: c q).Nodup
  null : ∀ q ∈ heads, 0 ∉ q :: c q
  disjoint : ∀ q ∈ heads, ∀ r ∈ heads, ∀ n, n ∈ q :: c q → n ∈ r :: c r → q = r

/-- The operation is one on a well-formed queue: the node to be inserted is in no queue, the one to be
removed is in one. -/
def Op.Fits (heads : Set ℕ) (c : ℕ → List ℕ) : Op → Prop
  | insertTail lockSrq node => lockSrq ∈ heads ∧ node ≠ 0 ∧ ∀ q ∈ heads, node ∉ q :: c q
  | removeQue node => ∃ q ∈ heads, node ∈ c q

/-- The members of the queues after the operation. -/
def Op.apply (c : ℕ → List ℕ) : Op → ℕ → List ℕ
  | insertTail lockSrq node => Function.update c lockSrq (c lockSrq ++ [node])
  | removeQue node => fun q => (c q).erase node

variable {heads : Set ℕ} {fwd back fwd' back' : ℕ → ℕ} {c d : ℕ → List ℕ} {q n : ℕ}

theorem Consistent.congr (h : Consistent heads fwd back c)
    (hfwd : ∀ q ∈ heads, ∀ x ∈ q :: c q, fwd' x = fwd x)
    (hback : ∀ q ∈ heads, ∀ x ∈ q :: c q, back' x = back x) : Consistent heads fwd' back' c where
  ring q hq := (h.ring q hq).congr (hfwd q hq) (hback q hq)
  nodup := h.nodup
  null := h.null
  disjoint := h.disjoint

theorem Consistent.unique (h : Consistent heads fwd back c) (h' : Consistent heads fwd back d)
    (hq : q ∈ heads) : c q = d q :=
  (h.ring q hq).unique (h'.ring q hq) (List.nodup_cons.1 (h.nodup q hq)).1
    (List.nodup_cons.1 (h'.nodup q hq)).1

/-- The links of a block that is in no queue do not matter. -/
theorem Consistent.setLinks (h : Consistent heads fwd back c) (hn : ∀ q ∈ heads, n ∉ q :: c q)
    (a b : ℕ) : Consistent heads (Function.update fwd n a) (Function.update back n b) c :=
  h.congr (fun q hq x hx => Function.update_of_ne (ne_of_mem_of_not_mem hx (hn q hq)) ..)
    (fun q hq x hx => Function.update_of_ne (ne_of_mem_of_not_mem hx (hn q hq)) ..)

theorem Consistent.ne_null (h : Consistent heads fwd back c) (hq : q ∈ heads) (hn : n ∈ q :: c q) :
    n ≠ 0 :=
  fun heq => h.null q hq (heq ▸ hn)

/-- Linking the head and its prior again puts the queue back to the state before an insertion. -/
theorem Consistent.restore (h : Consistent heads fwd back c) (hq : q ∈ heads)
    (hn : ∀ r ∈ heads, n ∉ r :: c r) (a b : ℕ) :
    Consistent heads (Function.update (Function.update fwd n a) (back q) q)
      (Function.update (Function.update back n b) q (back q)) c := by
  have hlinks := h.setLinks hn a b
  have hqn : q ≠ n := ne_of_mem_of_not_mem List.mem_cons_self (hn q hq)
  refine hlinks.congr (fun r hr x hx => ?_) (fun r hr x hx => ?_)
  · by_cases hx' : x = back q
    · subst hx'
      rw [Function.update_self, Function.update_of_ne (ne_of_mem_of_not_mem hx (hn r hr)),
        (h.ring q hq).fwd_back_head]
    · rw [Function.update_of_ne hx']
  · by_cases hx' : x = q
    · subst hx'
      rw [Function.update_self, Function.update_of_ne hqn]
    · rw [Function.update_of_ne hx']

theorem Consistent.insertTail (h : Consistent heads fwd back c)
    (hfits : (Op.insertTail q n).Fits heads c) :
    Consistent heads (Function.update (Function.update fwd n q) (back q) n)
      (Function.update (Function.update back n (back q)) q n) ((Op.insertTail q n).apply c) := by
  obtain ⟨hq, hnull, hn⟩ := hfits
  have hmem : ∀ r ∈ heads, ∀ x, x ∈ r :: (Op.insertTail q n).apply c r →
      x ∈ r :: c r ∨ (r = q ∧ x = n) := by
    intro r _ x hx
    by_cases hr : r = q
    · subst hr
      simp only [Op.apply, Function.update_self, List.mem_cons, List.mem_append, List.not_mem_nil,
        or_false] at hx ⊢
      tauto
    · rw [Op.apply, Function.update_of_ne hr] at hx
      exact .inl hx
  refine ⟨fun r hr => ?_, fun r hr => ?_, fun r hr h0 => ?_, fun r hr r' hr' x hx hx' => ?_⟩
  · by_cases hrq : r = q
    · subst hrq
      rw [Op.apply, Function.update_self]
      exact (h.ring r hr).insertTail (h.nodup r hr) (hn r hr)
    · rw [Op.apply, Function.update_of_ne hrq]
      have hother : ∀ x ∈ r :: c r, x ∉ q :: c q := fun x hx hx' => hrq (h.disjoint r hr q hq x hx hx')
      refine (h.ring r hr).congr (fun x hx => ?_) (fun x hx => ?_)
      · rw [Function.update_of_ne (ne_of_mem_of_not_mem (h.ring q hq).back_head_mem (hother x hx)).symm,
          Function.update_of_ne (ne_of_mem_of_not_mem hx (hn r hr))]
      · rw [Function.update_of_ne (ne_of_mem_of_not_mem List.mem_cons_self (hother x hx)).symm,
          Function.update_of_ne (ne_of_mem_of_not_mem hx (hn r hr))]
  · by_cases hrq : r = q
    · subst hrq
      rw [Op.apply, Function.update_self, ← List.cons_append]
      refine List.nodup_append.2 ⟨h.nodup r hr, List.nodup_singleton n, ?_⟩
      rintro x hx y hy rfl
      exact hn r hr (List.mem_singleton.1 hy ▸ hx)
    · rw [Op.apply, Function.update_of_ne hrq]
      exact h.nodup r hr
  · rcases hmem r hr 0 h0 with h0 | ⟨-, h0⟩
    · exact h.null r hr h0
    · exact hnull h0.symm
  · rcases hmem r hr x hx with hold | ⟨hrq, hxn⟩
    · rcases hmem r' hr' x hx' with hold' | ⟨-, hxn⟩
      · exact h.disjoint r hr r' hr' x hold hold'
      · exact absurd (hxn ▸ hold) (hn r hr)
    · rcases hmem r' hr' x hx' with hold' | ⟨hrq', -⟩
      · exact absurd (hxn ▸ hold') (hn r' hr')
      · exact hrq.trans hrq'.symm

/-- A member and its neighbours: it is not its own neighbour, and theirs is it. -/
theorem Consistent.neighbours (h : Consistent heads fwd back c) (hq : q ∈ heads) (hn : n ∈ c q) :
    fwd n ∈ q :: c q ∧ back n ∈ q :: c q ∧ back (fwd n) = n ∧ fwd (back n) = n ∧ fwd n ≠ n ∧
      back n ≠ n := by
  have hmem : n ∈ q :: c q := List.mem_cons_of_mem _ hn
  obtain ⟨hfwd, hback⟩ := (h.ring q hq).links hmem
  obtain ⟨hback', hfwd'⟩ := (h.ring q hq).links_back hmem
  have hne := (h.ring q hq).fwd_ne (h.nodup q hq) hn
  refine ⟨hfwd, hback', hback, hfwd', hne, fun heq => hne ?_⟩
  rwa [heq] at hfwd'

theorem Consistent.removeQue (h : Consistent heads fwd back c) (hq : q ∈ heads) (hn : n ∈ c q) :
    Consistent heads (Function.update fwd (back n) (fwd n)) (Function.update back (fwd n) (back n))
      ((Op.removeQue n).apply c) := by
  obtain ⟨hfwd, hback, -⟩ := h.neighbours hq hn
  have hmem : ∀ r x, x ∈ r :: (Op.removeQue n).apply c r → x ∈ r :: c r := by
    intro r x hx
    rcases List.mem_cons.1 hx with heq | hx
    · exact heq ▸ List.mem_cons_self
    · exact List.mem_cons_of_mem _ (List.mem_of_mem_erase hx)
  refine ⟨fun r hr => ?_, fun r hr => ?_, fun r hr h0 => h.null r hr (hmem r 0 h0),
    fun r hr r' hr' x hx hx' => h.disjoint r hr r' hr' x (hmem r x hx) (hmem r' x hx')⟩
  · by_cases hrq : r = q
    · subst hrq
      obtain ⟨front, behind, hsplit⟩ := List.append_of_mem hn
      have hnodup := h.nodup r hr
      have hring := h.ring r hr
      rw [hsplit] at hnodup hring
      have hnfront : n ∉ front := fun hmem =>
        (List.nodup_append.1 (List.nodup_cons.1 hnodup).2).2.2 n hmem n List.mem_cons_self rfl
      simp only [Op.apply, hsplit]
      rw [List.erase_append_right _ hnfront, List.erase_cons_head]
      exact hring.unlink hnodup
    · have hother : ∀ x ∈ r :: c r, x ∉ q :: c q := fun x hx hx' => hrq (h.disjoint r hr q hq x hx hx')
      have hnr : n ∉ c r := fun hmem =>
        hother n (List.mem_cons_of_mem _ hmem) (List.mem_cons_of_mem _ hn)
      simp only [Op.apply]
      rw [List.erase_of_not_mem hnr]
      exact (h.ring r hr).congr
        (fun x hx => Function.update_of_ne (ne_of_mem_of_not_mem hback (hother x hx)).symm ..)
        (fun x hx => Function.update_of_ne (ne_of_mem_of_not_mem hfwd (hother x hx)).symm ..)
  · obtain ⟨hr', hnodup⟩ := List.nodup_cons.1 (h.nodup r hr)
    exact List.nodup_cons.2 ⟨fun hmem => hr' (List.mem_of_mem_erase hmem), hnodup.erase n⟩

/-- A removed node is in no queue. -/
theorem Consistent.notMem_removeQue (h : Consistent heads fwd back c) (hq : q ∈ heads) (hn : n ∈ c q) :
    ∀ r ∈ heads, n ∉ r :: (Op.removeQue n).apply c r := by
  intro r hr hmem
  have hnq : n ∈ q :: c q := List.mem_cons_of_mem _ hn
  rcases List.mem_cons.1 hmem with heq | hmem
  · have hnr : n ∈ r :: c r := heq ▸ List.mem_cons_self
    obtain rfl := h.disjoint r hr q hq n hnr hnq
    rw [heq] at hn
    exact (List.nodup_cons.1 (h.nodup r hr)).1 hn
  · exact (List.nodup_cons.1 (h.nodup r hr)).2.not_mem_erase hmem

end FirebirdCore.Lock.Queues
