import FirebirdCore.Lock.Queues

/-!
# The recovery of the lock table's queues

Between two sessions the queues are either in order or one step of the recovery away from it. A session
that dies leaves one of three states behind: nothing to be done, an insertion to be undone or a removal
to be finished; each store of the recovery keeps the state it finds or brings the queues in order.
-/
namespace FirebirdCore.Lock.Queues
open Ring Run

variable {heads : Set ℕ} {s s' : Shared} {c d : ℕ → List ℕ} {q n k : ℕ} {op : Op} {σ : Session}

/-- The queues are in order and `shb` asks for nothing. -/
structure Settled (heads : Set ℕ) (s : Shared) (c : ℕ → List ℕ) : Prop where
  noRemoval : s.removeNode = 0
  noInsertion : s.insertQue = 0 ∨ s.insertPrior = 0
  queues : Consistent heads s.srqForward s.srqBackward c

/-- An insertion has begun: the queues are in order once the head and its prior are linked again. -/
structure InsertPending (heads : Set ℕ) (s : Shared) (c : ℕ → List ℕ) : Prop where
  noRemoval : s.removeNode = 0
  que : s.insertQue ≠ 0
  prior : s.insertPrior ≠ 0
  queues : Consistent heads (Function.update s.srqForward s.insertPrior s.insertQue)
    (Function.update s.srqBackward s.insertQue s.insertPrior) c

/-- The removal of `n` has begun: the queues are in order once its neighbours are linked, and both
`CHECK`s of `remove_que` still hold. -/
structure RemovePending (heads : Set ℕ) (n : ℕ) (s : Shared) (c : ℕ → List ℕ) : Prop where
  node : s.removeNode = n
  someNode : n ≠ 0
  noInsertion : s.insertQue = 0 ∨ s.insertPrior = 0
  forwardNe : s.srqForward n ≠ n
  backwardNe : s.srqBackward n ≠ n
  checkBackward : s.srqBackward (s.srqForward n) = n ∨
    s.srqBackward (s.srqForward n) = s.srqBackward n
  checkForward : s.srqForward (s.srqBackward n) = n ∨
    s.srqForward (s.srqBackward n) = s.srqForward n
  removed : ∀ r ∈ heads, n ∉ r :: c r
  queues : Consistent heads (Function.update s.srqForward (s.srqBackward n) (s.srqForward n))
    (Function.update s.srqBackward (s.srqForward n) (s.srqBackward n)) c

def Pending (heads : Set ℕ) (s : Shared) (c : ℕ → List ℕ) : Prop :=
  InsertPending heads s c ∨ ∃ n, RemovePending heads n s c

/-! ## The stores of a removal -/

def Shared.linkBackward (s : Shared) (n : ℕ) : Shared :=
  s.setBackward (s.srqForward n) (s.srqBackward n)

def Shared.linkForward (s : Shared) (n : ℕ) : Shared :=
  s.setForward (s.srqBackward n) (s.srqForward n)

theorem RemovePending.linkBackward (h : RemovePending heads n s c) :
    RemovePending heads n (s.linkBackward n) c := by
  have hn : (s.linkBackward n).srqBackward n = s.srqBackward n :=
    Function.update_of_ne h.forwardNe.symm ..
  have hnext : (s.linkBackward n).srqBackward (s.srqForward n) = s.srqBackward n :=
    Function.update_self ..
  refine ⟨h.node, h.someNode, h.noInsertion, h.forwardNe, hn ▸ h.backwardNe, .inr ?_, ?_, h.removed, ?_⟩
  · exact hnext.trans hn.symm
  · rw [hn]
    exact h.checkForward
  · rw [hn]
    simpa only [Shared.linkBackward, Shared.setBackward, Function.update_idem] using h.queues

theorem RemovePending.linkForward (h : RemovePending heads n s c) :
    RemovePending heads n (s.linkForward n) c := by
  have hn : (s.linkForward n).srqForward n = s.srqForward n :=
    Function.update_of_ne h.backwardNe.symm ..
  have hprior : (s.linkForward n).srqForward (s.srqBackward n) = s.srqForward n :=
    Function.update_self ..
  refine ⟨h.node, h.someNode, h.noInsertion, hn ▸ h.forwardNe, h.backwardNe, ?_, .inr ?_, h.removed, ?_⟩
  · rw [hn]
    exact h.checkBackward
  · exact hprior.trans hn.symm
  · rw [hn]
    simpa only [Shared.linkForward, Shared.setForward, Function.update_idem] using h.queues

/-- Both links stored, the queues are in order. -/
theorem RemovePending.linked (h : RemovePending heads n s c) :
    Consistent heads ((s.linkBackward n).linkForward n).srqForward
      ((s.linkBackward n).linkForward n).srqBackward c := by
  have hn : (s.linkBackward n).srqBackward n = s.srqBackward n :=
    Function.update_of_ne h.forwardNe.symm ..
  rw [Shared.linkForward, hn]
  exact h.queues

theorem RemovePending.settled (h : RemovePending heads n s c) :
    Settled heads { (s.linkBackward n).linkForward n with removeNode := 0 } c :=
  ⟨rfl, h.noInsertion, h.linked⟩

theorem Settled.setLinks (h : Settled heads s c) (hn : ∀ r ∈ heads, n ∉ r :: c r) (a b : ℕ) :
    Settled heads { s with
      srqForward := Function.update s.srqForward n a
      srqBackward := Function.update s.srqBackward n b } c :=
  ⟨h.noRemoval, h.noInsertion, h.queues.setLinks hn a b⟩

theorem Settled.setBackward (h : Settled heads s c) (hn : ∀ r ∈ heads, n ∉ r :: c r) (b : ℕ) :
    Settled heads (s.setBackward n b) c := by
  have hlinks := h.setLinks hn (s.srqForward n) b
  rwa [Function.update_eq_self] at hlinks

theorem Settled.setForward (h : Settled heads s c) (hn : ∀ r ∈ heads, n ∉ r :: c r) (a : ℕ) :
    Settled heads (s.setForward n a) c := by
  have hlinks := h.setLinks hn a (s.srqBackward n)
  rwa [Function.update_eq_self] at hlinks

/-- A removal that has noted its node goes on until the word is cleared, wherever it stops. -/
theorem RemovePending.finish (h : RemovePending heads n s c) (k : ℕ) :
    (k ≤ 2 → (perform (removeQue n).tail k s).2 = false ∧
      RemovePending heads n (perform (removeQue n).tail k s).1 c) ∧
    (3 ≤ k → Settled heads (perform (removeQue n).tail k s).1 c) ∧
      (5 ≤ k → (perform (removeQue n).tail k s).2 = true) := by
  have hback := h.linkBackward
  have hforward := hback.linkForward
  have hclear := h.settled
  have hinit := hclear.setBackward h.removed n
  have hdone := hinit.setForward h.removed n
  have first : ∀ stores k, perform (linkNext n :: stores) (k + 1) s =
      perform stores k (s.linkBackward n) := by
    intro stores k
    simp only [perform, linkNext, h.checkBackward, if_true]
    rfl
  have second : ∀ stores k, perform (linkPrior n :: stores) (k + 1) (s.linkBackward n) =
      perform stores k ((s.linkBackward n).linkForward n) := by
    intro stores k
    simp only [perform, linkPrior, hback.checkForward, if_true]
    rfl
  simp only [removeQue, List.tail_cons]
  match k with
  | 0 => exact ⟨fun _ => ⟨rfl, h⟩, fun hk => absurd hk (by omega), fun hk => absurd hk (by omega)⟩
  | 1 =>
    rw [first]
    exact ⟨fun _ => ⟨rfl, hback⟩, fun hk => absurd hk (by omega), fun hk => absurd hk (by omega)⟩
  | 2 =>
    rw [first, second]
    exact ⟨fun _ => ⟨rfl, hforward⟩, fun hk => absurd hk (by omega), fun hk => absurd hk (by omega)⟩
  | 3 =>
    rw [first, second]
    exact ⟨fun hk => absurd hk (by omega), fun _ => hclear, fun hk => absurd hk (by omega)⟩
  | 4 =>
    rw [first, second]
    exact ⟨fun hk => absurd hk (by omega), fun _ => hinit, fun hk => absurd hk (by omega)⟩
  | k + 5 =>
    rw [first, second]
    exact ⟨fun hk => absurd hk (by omega), fun _ => hdone, fun _ => rfl⟩

/-- Once the word is set, a removal is pending. -/
theorem Settled.removePending (h : Settled heads s c) (hq : q ∈ heads) (hn : n ∈ c q) :
    RemovePending heads n { s with removeNode := n } ((Op.removeQue n).apply c) := by
  obtain ⟨-, -, hback, hfwd, hne, hne'⟩ := h.queues.neighbours hq hn
  exact ⟨rfl, h.queues.ne_null hq (List.mem_cons_of_mem _ hn), h.noInsertion, hne, hne', .inl hback,
    .inl hfwd, h.queues.notMem_removeQue hq hn, h.queues.removeQue hq hn⟩

/-! ## The stores of an insertion -/

/-- The recovery of an insertion goes on until the head's word is cleared, wherever it stops. -/
theorem InsertPending.finish (h : InsertPending heads s c) (k : ℕ) :
    (k ≤ 2 → (perform undoInsertion k s).2 = false ∧
      InsertPending heads (perform undoInsertion k s).1 c) ∧
    (3 ≤ k → Settled heads (perform undoInsertion k s).1 c) ∧
      (4 ≤ k → (perform undoInsertion k s).2 = true) := by
  have hqueues := h.queues
  have hback : InsertPending heads (s.setBackward s.insertQue s.insertPrior) c := by
    refine ⟨h.noRemoval, h.que, h.prior, ?_⟩
    simpa only [Shared.setBackward, Function.update_idem] using hqueues
  have hlinks : InsertPending heads
      ((s.setBackward s.insertQue s.insertPrior).setForward s.insertPrior s.insertQue) c := by
    refine ⟨h.noRemoval, h.que, h.prior, ?_⟩
    simpa only [Shared.setForward, Shared.setBackward, Function.update_idem] using hqueues
  match k with
  | 0 => exact ⟨fun _ => ⟨rfl, h⟩, fun hk => absurd hk (by omega), fun hk => absurd hk (by omega)⟩
  | 1 => exact ⟨fun _ => ⟨rfl, hback⟩, fun hk => absurd hk (by omega), fun hk => absurd hk (by omega)⟩
  | 2 => exact ⟨fun _ => ⟨rfl, hlinks⟩, fun hk => absurd hk (by omega), fun hk => absurd hk (by omega)⟩
  | 3 =>
    exact ⟨fun hk => absurd hk (by omega), fun _ => ⟨h.noRemoval, .inl rfl, hqueues⟩,
      fun hk => absurd hk (by omega)⟩
  | k + 4 =>
    exact ⟨fun hk => absurd hk (by omega), fun _ => ⟨h.noRemoval, .inl rfl, hqueues⟩, fun _ => rfl⟩

/-- An insertion from its second store on can be undone up to the sixth and is done from the seventh
on. -/
theorem Settled.performInsertTail (h : Settled heads s c) (hfits : (Op.insertTail q n).Fits heads c)
    (k : ℕ) :
    (k ≤ 4 → (perform (insertTail q n) (k + 2) s).2 = false ∧
      InsertPending heads (perform (insertTail q n) (k + 2) s).1 c) ∧
    (5 ≤ k → Settled heads (perform (insertTail q n) (k + 2) s).1
      ((Op.insertTail q n).apply c)) := by
  obtain ⟨hq, hnull, hn⟩ := hfits
  have hqnull : q ≠ 0 := h.queues.ne_null hq List.mem_cons_self
  have hpnull : s.srqBackward q ≠ 0 := h.queues.ne_null hq (h.queues.ring q hq).back_head_mem
  have hqn : q ≠ n := ne_of_mem_of_not_mem List.mem_cons_self (hn q hq)
  have hrestore := h.queues.restore hq hn
  have hdone := h.queues.insertTail ⟨hq, hnull, hn⟩
  match k with
  | 0 =>
    refine ⟨fun _ => ⟨rfl, h.noRemoval, hqnull, hpnull, ?_⟩, fun hk => absurd hk (by omega)⟩
    have hlinks := hrestore (s.srqForward n) (s.srqBackward n)
    rwa [Function.update_eq_self, Function.update_eq_self] at hlinks
  | 1 =>
    refine ⟨fun _ => ⟨rfl, h.noRemoval, hqnull, hpnull, ?_⟩, fun hk => absurd hk (by omega)⟩
    have hlinks := hrestore q (s.srqBackward n)
    rwa [Function.update_eq_self n s.srqBackward] at hlinks
  | 2 =>
    exact ⟨fun _ => ⟨rfl, h.noRemoval, hqnull, hpnull, hrestore q (s.srqBackward q)⟩,
      fun hk => absurd hk (by omega)⟩
  | 3 =>
    refine ⟨fun _ => ⟨rfl, h.noRemoval, hqnull, hpnull, ?_⟩, fun hk => absurd hk (by omega)⟩
    have hlinks := hrestore q (s.srqBackward q)
    simpa [insertTail, perform, Shared.setForward, Shared.setBackward,
      Function.update_of_ne hqn] using hlinks
  | 4 =>
    refine ⟨fun _ => ⟨rfl, h.noRemoval, hqnull, hpnull, ?_⟩, fun hk => absurd hk (by omega)⟩
    have hlinks := hrestore q (s.srqBackward q)
    simpa [insertTail, perform, Shared.setForward, Shared.setBackward,
      Function.update_of_ne hqn] using hlinks
  | 5 =>
    refine ⟨fun hk => absurd hk (by omega), fun _ => ⟨h.noRemoval, .inl rfl, ?_⟩⟩
    simpa [insertTail, perform, Shared.setForward, Shared.setBackward,
      Function.update_of_ne hqn] using hdone
  | k + 6 =>
    refine ⟨fun hk => absurd hk (by omega), fun _ => ⟨h.noRemoval, .inl rfl, ?_⟩⟩
    simpa [insertTail, perform, Shared.setForward, Shared.setBackward,
      Function.update_of_ne hqn] using hdone

/-! ## Sessions -/

/-- The operation is cut short while `shb` still asks for something. -/
def Op.Unfinished (s : Shared) (k : ℕ) : Op → Prop
  | insertTail _ _ => 1 ≤ k ∧ k ≤ 6 ∧ (k = 1 → s.insertPrior ≠ 0)
  | removeQue _ => 1 ≤ k ∧ k ≤ 3

/-- The recovery is cut short while `shb` still asks for something. -/
def RecoveryUnfinished (s : Shared) (k : ℕ) : Prop :=
  0 < s.activeOwner ∧
    if s.removeNode ≠ 0 then k ≤ 3 else s.insertQue ≠ 0 ∧ s.insertPrior ≠ 0 ∧ k ≤ 2

/-- An insertion that stops after its first store finds no old prior, or the one of its own queue. -/
def Op.PriorFits (s : Shared) (k : ℕ) : Op → Prop
  | insertTail lockSrq _ =>
      k = 1 → s.insertPrior = 0 ∨ s.insertPrior = s.srqBackward lockSrq
  | removeQue _ => True

/-- What holds between two sessions, `c` being what the next owner finds in the queues. -/
def Between (heads : Set ℕ) (s : Shared) (c : ℕ → List ℕ) : Prop :=
  Settled heads s c ∨ 0 < s.activeOwner ∧ Pending heads s c

theorem perform_activeOwner {stores : List Store}
    (h : ∀ store ∈ stores, ∀ s s', store s = some s' → s'.activeOwner = s.activeOwner) (k : ℕ)
    (s : Shared) : (perform stores k s).1.activeOwner = s.activeOwner := by
  induction stores generalizing k s with
  | nil => rfl
  | cons store stores ih =>
    cases k with
    | zero => rfl
    | succ k =>
      cases hstore : store s with
      | none => simp only [perform, hstore]
      | some s' =>
        simp only [perform, hstore]
        rw [ih (fun store hmem => h store (List.mem_cons_of_mem _ hmem)) k s',
          h store List.mem_cons_self s s' hstore]

theorem linkNext_activeOwner (h : linkNext n s = some s') : s'.activeOwner = s.activeOwner := by
  rw [linkNext] at h
  split at h
  · rw [← Option.some.inj h]
    rfl
  · cases h

theorem linkPrior_activeOwner (h : linkPrior n s = some s') : s'.activeOwner = s.activeOwner := by
  rw [linkPrior] at h
  split at h
  · rw [← Option.some.inj h]
    rfl
  · cases h

theorem removeQue_activeOwner (n k : ℕ) (s : Shared) :
    (perform (removeQue n) k s).1.activeOwner = s.activeOwner := by
  refine perform_activeOwner (fun store hmem s s' h => ?_) k s
  simp only [removeQue, List.mem_cons, List.not_mem_nil, or_false] at hmem
  rcases hmem with rfl | rfl | rfl | rfl | rfl | rfl
  · exact (Option.some.inj h) ▸ rfl
  · exact linkNext_activeOwner h
  · exact linkPrior_activeOwner h
  · exact (Option.some.inj h) ▸ rfl
  · exact (Option.some.inj h) ▸ rfl
  · exact (Option.some.inj h) ▸ rfl

theorem op_activeOwner (op : Op) (k : ℕ) (s : Shared) :
    (perform op.stores k s).1.activeOwner = s.activeOwner := by
  cases op with
  | insertTail q n =>
    refine perform_activeOwner (fun store hmem s s' h => ?_) k s
    simp only [Op.stores, insertTail, List.mem_cons, List.not_mem_nil, or_false] at hmem
    rcases hmem with rfl | rfl | rfl | rfl | rfl | rfl | rfl | rfl <;>
      exact (Option.some.inj h) ▸ rfl
  | removeQue n => exact removeQue_activeOwner n k s

theorem recovery_activeOwner (k : ℕ) (s : Shared) :
    (perform (recovery s) k s).1.activeOwner = s.activeOwner := by
  rw [recovery]
  split
  · exact removeQue_activeOwner _ k s
  · split
    · refine perform_activeOwner (fun store hmem s s' h => ?_) k s
      simp only [undoInsertion, List.mem_cons, List.not_mem_nil, or_false] at hmem
      rcases hmem with rfl | rfl | rfl | rfl <;> exact (Option.some.inj h) ▸ rfl
    · rfl

theorem Settled.recovery_eq (h : Settled heads s c) : recovery s = [] := by
  have hno : ¬ (s.insertQue ≠ 0 ∧ s.insertPrior ≠ 0) := fun hboth =>
    h.noInsertion.elim hboth.1 hboth.2
  rw [recovery, if_neg (not_not.2 h.noRemoval), if_neg hno]

/-- A removal, whether begun before or not: nothing stored, still to be finished, or done. -/
theorem RemovePending.finishAll (h : RemovePending heads n { s with removeNode := n } c) (k : ℕ) :
    (k = 0 → perform (removeQue n) k s = (s, false)) ∧
    (1 ≤ k → k ≤ 3 → (perform (removeQue n) k s).2 = false ∧
      RemovePending heads n (perform (removeQue n) k s).1 c) ∧
    (4 ≤ k → Settled heads (perform (removeQue n) k s).1 c) ∧
      (6 ≤ k → (perform (removeQue n) k s).2 = true) := by
  cases k with
  | zero =>
    exact ⟨fun _ => rfl, fun hk => absurd hk (by omega), fun hk => absurd hk (by omega),
      fun hk => absurd hk (by omega)⟩
  | succ k =>
    obtain ⟨hpending, hsettled, hdone⟩ := h.finish k
    exact ⟨fun hk => absurd hk (by omega), fun _ hk => hpending (by omega),
      fun hk => hsettled (by omega), fun hk => hdone (by omega)⟩

/-- The next owner finds the queues in order or, if it dies itself, leaves the recovery to be done. -/
theorem Between.acquire (h : Between heads s c) (owner : ℤ) (k : ℕ) :
    (acquireShmem owner k s).1.activeOwner = owner ∧
    ((acquireShmem owner k s).2 = true → Settled heads (acquireShmem owner k s).1 c) ∧
    (Settled heads (acquireShmem owner k s).1 c ∨
      RecoveryUnfinished s k ∧ Pending heads (acquireShmem owner k s).1 c) ∧
      (6 ≤ k → (acquireShmem owner k s).2 = true) := by
  refine ⟨?_, ?_⟩
  · unfold acquireShmem
    dsimp only
    split
    · exact recovery_activeOwner k _
    · rfl
  rcases h with hsettled | ⟨hactive, hpending⟩
  · have hafter : Settled heads { s with activeOwner := owner } c :=
      ⟨hsettled.noRemoval, hsettled.noInsertion, hsettled.queues⟩
    have hacquire : acquireShmem owner k s = ({ s with activeOwner := owner }, true) := by
      unfold acquireShmem
      dsimp only
      split
      · rw [hafter.recovery_eq, perform]
      · rfl
    rw [hacquire]
    exact ⟨fun _ => hafter, .inl hafter, fun _ => rfl⟩
  · have hacquire : acquireShmem owner k s =
        perform (recovery s) k { s with activeOwner := owner } := if_pos hactive
    rw [hacquire]
    rcases hpending with hinsert | ⟨n, hremove⟩
    · have hrecovery : recovery s = undoInsertion := by
        rw [recovery, if_neg (not_not.2 hinsert.noRemoval), if_pos ⟨hinsert.que, hinsert.prior⟩]
      have hafter : InsertPending heads { s with activeOwner := owner } c :=
        ⟨hinsert.noRemoval, hinsert.que, hinsert.prior, hinsert.queues⟩
      obtain ⟨hpending, hsettled, hdone⟩ := hafter.finish k
      rw [hrecovery]
      rcases Nat.lt_or_ge k 3 with hk | hk
      · obtain ⟨hfalse, hstill⟩ := hpending (by omega)
        refine ⟨fun htrue => absurd htrue (by simp [hfalse]), .inr ⟨⟨hactive, ?_⟩, .inl hstill⟩,
          fun hk => absurd hk (by omega)⟩
        rw [if_neg (not_not.2 hinsert.noRemoval)]
        exact ⟨hinsert.que, hinsert.prior, by omega⟩
      · exact ⟨fun _ => hsettled hk, .inl (hsettled hk), fun hk => hdone (by omega)⟩
    · have hnode : s.removeNode ≠ 0 := hremove.node ▸ hremove.someNode
      have hrecovery : recovery s = removeQue n := by
        rw [recovery, if_pos hnode, hremove.node]
      have hafter : RemovePending heads n { s with activeOwner := owner, removeNode := n } c :=
        ⟨rfl, hremove.someNode, hremove.noInsertion, hremove.forwardNe, hremove.backwardNe,
          hremove.checkBackward, hremove.checkForward, hremove.removed, hremove.queues⟩
      have hbefore : RemovePending heads n { s with activeOwner := owner } c :=
        { hafter with node := hremove.node }
      obtain ⟨hnone, hpending, hsettled, hdone⟩ :=
        RemovePending.finishAll (s := { s with activeOwner := owner }) hafter k
      rw [hrecovery]
      rcases Nat.lt_or_ge k 4 with hk | hk
      · have hcut : (perform (removeQue n) k { s with activeOwner := owner }).2 = false ∧
            RemovePending heads n (perform (removeQue n) k { s with activeOwner := owner }).1 c := by
          rcases Nat.eq_zero_or_pos k with hzero | hpos
          · rw [hnone hzero]
            exact ⟨rfl, hbefore⟩
          · exact hpending hpos (by omega)
        refine ⟨fun htrue => absurd htrue (by simp [hcut.1]),
          .inr ⟨⟨hactive, ?_⟩, .inr ⟨n, hcut.2⟩⟩, fun hk => absurd hk (by omega)⟩
        rw [if_pos hnode]
        omega
      · exact ⟨fun _ => hsettled hk, .inl (hsettled hk), fun hk => hdone (by omega)⟩

/-- An operation leaves the queues as they were, or as they are to be, or one recovery away from
either. -/
theorem Settled.performOp (h : Settled heads s c) (hfits : op.Fits heads c)
    (hprior : op.PriorFits s k) :
    ∃ d, (d = c ∨ d = op.apply c) ∧
      ((perform op.stores k s).2 = true →
        d = op.apply c ∧ Settled heads (perform op.stores k s).1 d) ∧
      (Settled heads (perform op.stores k s).1 d ∨
        op.Unfinished s k ∧ Pending heads (perform op.stores k s).1 d) := by
  cases op with
  | insertTail q n =>
    match k with
    | 0 => exact ⟨c, .inl rfl, fun htrue => absurd htrue (by simp [Op.stores, insertTail, perform]),
        .inl h⟩
    | 1 =>
      refine ⟨c, .inl rfl, fun htrue => absurd htrue (by simp [Op.stores, insertTail, perform]), ?_⟩
      by_cases hnone : s.insertPrior = 0
      · exact .inl ⟨h.noRemoval, .inr hnone, h.queues⟩
      · have hp : s.insertPrior = s.srqBackward q := (hprior rfl).resolve_left hnone
        have hring := h.queues.ring q hfits.1
        refine .inr ⟨⟨le_rfl, by omega, fun _ => hnone⟩, .inl ⟨h.noRemoval,
          h.queues.ne_null hfits.1 List.mem_cons_self, hnone, ?_⟩⟩
        have hrestore := h.queues.restore hfits.1 hfits.2.2 (s.srqForward n) (s.srqBackward n)
        rw [Function.update_eq_self, Function.update_eq_self, ← hp] at hrestore
        exact hrestore
    | k + 2 =>
      obtain ⟨hpending, hdone⟩ := h.performInsertTail hfits k
      rcases Nat.lt_or_ge k 5 with hk | hk
      · obtain ⟨hfalse, hinsert⟩ := hpending (by omega)
        refine ⟨c, .inl rfl, fun htrue => ?_, .inr ⟨⟨by omega, by omega, by omega⟩, .inl hinsert⟩⟩
        rw [Op.stores, hfalse] at htrue
        cases htrue
      · exact ⟨_, .inr rfl, fun _ => ⟨rfl, hdone hk⟩, .inl (hdone hk)⟩
  | removeQue n =>
    obtain ⟨q, hq, hn⟩ := hfits
    obtain ⟨hnone, hpending, hsettled, -⟩ := (h.removePending hq hn).finishAll k
    rcases Nat.eq_zero_or_pos k with rfl | hpos
    · rw [Op.stores, hnone rfl]
      exact ⟨c, .inl rfl, fun htrue => absurd htrue (by simp), .inl h⟩
    · rcases Nat.lt_or_ge k 4 with hk | hk
      · obtain ⟨hfalse, hremove⟩ := hpending hpos (by omega)
        refine ⟨_, .inr rfl, fun htrue => ?_, .inr ⟨⟨hpos, by omega⟩, .inr ⟨n, hremove⟩⟩⟩
        rw [Op.stores, hfalse] at htrue
        cases htrue
      · exact ⟨_, .inr rfl, fun _ => ⟨rfl, hsettled hk⟩, .inl (hsettled hk)⟩

/-! ## Runs of sessions -/

/-- The session makes its operation and releases the shared memory. -/
def Session.Completed (σ : Session) (s : Shared) : Prop :=
  (σ.acquire s).2 = true ∧
    (perform σ.op.stores σ.opStores { (σ.acquire s).1 with activeOwner := σ.owner }).2 = true

/-- The members of the queues after the session: the operation is made fully or not at all, and fully if
the session completes. -/
structure Session.Outcome (σ : Session) (s : Shared) (c d : ℕ → List ℕ) : Prop where
  died : (σ.acquire s).2 = false → d = c
  either : d = c ∨ d = σ.op.apply c
  completed : σ.Completed s → d = σ.op.apply c

/-- Whoever acquires the shared memory next finds well-formed queues with the members `c`, and so on
after each session, with the members its operation leaves. -/
def Survives (heads : Set ℕ) : Shared → (ℕ → List ℕ) → List Session → Prop
  | s, c, [] => ∀ owner, Consistent heads (reacquired owner s).srqForward
      (reacquired owner s).srqBackward c
  | s, c, σ :: sessions => (∀ owner, Consistent heads (reacquired owner s).srqForward
      (reacquired owner s).srqBackward c) ∧
        ∃ d, σ.Outcome s c d ∧ Survives heads (step s σ) d sessions

/-- The operation is one on well-formed queues as they are when it begins. -/
def Proper (heads : Set ℕ) (s : Shared) (σ : Session) : Prop :=
  (σ.acquire s).2 = true → ∀ c, Consistent heads (σ.acquire s).1.srqForward
    (σ.acquire s).1.srqBackward c → σ.op.Fits heads c

/-- Who dies in the middle of a recovery or an operation is known to the next process as the active
owner, and who dies after the first store of an insertion has found a prior that fits. -/
structure Safe (s : Shared) (σ : Session) : Prop where
  acquirer : RecoveryUnfinished s σ.recoveryStores → 0 < σ.acquirer
  owner : (σ.acquire s).2 = true → σ.op.Unfinished (σ.acquire s).1 σ.opStores → 0 < σ.owner
  prior : (σ.acquire s).2 = true → σ.op.PriorFits (σ.acquire s).1 σ.opStores

theorem Between.reacquired (h : Between heads s c) (owner : ℤ) :
    Consistent heads (reacquired owner s).srqForward (reacquired owner s).srqBackward c := by
  obtain ⟨-, hsettled, -, hdone⟩ := h.acquire owner 6
  exact (hsettled (hdone le_rfl)).queues

theorem Between.step (h : Between heads s c) (hproper : Proper heads s σ) (hsafe : Safe s σ) :
    ∃ d, σ.Outcome s c d ∧ Between heads (step s σ) d := by
  obtain ⟨howner, hacquired, hdied, -⟩ := h.acquire σ.acquirer σ.recoveryStores
  change (σ.acquire s).1.activeOwner = σ.acquirer at howner
  change (σ.acquire s).2 = true → Settled heads (σ.acquire s).1 c at hacquired
  change Settled heads (σ.acquire s).1 c ∨ RecoveryUnfinished s σ.recoveryStores ∧
    Pending heads (σ.acquire s).1 c at hdied
  cases hok : (σ.acquire s).2 with
  | false =>
    have hstep : Queues.step s σ = (σ.acquire s).1 := by
      rw [Queues.step, ← Prod.eta (σ.acquire s), hok]
    refine ⟨c, ⟨fun _ => rfl, .inl rfl, fun hcompleted => absurd hcompleted.1 (by simp [hok])⟩, ?_⟩
    rw [hstep]
    rcases hdied with hsettled | ⟨hunfinished, hpending⟩
    · exact .inl hsettled
    · exact .inr ⟨howner ▸ hsafe.acquirer hunfinished, hpending⟩
  | true =>
    have hsettled := hacquired hok
    have hfits := hproper hok c hsettled.queues
    have hbegun : Settled heads { (σ.acquire s).1 with activeOwner := σ.owner } c :=
      ⟨hsettled.noRemoval, hsettled.noInsertion, hsettled.queues⟩
    have hprior : σ.op.PriorFits { (σ.acquire s).1 with activeOwner := σ.owner } σ.opStores := by
      have hprior := hsafe.prior hok
      cases hop : σ.op <;> rw [hop] at hprior <;> exact hprior
    obtain ⟨d, heither, hcompleted, hcut⟩ := hbegun.performOp hfits hprior
    have hactive := op_activeOwner σ.op σ.opStores { (σ.acquire s).1 with activeOwner := σ.owner }
    refine ⟨d, ⟨fun hfalse => absurd hok (by simp [hfalse]), heither,
      fun hdone => (hcompleted hdone.2).1⟩, ?_⟩
    rw [Queues.step, ← Prod.eta (σ.acquire s), hok]
    dsimp only
    generalize hresult : perform σ.op.stores σ.opStores { (σ.acquire s).1 with activeOwner := σ.owner }
      = result at *
    obtain ⟨t, done⟩ := result
    cases done with
    | true =>
      obtain ⟨-, hqueues⟩ := hcompleted rfl
      exact .inl ⟨hqueues.noRemoval, hqueues.noInsertion, hqueues.queues⟩
    | false =>
      rcases hcut with hqueues | ⟨hunfinished, hpending⟩
      · exact .inl hqueues
      · refine .inr ⟨?_, hpending⟩
        have howner' : 0 < σ.owner := by
          refine hsafe.owner hok ?_
          cases hop : σ.op <;> rw [hop] at hunfinished <;> exact hunfinished
        dsimp only at hactive ⊢
        rw [hactive]
        exact howner'

/-- Every run of safe sessions survives the deaths of its processes. -/
theorem queues_survive (sessions : List Session) (h : Settled heads s c)
    (hproper : AlongRun step (Proper heads) s sessions) (hsafe : AlongRun step Safe s sessions) :
    Survives heads s c sessions := by
  have survive : ∀ (sessions : List Session) (s : Shared) (c : ℕ → List ℕ), Between heads s c →
      AlongRun step (Proper heads) s sessions → AlongRun step Safe s sessions →
        Survives heads s c sessions := by
    intro sessions
    induction sessions with
    | nil => exact fun s c h _ _ => h.reacquired
    | cons σ sessions ih =>
      intro s c h hproper hsafe
      obtain ⟨d, houtcome, hstep⟩ := h.step hproper.1 hsafe.1
      exact ⟨h.reacquired, d, houtcome, ih _ d hstep hproper.2 hsafe.2⟩
  exact survive sessions s c (.inl h) hproper hsafe

/-! ## A run that dies twice -/

theorem Op.Fits.congr (h : op.Fits heads c) (hcd : ∀ q ∈ heads, c q = d q) : op.Fits heads d := by
  cases op with
  | insertTail q n => exact ⟨h.1, h.2.1, fun r hr => hcd r hr ▸ h.2.2 r hr⟩
  | removeQue n =>
    obtain ⟨q, hq, hn⟩ := h
    exact ⟨q, hq, hcd q hq ▸ hn⟩

/-- The queues at the beginning of an operation have one list of members each. -/
theorem Proper.of (h : Consistent heads (σ.acquire s).1.srqForward (σ.acquire s).1.srqBackward c)
    (hfits : σ.op.Fits heads c) : Proper heads s σ :=
  fun _ _ hd => hfits.congr fun _ hq => h.unique hd hq

instance (q : ℕ) (xs : List ℕ) : Decidable (IsRing fwd back q xs) := by
  unfold IsRing Follows
  infer_instance

theorem consistent_iff (qs : List ℕ) : Consistent {q | q ∈ qs} fwd back c ↔
    (∀ q ∈ qs, IsRing fwd back q (c q)) ∧ (∀ q ∈ qs, (q :: c q).Nodup) ∧ (∀ q ∈ qs, 0 ∉ q :: c q) ∧
      ∀ q ∈ qs, ∀ r ∈ qs, ∀ n ∈ q :: c q, n ∈ r :: c r → q = r :=
  ⟨fun h => ⟨h.ring, h.nodup, h.null, h.disjoint⟩, fun h => ⟨h.1, h.2.1, h.2.2.1, h.2.2.2⟩⟩

instance (qs : List ℕ) : Decidable (Consistent {q | q ∈ qs} fwd back c) :=
  decidable_of_iff _ (consistent_iff qs).symm

instance (qs : List ℕ) : (op : Op) → Decidable (op.Fits {q | q ∈ qs} c)
  | .insertTail lockSrq node =>
      inferInstanceAs (Decidable (lockSrq ∈ qs ∧ node ≠ 0 ∧ ∀ q ∈ qs, node ∉ q :: c q))
  | .removeQue node => inferInstanceAs (Decidable (∃ q ∈ qs, node ∈ c q))

/-- The queue 1 holds the node 10, the queue 2 the node 20. -/
def twoQueues : Shared where
  srqForward := fun | 1 => 10 | 10 => 1 | 2 => 20 | 20 => 2 | _ => 0
  srqBackward := fun | 1 => 10 | 10 => 1 | 2 => 20 | 20 => 2 | _ => 0
  insertQue := 0
  insertPrior := 0
  removeNode := 0
  activeOwner := 0

def twoMembers : ℕ → List ℕ := fun | 1 => [10] | 2 => [20] | _ => []

/-- 11 goes into the queue 1 by a process that dies before it clears `shb_insert_prior`. -/
def lateDeath : Session := ⟨5, 0, 5, .insertTail 1 11, 7⟩

/-- 21 goes into the queue 2 by one that dies after it has set `shb_insert_que`. -/
def earlyDeath : Session := ⟨6, 0, 6, .insertTail 2 21, 1⟩

theorem settled_twoQueues : Settled {q | q ∈ [1, 2]} twoQueues twoMembers :=
  ⟨rfl, .inl rfl, by decide⟩

theorem proper_lateDeath : Proper {q | q ∈ [1, 2]} twoQueues lateDeath :=
  Proper.of (c := twoMembers) (by decide) (by decide)

theorem proper_earlyDeath : Proper {q | q ∈ [1, 2]} (step twoQueues lateDeath) earlyDeath :=
  Proper.of (c := fun | 1 => [10, 11] | 2 => [20] | _ => []) (by decide)
    (by decide)

/-- The recovery then links the head of the queue 2 with a node of the queue 1. -/
theorem stale_prior_breaks : ¬ ∀ (heads : Set ℕ) (s : Shared) (c : ℕ → List ℕ)
    (sessions : List Session), Settled heads s c → s.insertPrior = 0 →
      AlongRun step (Proper heads) s sessions →
        (∀ σ ∈ sessions, 0 < σ.acquirer ∧ 0 < σ.owner) → Survives heads s c sessions := by
  intro h
  have hrun := h {q | q ∈ [1, 2]} twoQueues twoMembers [lateDeath, earlyDeath] settled_twoQueues rfl
    ⟨proper_lateDeath, proper_earlyDeath, trivial⟩ (by decide)
  obtain ⟨-, c, -, -, d, -, hlast⟩ := hrun
  have hring := (hlast 7).ring 2 (by decide)
  have hnext := hring.links List.mem_cons_self
  exact absurd (hring.links hnext.1).2 (by decide)

theorem queues_survive_twice : Survives {q | q ∈ [1, 2]} twoQueues twoMembers
    [⟨5, 0, 5, .insertTail 1 11, 5⟩, ⟨-1, 4, 6, .removeQue 20, 2⟩] := by
  refine queues_survive _ settled_twoQueues ⟨?_, ?_, trivial⟩ ⟨?_, ?_, trivial⟩
  · exact Proper.of (c := twoMembers) (by decide) (by decide)
  · exact Proper.of (c := twoMembers) (by decide) (by decide)
  · exact ⟨fun _ => by decide, fun _ _ => by decide, fun _ h => absurd h (by decide)⟩
  · exact ⟨fun h => absurd h.2 (by decide), fun _ _ => by decide, fun _ => trivial⟩

end FirebirdCore.Lock.Queues
