import FirebirdCore.Lock.Soundness

/-!
# No grant is missed

A request that waits is granted as soon as it is the first of the lock that waits and what the others
hold lets it be: whatever changes what is held ends with `post_pending`. The one gap is a request that
was rejected for a deadlock while its owner sleeps: until the owner has cleaned up, those behind it wait
on.
-/
namespace FirebirdCore.Lock
open FirebirdCore.Tally

namespace Table

/-- What the other requests hold lets this one be granted. -/
def Grantable (t : Table) (res : Resource) (r : ℕ) : Prop :=
  ∀ x ∈ (t.lbl res).requests, x ≠ r → compatibility (t.lrq r).requested (t.lrq x).state

instance (t : Table) (res : Resource) (r : ℕ) : Decidable (t.Grantable res r) :=
  inferInstanceAs (Decidable (∀ x ∈ _, _))

def firstPending (t : Table) (res : Resource) : Option ℕ :=
  (t.lbl res).requests.find? fun r => (t.lrq r).pending

/-- The first request that waits cannot be granted. -/
def NoMissed (t : Table) (res : Resource) : Prop :=
  ∀ r ∈ t.firstPending res, ¬ t.Grantable res r

/-- The owner of the request is still in `wait_for_request`, or has not yet cleaned up after it. -/
def Waiting (t : Table) (r : ℕ) : Prop :=
  (t.lrq r).pending ∨ (t.lrq r).rejected ∧ (t.lrq r).requested ≠ (t.lrq r).state

instance (t : Table) (r : ℕ) : Decidable (t.Waiting r) := inferInstanceAs (Decidable (_ ∨ _))

/-- A request of the lock has been rejected, and its owner has not cleaned up. -/
def Unattended (t : Table) (res : Resource) : Prop :=
  ∃ r ∈ (t.lbl res).requests, (t.lrq r).pending = false ∧ t.Waiting r

/-- On every lock the first request that waits cannot be granted, unless one waits for its cleaning. -/
def Attended (t : Table) : Prop := ∀ res, t.Unattended res ∨ t.NoMissed res

/-- The two tables agree about a lock and its requests. -/
structure SameOn (t t' : Table) (res : Resource) : Prop where
  requests : (t'.lbl res).requests = (t.lbl res).requests
  lrq : ∀ x ∈ (t.lbl res).requests, t'.lrq x = t.lrq x

section
variable {t t' : Table} {res : Resource} {r x : ℕ}

theorem SameOn.refl (t : Table) (res : Resource) : SameOn t t res := ⟨rfl, fun _ _ => rfl⟩

theorem SameOn.trans {t'' : Table} (h : SameOn t t' res) (h' : SameOn t' t'' res) :
    SameOn t t'' res :=
  ⟨h'.requests.trans h.requests,
    fun x hx => (h'.lrq x (h.requests ▸ hx)).trans (h.lrq x hx)⟩

theorem find?_congr {p p' : ℕ → Bool} {l : List ℕ} (h : ∀ x ∈ l, p x = p' x) :
    l.find? p = l.find? p' := by
  induction l with
  | nil => rfl
  | cons y l ih =>
    rw [List.find?_cons, List.find?_cons, h y List.mem_cons_self,
      ih fun x hx => h x (List.mem_cons_of_mem _ hx)]

theorem SameOn.attended (hsame : SameOn t t' res) (h : t.Unattended res ∨ t.NoMissed res) :
    t'.Unattended res ∨ t'.NoMissed res := by
  have hfind : t'.firstPending res = t.firstPending res := by
    rw [firstPending, firstPending, hsame.requests]
    exact find?_congr fun x hx => by rw [hsame.lrq x hx]
  rcases h with ⟨u, hu, hpending, hwaiting⟩ | h
  · refine .inl ⟨u, hsame.requests ▸ hu, ?_, ?_⟩
    · rw [hsame.lrq u hu, hpending]
    · rw [Waiting, hsame.lrq u hu]
      exact hwaiting
  · refine .inr fun f hf hgrantable => ?_
    rw [hfind] at hf
    have hmem : f ∈ (t.lbl res).requests := List.mem_of_find?_eq_some hf
    refine h f hf fun x hx hne => ?_
    have hcompat := hgrantable x (hsame.requests ▸ hx) hne
    rwa [hsame.lrq f hmem, hsame.lrq x hx] at hcompat

/-! ## Posting -/

theorem exists_incompatible {lock : Lbl} {lrq : ℕ → Lrq} (h : lock.Steady lrq)
    (hcounted : lock.CountedBut lrq r) {requested : Level}
    (hnot : ¬ compatibility requested (lockState lock.counts)) :
    ∃ x ∈ lock.requests, x ≠ r ∧ ¬ compatibility requested (lrq x).state := by
  have hheld : lockState lock.counts ≠ .none := by
    intro hnone
    rw [hnone] at hnot
    exact hnot (compatibility_none requested)
  have hcount := lockState_ne_zero hheld
  rw [hcounted _ hheld, Ne, ofNat_eq_zero (h.others_lt hheld)] at hcount
  obtain ⟨y, hy, hstate⟩ := List.countP_pos_iff.1 (Nat.pos_of_ne_zero hcount)
  simp only [decide_eq_true_eq] at hstate
  exact ⟨y, hy, hstate.1, hstate.2 ▸ hnot⟩

/-- A request that holds nothing and does not go with the state of the lock cannot be granted. -/
theorem not_grantable (h : t.Inv) (hr : (t.lrq r).live) (hnone : (t.lrq r).state = .none)
    (hnot : ¬ compatibility (t.lrq r).requested (t.lbl (t.lrq r).lock).state) :
    ¬ t.Grantable (t.lrq r).lock r := by
  intro hgrantable
  have hok := h.locks _ (h.linked.lock_live hr)
  rw [hok.stateEq] at hnot
  obtain ⟨x, hx, hne, hincompatible⟩ := exists_incompatible hok.toSteady
    (hok.countedBut_of_none (h.linked.onLock r hr) (h.linked.lockNodup _) hnone) hnot
  exact hincompatible (hgrantable x hx hne)

/-- A conversion that does not go with what the others hold cannot be granted. -/
theorem not_grantable_conversion (h : t.Inv) (hr : (t.lrq r).live)
    (hnot : ¬ compatibility (t.lrq r).requested
      (lockState ((t.lbl (t.lrq r).lock).decr (t.lrq r).state).counts)) :
    ¬ t.Grantable (t.lrq r).lock r := by
  intro hgrantable
  have hok := h.locks _ (h.linked.lock_live hr)
  have hsteady : ((t.lbl (t.lrq r).lock).decr (t.lrq r).state).Steady t.lrq :=
    hok.toSteady.congr .rfl rfl (fun _ _ => rfl) (fun _ _ => rfl) (fun _ _ => rfl)
  obtain ⟨x, hx, hne, hincompatible⟩ := exists_incompatible hsteady
    (hok.countedBut (h.linked.onLock r hr) (h.linked.lockNodup _)) hnot
  exact hincompatible (hgrantable x hx hne)

theorem grant_requests (t : Table) (r : ℕ) (res : Resource) :
    ((t.grant r).lbl res).requests = (t.lbl res).requests := by
  obtain ⟨data, hlbl⟩ := grant_lbl t r
  rw [hlbl]
  by_cases hres : res = (t.lrq r).lock
  · rw [hres, Function.update_self]
    rfl
  · rw [Function.update_of_ne hres]

theorem decr_requests (t : Table) (res' : Resource) (s : Level) (res : Resource) :
    ((t.onLbl res' (·.decr s)).lbl res).requests = (t.lbl res).requests := by
  rw [onLbl_lbl]
  by_cases hres : res = res'
  · rw [hres, Function.update_self]
    rfl
  · rw [Function.update_of_ne hres]

theorem grant_lrq_of_ne (hx : x ≠ r) : (t.grant r).lrq x = t.lrq x := by
  rw [grant_lrq, Function.update_of_ne hx]

theorem grant_lrq_self (t : Table) (r : ℕ) : (t.grant r).lrq r = (t.lrq r).granted := by
  rw [grant_lrq, Function.update_self]

/-- What the loop does not change: the requests of other locks, and the queues. -/
theorem postPendingLoop_frame (rs : List ℕ) (t : Table) :
    (∀ x, x ∉ rs → (t.postPendingLoop rs).lrq x = t.lrq x) ∧
      (∀ res, ((t.postPendingLoop rs).lbl res).requests = (t.lbl res).requests) ∧
        ∀ x, (t.lrq x).pending = false → (t.postPendingLoop rs).lrq x = t.lrq x := by
  induction rs generalizing t with
  | nil => exact ⟨fun _ _ => rfl, fun _ => rfl, fun _ _ => rfl⟩
  | cons r rs ih =>
    rw [postPendingLoop]
    by_cases hpending : (t.lrq r).pending
    · have hne : ∀ x, (t.lrq x).pending = false → x ≠ r := by
        rintro x hx rfl
        rw [hpending] at hx
        cases hx
      simp only [hpending, Bool.not_true, Bool.false_eq_true, if_false]
      -- whichever table the loop goes on with, only `r` differs in it
      have hgo : ∀ v : Table, (∀ x, x ≠ r → v.lrq x = t.lrq x) →
          (∀ res, (v.lbl res).requests = (t.lbl res).requests) →
          (∀ x, x ∉ r :: rs → (v.postPendingLoop rs).lrq x = t.lrq x) ∧
            (∀ res, ((v.postPendingLoop rs).lbl res).requests = (t.lbl res).requests) ∧
              ∀ x, (t.lrq x).pending = false → (v.postPendingLoop rs).lrq x = t.lrq x := by
        intro v hlrq hrequests
        obtain ⟨hout, hqueues, hstill⟩ := ih v
        refine ⟨fun x hx => ?_, fun res => (hqueues res).trans (hrequests res), fun x hx => ?_⟩
        · rw [List.mem_cons, not_or] at hx
          rw [hout x hx.2, hlrq x hx.1]
        · rw [hstill x (by rw [hlrq x (hne x hx), hx]), hlrq x (hne x hx)]
      split_ifs
      · refine hgo _ (fun x hx => ?_) fun res => ?_
        · rw [grant_lrq_of_ne hx, onLbl_lrq]
        · rw [grant_requests, decr_requests]
      · rw [onLbl_decr_incr]
        exact ⟨fun _ _ => rfl, fun _ => rfl, fun _ _ => rfl⟩
      · exact hgo _ (fun x hx => grant_lrq_of_ne hx) fun res => grant_requests t r res
      · exact ⟨fun _ _ => rfl, fun _ => rfl, fun _ _ => rfl⟩
    · simp only [hpending, Bool.not_false, if_true]
      obtain ⟨hout, hqueues, hstill⟩ := ih t
      exact ⟨fun x hx => hout x fun hmem => hx (List.mem_cons_of_mem _ hmem), hqueues, hstill⟩

/-- The loop ends at the first request that cannot be granted. -/
theorem postPendingLoop_noMissed (h : t.Inv) (front : List ℕ) {rs : List ℕ}
    (hrequests : (t.lbl res).requests = front ++ rs)
    (hfront : ∀ x ∈ front, (t.lrq x).pending = false) :
    (t.postPendingLoop rs).NoMissed res := by
  induction rs generalizing t front with
  | nil =>
    intro f hf
    have hmem := List.mem_of_find?_eq_some hf
    have hpending := List.find?_some hf
    rw [postPendingLoop, hrequests, List.append_nil] at hmem
    rw [postPendingLoop, hfront f hmem] at hpending
    cases hpending
  | cons r rs ih =>
    have hmem : r ∈ (t.lbl res).requests := hrequests ▸ List.mem_append_right _ List.mem_cons_self
    obtain ⟨hr, rfl⟩ := h.linked.lockOf res r hmem
    -- the loop goes on behind `r`, which does not wait any more
    have hgo : ∀ v : Table, v.Inv → (v.lbl (t.lrq r).lock).requests = (t.lbl (t.lrq r).lock).requests →
        (∀ x, x ≠ r → v.lrq x = t.lrq x) → (v.lrq r).pending = false →
          (v.postPendingLoop rs).NoMissed (t.lrq r).lock := by
      intro v hv hvrequests hvlrq hvr
      refine ih hv (front ++ [r]) ?_ fun x hx => ?_
      · rw [hvrequests, hrequests, List.append_assoc, List.singleton_append]
      · by_cases hxr : x = r
        · rw [hxr, hvr]
        · rw [hvlrq x hxr]
          exact hfront x ((List.mem_append.1 hx).resolve_right fun hx' => hxr (List.mem_singleton.1 hx'))
    -- the loop ends at `r`
    have hstop : (t.lrq r).pending = true → ¬ t.Grantable (t.lrq r).lock r →
        t.NoMissed (t.lrq r).lock := by
      intro hpending hnot f hf
      have hfind : t.firstPending (t.lrq r).lock = some r := by
        rw [firstPending, hrequests, List.find?_append, List.find?_cons, hpending]
        have hnone : front.find? (fun x => (t.lrq x).pending) = none :=
          List.find?_eq_none.2 fun x hx => by rw [hfront x hx]; exact Bool.false_ne_true
        rw [hnone]
        rfl
      rw [hfind] at hf
      exact Option.some.inj hf ▸ hnot
    rw [postPendingLoop]
    by_cases hpending : (t.lrq r).pending
    · simp only [hpending, Bool.not_true, Bool.false_eq_true, if_false]
      by_cases hstate : (t.lrq r).state ≠ .none
      · rw [if_pos hstate]
        by_cases hcompat : compatibility (t.lrq r).requested
            (lockState ((t.onLbl (t.lrq r).lock (·.decr (t.lrq r).state)).lbl (t.lrq r).lock).counts)
        · rw [if_pos hcompat]
          rw [onLbl_lbl, Function.update_self] at hcompat
          refine hgo _ (grant_lowered_inv h hr hcompat) ?_ (fun x hx => ?_) ?_
          · rw [grant_requests, decr_requests]
          · rw [grant_lrq_of_ne hx, onLbl_lrq]
          · rw [grant_lrq_self]
            rfl
        · rw [if_neg hcompat, onLbl_decr_incr]
          rw [onLbl_lbl, Function.update_self] at hcompat
          exact hstop hpending (not_grantable_conversion h hr hcompat)
      · rw [if_neg hstate]
        have hnone : (t.lrq r).state = .none := not_not.1 hstate
        by_cases hcompat : compatibility (t.lrq r).requested (t.lbl (t.lrq r).lock).state
        · rw [if_pos hcompat]
          have hok := h.locks _ (h.linked.lock_live hr)
          have hcompat' := hcompat
          rw [hok.stateEq] at hcompat'
          refine hgo _ (grant_inv h.linked h.pendingLinked hr (fun res _ => h.locks res) hok.toSteady
            (hok.countedBut_of_none (h.linked.onLock r hr) (h.linked.lockNodup _) hnone) hcompat')
            (grant_requests ..) (fun x hx => grant_lrq_of_ne hx) ?_
          rw [grant_lrq_self]
          rfl
        · rw [if_neg hcompat]
          exact hstop hpending (not_grantable h hr hnone hcompat)
    · simp only [hpending, Bool.not_false, if_true]
      exact hgo t h rfl (fun _ _ => rfl) (Bool.eq_false_of_not_eq_true hpending)

theorem postPending_noMissed (h : t.Inv) (res : Resource) : (t.postPending res).NoMissed res := by
  rw [postPending]
  split_ifs with hcount
  · intro f hf
    have hmem : f ∈ (t.lbl res).requests := List.mem_of_find?_eq_some hf
    have hlive := (h.linked.lockLive res).2 (List.ne_nil_of_mem hmem)
    have hok := h.locks res hlive
    rw [hok.pendingCount, ofNat_eq_zero hok.pendingFits, Lbl.pendingRequests,
      List.countP_eq_zero] at hcount
    exact absurd (List.find?_some hf) (by simpa using hcount f hmem)
  · exact postPendingLoop_noMissed h [] rfl (by simp)

theorem postPending_frame (h : t.Inv) (res' : Resource) :
    (∀ x, (t.lrq x).lock ≠ res' → (t.postPending res').lrq x = t.lrq x) ∧
      (∀ res, ((t.postPending res').lbl res).requests = (t.lbl res).requests) ∧
        ∀ x, (t.lrq x).pending = false → (t.postPending res').lrq x = t.lrq x := by
  rw [postPending]
  split_ifs
  · exact ⟨fun _ _ => rfl, fun _ => rfl, fun _ _ => rfl⟩
  · obtain ⟨hout, hqueues, hstill⟩ := postPendingLoop_frame (t.lbl res').requests t
    exact ⟨fun x hx => hout x fun hmem => hx (h.linked.lockOf res' x hmem).2, hqueues, hstill⟩

theorem postPending_sameOn (h : t.Inv) {res' : Resource} (hres : res ≠ res') :
    SameOn t (t.postPending res') res := by
  obtain ⟨hout, hqueues, -⟩ := postPending_frame h res'
  refine ⟨hqueues res, fun x hx => hout x ?_⟩
  rw [(h.linked.lockOf res x hx).2]
  exact hres

/-! ## Waiting and releasing -/

theorem find?_erase {p : ℕ → Bool} {l : List ℕ} (h : p r = false) : (l.erase r).find? p = l.find? p := by
  induction l with
  | nil => rfl
  | cons y l ih =>
    by_cases hy : y = r
    · subst hy
      rw [List.erase_cons_head, List.find?_cons_of_neg (by simp [h])]
    · rw [List.erase_cons_tail (by simpa using hy), List.find?_cons, List.find?_cons, ih]

/-- Another lock that is as it was is still attended, and so is this one if it is now. -/
theorem Attended.of_sameOn (h : t.Attended) (res' : Resource)
    (hsame : ∀ res, res ≠ res' → SameOn t t' res) (hres : t'.Unattended res' ∨ t'.NoMissed res') :
    t'.Attended := by
  intro res
  by_cases heq : res = res'
  · exact heq ▸ hres
  · exact (hsame res heq).attended (h res)

theorem releaseRequest_attended (h : t.Inv) (hr : (t.lrq r).live) (hattended : t.Attended) :
    (t.releaseRequest r).Attended := by
  obtain ⟨v, hinv, hlrq, -, hother, -, hrelease⟩ := releaseRequest_eq h hr
  rw [hrelease]
  refine hattended.of_sameOn _ (fun res hres => ?_) (.inr (postPending_noMissed hinv _))
  refine SameOn.trans ⟨by rw [hother res hres], fun x hx => ?_⟩ (postPending_sameOn hinv hres)
  have hne : x ≠ r := fun heq => hres (heq ▸ (h.linked.lockOf res x hx).2).symm
  rw [hlrq, unlinkRequest_lrq, Function.update_of_ne hne]

/-- The tables differ in what the request `r`, which did not wait, asks for and whether it waits. -/
structure BeginsToWait (t t' : Table) (r : ℕ) : Prop where
  other : ∀ x, x ≠ r → t'.lrq x = t.lrq x
  lock : (t'.lrq r).lock = (t.lrq r).lock
  state : (t'.lrq r).state = (t.lrq r).state
  pending : (t'.lrq r).pending = true
  sameLbl : ∀ res, res ≠ (t.lrq r).lock → t'.lbl res = t.lbl res
  requests : (t'.lbl (t.lrq r).lock).requests = (t.lbl (t.lrq r).lock).requests ∨
    (t'.lbl (t.lrq r).lock).requests = (t.lbl (t.lrq r).lock).requests.erase r ++ [r]

theorem BeginsToWait.mem_iff (h : BeginsToWait t t' r)
    (hr : r ∈ (t.lbl (t.lrq r).lock).requests) :
    x ∈ (t'.lbl (t.lrq r).lock).requests ↔ x ∈ (t.lbl (t.lrq r).lock).requests := by
  rcases h.requests with heq | heq
  · rw [heq]
  · rw [heq]
    exact ((List.perm_append_singleton _ _).trans (List.perm_cons_erase hr).symm).mem_iff

theorem BeginsToWait.attended (h : BeginsToWait t t' r) (hinv : t.Inv) (hr : (t.lrq r).live)
    (hwaiting : ¬ t.Waiting r) (hattended : t.Attended)
    (hnot : t'.firstPending (t.lrq r).lock = some r → ¬ t'.Grantable (t.lrq r).lock r) :
    t'.Attended := by
  have hmem := hinv.linked.onLock r hr
  have hnotPending : (t.lrq r).pending = false :=
    Bool.eq_false_of_not_eq_true fun hpending => hwaiting (.inl hpending)
  refine hattended.of_sameOn (t.lrq r).lock (fun res hres => ?_) ?_
  · refine ⟨by rw [h.sameLbl res hres], fun x hx => h.other x ?_⟩
    exact fun heq => hres (heq ▸ (hinv.linked.lockOf res x hx).2).symm
  rcases hattended (t.lrq r).lock with ⟨u, hu, hpending, huwaiting⟩ | hmissed
  · have hne : u ≠ r := fun heq => hwaiting (heq ▸ huwaiting)
    refine .inl ⟨u, (h.mem_iff hmem).2 hu, ?_, ?_⟩
    · rw [h.other u hne, hpending]
    · rw [Waiting, h.other u hne]
      exact huwaiting
  · refine .inr fun f hf => ?_
    by_cases hfr : f = r
    · exact hfr ▸ hnot (hfr ▸ hf)
    · -- another request that waits was the first already
      have hfind : t.firstPending (t.lrq r).lock = some f := by
        have hcongr : ∀ x ∈ (t.lbl (t.lrq r).lock).requests.erase r,
            (t'.lrq x).pending = (t.lrq x).pending := by
          intro x hx
          rw [h.other x ((hinv.linked.lockNodup _).mem_erase_iff.1 hx).1]
        have herase : ((t.lbl (t.lrq r).lock).requests.erase r).find?
            (fun x => (t'.lrq x).pending) = t.firstPending (t.lrq r).lock := by
          rw [find?_congr hcongr, find?_erase hnotPending, firstPending]
        rcases h.requests with heq | heq
        · rw [Option.mem_def, firstPending, heq] at hf
          -- behind the first that waits, or not at all, `r` makes no difference
          have hsplit := List.append_of_mem hmem
          obtain ⟨front, back, hsplit⟩ := hsplit
          have hnodup := hinv.linked.lockNodup (t.lrq r).lock
          rw [hsplit] at hf hnodup
          have hfront : front.find? (fun x => (t'.lrq x).pending) = some f := by
            rw [List.find?_append, List.find?_cons, h.pending] at hf
            cases hcase : front.find? (fun x => (t'.lrq x).pending) with
            | none =>
              rw [hcase] at hf
              exact absurd (Option.some.inj hf).symm hfr
            | some y =>
              rw [hcase] at hf
              exact hf
          have hr' : r ∉ front := fun hmem' =>
            (List.nodup_append.1 hnodup).2.2 r hmem' r List.mem_cons_self rfl
          have hcongr' : ∀ x ∈ front, (t'.lrq x).pending = (t.lrq x).pending := fun x hx => by
            rw [h.other x (ne_of_mem_of_not_mem hx hr')]
          rw [firstPending, hsplit, List.find?_append, ← find?_congr hcongr', hfront]
          rfl
        · rw [Option.mem_def, firstPending, heq, List.find?_append, herase] at hf
          cases hcase : t.firstPending (t.lrq r).lock with
          | none =>
            rw [hcase, List.find?_cons, h.pending] at hf
            exact absurd (Option.some.inj hf).symm hfr
          | some y =>
            rw [hcase] at hf
            exact hf
      intro hgrantable
      refine hmissed f hfind fun x hx hne => ?_
      have hcompat := hgrantable x ((h.mem_iff hmem).2 hx) hne
      rw [h.other f hfr] at hcompat
      by_cases hxr : x = r
      · rw [hxr, h.state] at hcompat
        exact hxr ▸ hcompat
      · rwa [h.other x hxr] at hcompat

theorem waitForRequest_begins (t : Table) (r : ℕ) : BeginsToWait t (t.waitForRequest r) r := by
  refine ⟨fun x hx => ?_, ?_, ?_, ?_, fun res hres => ?_, ?_⟩
  · simp [waitForRequest, Function.update_of_ne hx]
  · simp [waitForRequest]
  · simp [waitForRequest]
  · simp [waitForRequest]
  · simp [waitForRequest, Function.update_of_ne hres]
  · by_cases hnone : (t.lrq r).state = .none
    · exact .inr (by simp [waitForRequest, hnone])
    · exact .inl (by simp [waitForRequest, hnone])

/-! ## What the clients call -/

/-- Changing what a request asks for that does not wait. -/
theorem NoMissed.onLrq (h : t.NoMissed res) (f : Lrq → Lrq) (hstate : (f (t.lrq r)).state = (t.lrq r).state)
    (hpending : (t.lrq r).pending = false) (hpending' : (f (t.lrq r)).pending = false) :
    (t.onLrq r f).NoMissed res := by
  have hfind : (t.onLrq r f).firstPending res = t.firstPending res := by
    refine find?_congr fun x _ => ?_
    rw [onLrq_lrq]
    by_cases hx : x = r
    · rw [hx, Function.update_self, hpending, hpending']
    · rw [Function.update_of_ne hx]
  intro g hg hgrantable
  rw [hfind] at hg
  have hgr : g ≠ r := by
    rintro rfl
    rw [List.find?_some hg] at hpending
    cases hpending
  refine h g hg fun x hx hne => ?_
  have hcompat := hgrantable x hx hne
  rw [onLrq_lrq, Function.update_of_ne hgr] at hcompat
  by_cases hxr : x = r
  · rw [hxr, Function.update_self, hstate] at hcompat
    exact hxr ▸ hcompat
  · rwa [Function.update_of_ne hxr] at hcompat

theorem onLrq_sameOn (h : t.Inv) (f : Lrq → Lrq) (hres : res ≠ (t.lrq r).lock) :
    SameOn t (t.onLrq r f) res := by
  refine ⟨rfl, fun x hx => ?_⟩
  rw [onLrq_lrq, Function.update_of_ne fun heq => ?_]
  exact hres (heq ▸ (h.linked.lockOf res x hx).2).symm

theorem Attended.onLrq (h : t.Attended) (hinv : t.Inv) (hwaiting : ¬ t.Waiting r) (f : Lrq → Lrq)
    (hstate : (f (t.lrq r)).state = (t.lrq r).state) (hpending' : (f (t.lrq r)).pending = false) :
    (t.onLrq r f).Attended := by
  have hpending : (t.lrq r).pending = false :=
    Bool.eq_false_of_not_eq_true fun hpending => hwaiting (.inl hpending)
  refine h.of_sameOn (t.lrq r).lock (fun res hres => onLrq_sameOn hinv f hres) ?_
  rcases h (t.lrq r).lock with ⟨u, hu, hupending, huwaiting⟩ | hmissed
  · have hne : u ≠ r := fun heq => hwaiting (heq ▸ huwaiting)
    have hsame : (t.onLrq r f).lrq u = t.lrq u := by
      rw [onLrq_lrq, Function.update_of_ne hne]
    refine .inl ⟨u, hu, ?_, ?_⟩
    · rw [hsame, hupending]
    · rw [Waiting, hsame]
      exact huwaiting
  · exact .inr (hmissed.onLrq f hstate hpending hpending')

theorem grant_sameOn (h : t.Linked) (hres : res ≠ (t.lrq r).lock) : SameOn t (t.grant r) res := by
  refine ⟨grant_requests t r res, fun x hx => grant_lrq_of_ne fun heq => ?_⟩
  exact hres (heq ▸ (h.lockOf res x hx).2).symm

/-- A request that has been granted, and what could be granted with it. -/
theorem postGranted_attended (h : t.Inv) (hgranted : (t'.grant r).Inv) (hattended : t.Attended)
    (hsame : ∀ res, res ≠ (t.lrq r).lock → SameOn t t' res) :
    ((t'.grant r).postPending (t.lrq r).lock).Attended := by
  refine hattended.of_sameOn _ (fun res hres => ?_) (.inr (postPending_noMissed hgranted _))
  have hgrant : SameOn t' (t'.grant r) res := by
    refine ⟨grant_requests t' r res, fun x hx => grant_lrq_of_ne fun heq => ?_⟩
    rw [(hsame res hres).requests] at hx
    exact hres (heq ▸ (h.linked.lockOf res x hx).2).symm
  exact ((hsame res hres).trans hgrant).trans (postPending_sameOn hgranted hres)

theorem internalConvert_attended (h : t.Inv) (hr : (t.lrq r).live) (hwaiting : ¬ t.Waiting r)
    {type : Level} {wait : Bool} (hroom : (t.lbl (t.lrq r).lock).Room t.lrq type)
    (hattended : t.Attended) (ht' : t.internalConvert r type wait = some t') : t'.Attended := by
  have hasked := request_inv h hr hroom
  rw [internalConvert] at ht'
  generalize hu : t.onLrq r ({ · with requested := type }) = u at hasked ht'
  have hself : u.lrq r = { t.lrq r with requested := type } := by
    rw [← hu, onLrq_lrq, Function.update_self]
  have hother : ∀ x, x ≠ r → u.lrq x = t.lrq x := by
    intro x hx
    rw [← hu, onLrq_lrq, Function.update_of_ne hx]
  have hlbl : u.lbl = t.lbl := hu ▸ rfl
  have hlive : (u.lrq r).live := by
    rw [hself]
    exact hr
  have hlock : (u.lrq r).lock = (t.lrq r).lock := by rw [hself]
  have hsameU : ∀ res, res ≠ (t.lrq r).lock → SameOn t u res := by
    intro res hres
    rw [← hu]
    exact onLrq_sameOn h _ hres
  dsimp only at ht'
  split_ifs at ht' with hcompat hwait hpending
  · rw [← Option.some.inj ht']
    rw [onLbl_lbl, Function.update_self] at hcompat
    have hgranted := grant_lowered_inv hasked hlive (by rw [hself] at hcompat ⊢; exact hcompat)
    rw [hlock] at hgranted ⊢
    refine postGranted_attended h hgranted hattended fun res hres => ?_
    refine (hsameU res hres).trans ⟨decr_requests .., fun x _ => by rw [onLbl_lrq]⟩
  · rw [← Option.some.inj ht', onLbl_decr_incr]
    have hwaits := waitForRequest_begins u r
    have hbegins : BeginsToWait t (u.waitForRequest r) r := by
      refine ⟨fun x hx => (hwaits.other x hx).trans (hother x hx), hwaits.lock.trans hlock,
        hwaits.state.trans (by rw [hself]), hwaits.pending, fun res hres => ?_, ?_⟩
      · rw [hwaits.sameLbl res (by rwa [hlock]), hlbl]
      · have hrequests := hwaits.requests
        rwa [hlock, hlbl] at hrequests
    refine hbegins.attended h hr hwaiting hattended fun _ hgrantable => ?_
    rw [onLbl_lbl, Function.update_self] at hcompat
    refine not_grantable_conversion hasked hlive (by rw [hself] at hcompat ⊢; exact hcompat) ?_
    rw [hlock]
    intro x hx hne
    rw [hlbl] at hx
    have hcompat' := hgrantable x ((hbegins.mem_iff (h.linked.onLock r hr)).2 hx) hne
    have hrequested : ((u.waitForRequest r).lrq r).requested = (u.lrq r).requested := by
      simp [waitForRequest]
    rwa [hwaits.other x hne, hrequested] at hcompat'
  · have htwice : u.onLrq r ({ · with requested := (u.lrq r).state }) =
        t.onLrq r ({ · with requested := (t.lrq r).state }) := by
      rw [hself, ← hu]
      simp [Table.onLrq]
    rw [← Option.some.inj ht', onLbl_decr_incr, htwice]
    refine hattended.onLrq h hwaiting _ rfl ?_
    exact Bool.eq_false_of_not_eq_true fun hpending => hwaiting (.inl hpending)

theorem grantOrQue_attended (h : t.Inv) (hr : (t.lrq r).live) (hstate : (t.lrq r).state = .none)
    (hwaiting : ¬ t.Waiting r) (wait : Bool) (hattended : t.Attended) :
    (t.grantOrQue r wait).Attended := by
  have hok := h.locks _ (h.linked.lock_live hr)
  have hmem := h.linked.onLock r hr
  have hnotPending : (t.lrq r).pending = false :=
    Bool.eq_false_of_not_eq_true fun hpending => hwaiting (.inl hpending)
  rw [grantOrQue]
  split_ifs with hcompat hwait
  · have hcompat := hcompat.1
    rw [hok.stateEq] at hcompat
    have hgranted := grant_inv h.linked h.pendingLinked hr (fun res _ => h.locks res) hok.toSteady
      (hok.countedBut_of_none hmem (h.linked.lockNodup _) hstate) hcompat
    exact postGranted_attended h hgranted hattended fun res _ => .refl t res
  · have hbegins := waitForRequest_begins t r
    refine hbegins.attended h hr hwaiting hattended fun hfirst hgrantable => ?_
    by_cases hstateOk : compatibility (t.lrq r).requested (t.lbl (t.lrq r).lock).state
    · -- somebody else waits already, in front of `r`
      have hcount : (t.lbl (t.lrq r).lock).pendingLrqCount ≠ 0 :=
        fun hzero => hcompat ⟨hstateOk, .inr hzero⟩
      rw [hok.pendingCount, Ne, ofNat_eq_zero hok.pendingFits] at hcount
      obtain ⟨y, hy, hypending⟩ := List.countP_pos_iff.1 (Nat.pos_of_ne_zero hcount)
      simp only [decide_eq_true_eq] at hypending
      have hne : y ≠ r := by
        rintro rfl
        rw [hypending] at hnotPending
        cases hnotPending
      have hrequests : ((t.waitForRequest r).lbl (t.lrq r).lock).requests =
          (t.lbl (t.lrq r).lock).requests.erase r ++ [r] := by
        simp [waitForRequest, hstate]
      rw [firstPending, hrequests, List.find?_append] at hfirst
      have hmemErase : y ∈ (t.lbl (t.lrq r).lock).requests.erase r := (List.mem_erase_of_ne hne).2 hy
      cases hfind : ((t.lbl (t.lrq r).lock).requests.erase r).find?
          fun x => ((t.waitForRequest r).lrq x).pending with
      | none =>
        have hnone := List.find?_eq_none.1 hfind y hmemErase
        rw [hbegins.other y hne] at hnone
        exact hnone hypending
      | some z =>
        rw [hfind] at hfirst
        obtain rfl : z = r := Option.some.inj hfirst
        exact (h.linked.lockNodup _).not_mem_erase (List.mem_of_find?_eq_some hfind)
    · refine not_grantable h hr hstate hstateOk fun x hx hne => ?_
      have hcompat' := hgrantable x ((hbegins.mem_iff hmem).2 hx) hne
      rw [hbegins.other x hne] at hcompat'
      have hrequested : ((t.waitForRequest r).lrq r).requested = (t.lrq r).requested := by
        simp [waitForRequest]
      rwa [hrequested] at hcompat'
  · exact releaseRequest_attended h hr hattended

/-- A new request at the end of the queue changes nothing for those that wait. -/
theorem queued_attended (h : t.Inv) (hfree : (t.lrq r).live = false) (o : ℕ) (type : Level) (data : ℤ)
    (hattended : t.Attended) : (t.queued r o res type data).Attended := by
  have hother : ∀ x, x ≠ r → (t.queued r o res type data).lrq x = t.lrq x := by
    intro x hx
    rw [queued_lrq, Function.update_of_ne hx]
  have hne : ∀ y, ∀ x ∈ (t.lbl y).requests, x ≠ r :=
    fun y x hx heq => h.linked.free_notMem hfree y (heq ▸ hx)
  have hrequests : ((t.queued r o res type data).lbl res).requests =
      (t.lbl res).requests ++ [r] := by
    rw [queued_lbl, Function.update_self]
  refine hattended.of_sameOn res (fun y hy => ⟨?_, fun x hx => hother x (hne y x hx)⟩) ?_
  · rw [queued_lbl, Function.update_of_ne hy]
  rcases hattended res with ⟨u, hu, hpending, hwaiting⟩ | hmissed
  · refine .inl ⟨u, hrequests ▸ List.mem_append_left _ hu, ?_, ?_⟩
    · rw [hother u (hne res u hu), hpending]
    · rw [Waiting, hother u (hne res u hu)]
      exact hwaiting
  · refine .inr fun f hf hgrantable => ?_
    have hnew : ((t.queued r o res type data).lrq r).pending = false := by
      rw [queued_lrq, Function.update_self]
    have hfind : t.firstPending res = some f := by
      rw [Option.mem_def, firstPending, hrequests, List.find?_append,
        find?_congr fun x hx => by rw [hother x (hne res x hx)], List.find?_cons_of_neg (by simp [hnew]),
        List.find?_nil, Option.or_none] at hf
      exact hf
    have hfmem : f ∈ (t.lbl res).requests := List.mem_of_find?_eq_some hfind
    refine hmissed f hfind fun x hx hxf => ?_
    have hcompat := hgrantable x (hrequests ▸ List.mem_append_left _ hx) hxf
    rwa [hother f (hne res f hfmem), hother x (hne res x hx)] at hcompat

theorem enqueue_attended (h : t.Inv) {o : ℕ} {type : Level} {data : ℤ} {wait : Bool}
    (ho : (t.own o).live) (hfree : (t.lrq r).live = false) (hroom : (t.lbl res).Room t.lrq type)
    (hattended : t.Attended) : (t.enqueue r o res type data wait).Attended := by
  rw [enqueue]
  split_ifs with hlive
  · have hself : (t.queued r o res type data).lrq r =
        ⟨true, type, .none, false, false, o, res, data⟩ := by
      rw [queued_lrq, Function.update_self]
    refine grantOrQue_attended (queued_inv h data ho hfree hlive hroom) (by rw [hself]) (by rw [hself])
      ?_ wait (queued_attended h hfree o type data hattended)
    rw [Waiting, hself]
    simp
  · have hempty : (t.lbl res).requests = [] := by
      by_contra hne
      exact hlive ((h.linked.lockLive res).2 hne)
    generalize hqueued : ((t.newRequest r o res type 0).newLock res type data).onLbl res
      (fun lock => { lock with requests := lock.requests ++ [r] }) = queued
    have hlrq : queued.lrq = Function.update t.lrq r
        ⟨true, type, .none, false, false, o, res, 0⟩ := by
      rw [← hqueued, onLbl_lrq, newLock, insertDataQue_lrq]
      rfl
    have hlbl : queued.lbl = Function.update t.lbl res ⟨true, type, [r], data, 0, fun _ => 0⟩ := by
      rw [← hqueued, onLbl_lbl, newLock, insertDataQue_lbl, onLbl_lbl, Function.update_self,
        Function.update_idem]
      rfl
    refine hattended.of_sameOn res (fun y hy => ⟨?_, fun x hx => ?_⟩) (.inr fun f hf => ?_)
    · rw [grant_requests, hlbl, Function.update_of_ne hy]
    · have hne : x ≠ r := fun heq => h.linked.free_notMem hfree y (heq ▸ hx)
      rw [grant_lrq_of_ne hne, hlrq, Function.update_of_ne hne]
    · have hmem := List.mem_of_find?_eq_some hf
      rw [grant_requests, hlbl, Function.update_self, List.mem_singleton] at hmem
      have hpending := List.find?_some hf
      rw [hmem, grant_lrq_self] at hpending
      cases hpending

/-- If the first request that waits is rejected, the lock waits for its owner. -/
theorem rejectRequest_attended (h : t.Inv) (hr : (t.lrq r).live) (hpending : (t.lrq r).pending)
    (hattended : t.Attended) : (t.rejectRequest r).Attended := by
  have hok := h.locks _ (h.linked.lock_live hr)
  have hmem := h.linked.onLock r hr
  generalize hu : t.rejectRequest r = u
  have hlrq : u.lrq = Function.update t.lrq r { t.lrq r with
      rejected := true
      pending := false } := by
    rw [← hu]
    simp [rejectRequest, clearPending]
  have hrequests : ∀ res, (u.lbl res).requests = (t.lbl res).requests := by
    intro res
    rw [← hu]
    by_cases hres : res = (t.lrq r).lock
    · subst hres
      simp [rejectRequest, clearPending]
    · simp [rejectRequest, clearPending, Function.update_of_ne hres]
  have hself : u.lrq r = { t.lrq r with
      rejected := true
      pending := false } := by
    rw [hlrq, Function.update_self]
  have hother : ∀ x, x ≠ r → u.lrq x = t.lrq x := by
    intro x hx
    rw [hlrq, Function.update_of_ne hx]
  have hlevels : ∀ x, (u.lrq x).state = (t.lrq x).state ∧ (u.lrq x).requested = (t.lrq x).requested := by
    intro x
    by_cases hx : x = r
    · rw [hx, hself]
      exact ⟨rfl, rfl⟩
    · rw [hother x hx]
      exact ⟨rfl, rfl⟩
  refine hattended.of_sameOn (t.lrq r).lock (fun res hres => ⟨hrequests res, fun x hx => ?_⟩)
    ?_
  · exact hother x fun heq => hres (heq ▸ (h.linked.lockOf res x hx).2).symm
  rcases hattended (t.lrq r).lock with ⟨v, hv, hvpending, hvwaiting⟩ | hmissed
  · have hne : v ≠ r := by
      rintro rfl
      rw [hpending] at hvpending
      cases hvpending
    refine .inl ⟨v, (hrequests _).symm ▸ hv, ?_, ?_⟩
    · rw [hother v hne, hvpending]
    · rw [Waiting, hother v hne]
      exact hvwaiting
  by_cases hfirst : t.firstPending (t.lrq r).lock = some r
  · -- it asked for something else than what it holds
    refine .inl ⟨r, (hrequests _).symm ▸ hmem, by rw [hself], .inr ⟨by rw [hself], ?_⟩⟩
    rw [hself]
    intro heq
    refine hmissed r hfirst fun x hx hne => ?_
    have hrequested : (t.lrq r).requested = (t.lrq r).state := heq
    rw [hrequested]
    exact hok.compatible r hmem x hx hne.symm
  · refine .inr fun f hf hgrantable => ?_
    have hfr : f ≠ r := by
      rintro rfl
      have hstill := List.find?_some hf
      rw [hself] at hstill
      cases hstill
    have hfind : t.firstPending (t.lrq r).lock = some f := by
      rw [Option.mem_def, firstPending, hrequests, List.find?_eq_some_iff_append] at hf
      obtain ⟨hfpending, front, back, hsplit, hfront⟩ := hf
      rw [hother f hfr] at hfpending
      -- `r` is not in front of `f`, as it would be the first that waits
      have hr' : r ∉ front := by
        intro hrfront
        obtain ⟨p, s, rfl⟩ := List.append_of_mem hrfront
        refine hfirst (List.find?_eq_some_iff_append.2 ⟨hpending, p, s ++ f :: back, by simp [hsplit], ?_⟩)
        intro x hx
        have hnodup := h.linked.lockNodup (t.lrq r).lock
        rw [hsplit, List.append_assoc, List.nodup_append] at hnodup
        have hxr : x ≠ r := hnodup.2.2 x hx r List.mem_cons_self
        rw [← hother x hxr]
        exact hfront x (List.mem_append_left _ hx)
      refine List.find?_eq_some_iff_append.2 ⟨hfpending, front, back, hsplit, fun x hx => ?_⟩
      rw [← hother x (ne_of_mem_of_not_mem hx hr')]
      exact hfront x hx
    refine hmissed f hfind fun x hx hne => ?_
    have hcompat := hgrantable x ((hrequests _).symm ▸ hx) hne
    rwa [(hlevels f).2, (hlevels x).1] at hcompat

theorem rejectedConvert_attended (h : t.Inv) (hnot : (t.lrq r).pending = false)
    (hattended : t.Attended) : (t.rejectedConvert r).Attended := by
  have hpost := postPending_inv h (t.lrq r).lock
  have hsame := postPending_sameQueues t (t.lrq r).lock
  obtain ⟨-, -, hstill⟩ := postPending_frame h (t.lrq r).lock
  have hself := hstill r hnot
  have hpending : ((t.postPending (t.lrq r).lock).lrq r).pending = false := by rw [hself, hnot]
  refine hattended.of_sameOn (t.lrq r).lock (fun res hres => ?_)
    (.inr ((postPending_noMissed h _).onLrq _ rfl hpending hpending))
  refine (postPending_sameOn h hres).trans (onLrq_sameOn hpost _ ?_)
  rwa [hsame.lock]

theorem setData_attended (hattended : t.Attended) (res' : Resource) (data : ℤ) :
    (t.setData res' data).Attended := by
  intro res
  refine SameOn.attended (t := t) ⟨?_, fun x _ => by rw [setData_lrq]⟩ (hattended res)
  rw [setData_lbl]
  by_cases hres : res = res'
  · rw [hres, Function.update_self]
  · rw [Function.update_of_ne hres]

theorem purgeRequests_attended (h : t.Inv) {o fuel : ℕ} (hattended : t.Attended) :
    (purgeRequests o fuel t).Attended := by
  induction fuel generalizing t with
  | zero => exact hattended
  | succ fuel ih =>
    rw [purgeRequests]
    cases hrequests : (t.own o).requests with
    | nil => exact hattended
    | cons r rest =>
      have hr : (t.lrq r).live := (h.linked.ownerOf o r (hrequests ▸ List.mem_cons_self)).1
      exact ih (releaseRequest_inv h hr).1 (releaseRequest_attended h hr hattended)

end

end Table

/-! ## Nobody is overtaken -/

namespace Table

section
variable {t t' : Table} {res : Resource} {q r x : ℕ}

/-- The request `q` waits on the lock, and `r` stands behind it with nothing granted. -/
structure Behind (t : Table) (res : Resource) (q r : ℕ) : Prop where
  lock : (t.lrq r).lock = res
  state : (t.lrq r).state = .none
  requested : (t.lrq r).requested ≠ .none
  waiting : t.Waiting r
  order : [q, r].Sublist (t.lbl res).requests

/-- The lock still holds what it held of the two. -/
theorem Behind.congr (h : Behind t res q r) (hlrq : t'.lrq r = t.lrq r)
    (horder : [q, r].Sublist (t'.lbl res).requests) : Behind t' res q r :=
  ⟨by rw [hlrq, h.lock], by rw [hlrq, h.state], by rw [hlrq]; exact h.requested,
    by rw [Waiting, hlrq]; exact h.waiting, horder⟩

theorem sublist_erase {l : List ℕ} (h : [q, r].Sublist l) (hq : x ≠ q) (hr : x ≠ r) :
    [q, r].Sublist (l.erase x) := by
  have herase := h.erase x
  rwa [List.erase_of_not_mem (by simp [hq, hr])] at herase

theorem mem_of_sublist {l : List ℕ} (h : [q, r].Sublist l) : q ∈ l ∧ r ∈ l :=
  ⟨h.subset (by simp), h.subset (by simp)⟩

/-- The loop does not pass a request that waits on. -/
theorem postPendingLoop_behind (rs : List ℕ) (hnodup : rs.Nodup) (horder : [q, r].Sublist rs)
    (hq : ((t.postPendingLoop rs).lrq q).pending) : (t.postPendingLoop rs).lrq r = t.lrq r := by
  induction rs generalizing t with
  | nil => cases horder
  | cons y rs ih =>
    obtain ⟨hy, hrs⟩ := List.nodup_cons.1 hnodup
    have hstill := (postPendingLoop_frame rs (t.grant y)).2.2
    -- behind `y` the two follow, unless `y` is the one that waits
    have htail : y ≠ q → [q, r].Sublist rs := fun hne =>
      List.Sublist.of_cons_of_ne hne.symm horder
    have hne : y ≠ q → r ≠ y := fun hyq heq => hy (heq ▸ (mem_of_sublist (htail hyq)).2)
    rw [postPendingLoop] at hq ⊢
    by_cases hpending : (t.lrq y).pending
    · simp only [hpending, Bool.not_true, Bool.false_eq_true, if_false] at hq ⊢
      have hgo : ∀ v : Table, (∀ x, x ≠ y → v.lrq x = t.lrq x) → (v.lrq y).pending = false →
          ((v.postPendingLoop rs).lrq q).pending → (v.postPendingLoop rs).lrq r = t.lrq r := by
        intro v hlrq hvy hvq
        have hyq : y ≠ q := by
          rintro rfl
          rw [(postPendingLoop_frame rs v).2.2 y hvy, hvy] at hvq
          cases hvq
        rw [ih hrs (htail hyq) hvq, hlrq r (hne hyq)]
      split_ifs at hq ⊢ with hstate hcompat hcompat'
      · exact hgo _ (fun x hx => by rw [grant_lrq_of_ne hx, onLbl_lrq])
          (by rw [grant_lrq_self]; rfl) hq
      · rw [onLbl_decr_incr]
      · exact hgo _ (fun x hx => grant_lrq_of_ne hx) (by rw [grant_lrq_self]; rfl) hq
      · rfl
    · simp only [hpending, Bool.not_false, if_true] at hq ⊢
      have hyq : y ≠ q := by
        rintro rfl
        rw [(postPendingLoop_frame rs t).2.2 y (Bool.eq_false_of_not_eq_true hpending)] at hq
        exact hpending hq
      exact ih hrs (htail hyq) hq

theorem postPending_behind (h : t.Inv) (hbehind : Behind t res q r) {res' : Resource}
    (hq : ((t.postPending res').lrq q).pending) : Behind (t.postPending res') res q r := by
  obtain ⟨hout, hqueues, -⟩ := postPending_frame h res'
  refine hbehind.congr ?_ (by rw [hqueues]; exact hbehind.order)
  by_cases hres : res = res'
  · subst hres
    rw [postPending] at hq ⊢
    split_ifs at hq ⊢
    · rfl
    · exact postPendingLoop_behind _ (h.linked.lockNodup res) hbehind.order hq
  · exact hout r (by rw [hbehind.lock]; exact hres)

/-- Nothing begins to wait when the pending ones are posted. -/
theorem pending_of_postPending (h : t.Inv) {res' : Resource}
    (hq : ((t.postPending res').lrq q).pending) : (t.lrq q).pending := by
  by_contra hnot
  rw [(postPending_frame h res').2.2 q (Bool.eq_false_of_not_eq_true hnot)] at hq
  exact hnot hq

theorem releaseRequest_pending (h : t.Inv) (hx : (t.lrq x).live)
    (hq : ((t.releaseRequest x).lrq q).pending) : (t.lrq q).pending ∧ q ≠ x := by
  obtain ⟨v, hinv, hlrq, -, -, -, hrelease⟩ := releaseRequest_eq h hx
  rw [hrelease] at hq
  have hv := pending_of_postPending hinv hq
  rw [hlrq, unlinkRequest_lrq] at hv
  by_cases hne : q = x
  · rw [hne, Function.update_self] at hv
    cases hv
  · rw [Function.update_of_ne hne] at hv
    exact ⟨hv, hne⟩

/-- A release leaves the two as they stand, or takes the later one away. -/
theorem releaseRequest_behind (h : t.Inv) (hx : (t.lrq x).live)
    (hbehind : (t.lrq r).live → Behind t res q r)
    (hq : ((t.releaseRequest x).lrq q).pending) :
    ((t.releaseRequest x).lrq r).live → Behind (t.releaseRequest x) res q r := by
  obtain ⟨-, hqx⟩ := releaseRequest_pending h hx hq
  obtain ⟨v, hinv, hlrq, -, hother, hrequests, hrelease⟩ := releaseRequest_eq h hx
  rw [hrelease] at hq ⊢
  intro hlive
  rw [(postPending_sameQueues _ (t.lrq x).lock).live, hlrq, unlinkRequest_lrq] at hlive
  have hrx : r ≠ x := by
    rintro rfl
    rw [Function.update_self] at hlive
    cases hlive
  rw [Function.update_of_ne hrx] at hlive
  have hbehind := hbehind hlive
  refine postPending_behind hinv (hbehind.congr ?_ ?_) hq
  · rw [hlrq, unlinkRequest_lrq, Function.update_of_ne hrx]
  · by_cases hres : res = (t.lrq x).lock
    · rw [hres, hrequests, ← hres]
      exact sublist_erase hbehind.order hqx.symm hrx.symm
    · rw [hother res hres]
      exact hbehind.order

theorem BeginsToWait.behind (h : BeginsToWait t t' x) (hbehind : Behind t res q r) (hq : x ≠ q)
    (hr : x ≠ r) : Behind t' res q r := by
  refine hbehind.congr (h.other r hr.symm) ?_
  by_cases hres : res = (t.lrq x).lock
  · subst hres
    rcases h.requests with heq | heq
    · rw [heq]
      exact hbehind.order
    · rw [heq]
      exact (sublist_erase hbehind.order hq hr).trans (List.sublist_append_left ..)
  · rw [h.sameLbl res hres]
    exact hbehind.order

/-- Granting another request and what can be granted with it. -/
theorem postGranted_behind (hgranted : (t.grant x).Inv) (hbehind : Behind t res q r) (hr : x ≠ r)
    {res' : Resource} (hq : (((t.grant x).postPending res').lrq q).pending) :
    Behind ((t.grant x).postPending res') res q r := by
  refine postPending_behind hgranted (hbehind.congr (grant_lrq_of_ne hr.symm) ?_) hq
  rw [grant_requests]
  exact hbehind.order

theorem onLrq_behind (hbehind : Behind t res q r) (hr : x ≠ r) (f : Lrq → Lrq) :
    Behind (t.onLrq x f) res q r :=
  hbehind.congr (by rw [onLrq_lrq, Function.update_of_ne hr.symm]) hbehind.order

theorem onLbl_decr_behind (hbehind : Behind t res q r) (res' : Resource) (s : Level) :
    Behind (t.onLbl res' (·.decr s)) res q r :=
  hbehind.congr rfl (by rw [decr_requests]; exact hbehind.order)

theorem internalConvert_behind (h : t.Inv) (hx : (t.lrq x).live) {type : Level} {wait : Bool}
    (hroom : (t.lbl (t.lrq x).lock).Room t.lrq type) (hbehind : Behind t res q r) (hxq : x ≠ q)
    (hxr : x ≠ r) (ht' : t.internalConvert x type wait = some t') (hq : (t'.lrq q).pending) :
    Behind t' res q r := by
  have hasked := request_inv h hx hroom
  have hu := onLrq_behind hbehind hxr ({ · with requested := type })
  rw [internalConvert] at ht'
  generalize hu' : t.onLrq x ({ · with requested := type }) = u at hasked ht' hu
  have hlive : (u.lrq x).live := by
    rw [← hu', onLrq_lrq, Function.update_self]
    exact hx
  have htype : (u.lrq x).requested = type := by
    rw [← hu', onLrq_lrq, Function.update_self]
  dsimp only at ht'
  split_ifs at ht' with hcompat hwait hpending
  · rw [← Option.some.inj ht'] at hq ⊢
    rw [onLbl_lbl, Function.update_self] at hcompat
    exact postGranted_behind (grant_lowered_inv hasked hlive (by rw [htype]; exact hcompat))
      (onLbl_decr_behind hu _ _) hxr hq
  · rw [← Option.some.inj ht', onLbl_decr_incr]
    exact (waitForRequest_begins u x).behind hu hxq hxr
  · rw [← Option.some.inj ht', onLbl_decr_incr]
    exact onLrq_behind hu hxr _

theorem grantOrQue_behind (h : t.Inv) (hx : (t.lrq x).live) (hstate : (t.lrq x).state = .none)
    (hbehind : Behind t res q r) (hxq : x ≠ q) (hxr : x ≠ r) {wait : Bool}
    (hq : ((t.grantOrQue x wait).lrq q).pending) :
    ((t.grantOrQue x wait).lrq r).live → Behind (t.grantOrQue x wait) res q r := by
  have hok := h.locks _ (h.linked.lock_live hx)
  rw [grantOrQue] at hq ⊢
  split_ifs at hq ⊢ with hcompat hwait
  · intro _
    have hcompat := hcompat.1
    rw [hok.stateEq] at hcompat
    have hgranted := grant_inv h.linked h.pendingLinked hx (fun res _ => h.locks res) hok.toSteady
      (hok.countedBut_of_none (h.linked.onLock x hx) (h.linked.lockNodup _) hstate) hcompat
    exact postGranted_behind hgranted hbehind hxr hq
  · exact fun _ => (waitForRequest_begins t x).behind hbehind hxq hxr
  · exact releaseRequest_behind h hx (fun _ => hbehind) hq

theorem enqueue_behind (h : t.Inv) {o : ℕ} {res' : Resource} {type : Level} {data : ℤ} {wait : Bool}
    (ho : (t.own o).live) (hfree : (t.lrq x).live = false) (hroom : (t.lbl res').Room t.lrq type)
    (hbehind : Behind t res q r) (hxq : x ≠ q) (hxr : x ≠ r)
    (hq : ((t.enqueue x o res' type data wait).lrq q).pending) :
    ((t.enqueue x o res' type data wait).lrq r).live →
      Behind (t.enqueue x o res' type data wait) res q r := by
  have hqmem := (mem_of_sublist hbehind.order).1
  rw [enqueue] at hq ⊢
  split_ifs at hq ⊢ with hlive
  · have hself : (t.queued x o res' type data).lrq x =
        ⟨true, type, .none, false, false, o, res', data⟩ := by
      rw [queued_lrq, Function.update_self]
    have hqueued : Behind (t.queued x o res' type data) res q r := by
      refine hbehind.congr ?_ ?_
      · rw [queued_lrq, Function.update_of_ne hxr.symm]
      · rw [queued_lbl]
        by_cases hres : res = res'
        · rw [hres, Function.update_self, ← hres]
          exact hbehind.order.trans (List.sublist_append_left ..)
        · rw [Function.update_of_ne hres]
          exact hbehind.order
    exact grantOrQue_behind (queued_inv h data ho hfree hlive hroom) (by rw [hself]) (by rw [hself])
      hqueued hxq hxr hq
  · intro _
    have hres : res ≠ res' := by
      rintro rfl
      exact hlive ((h.linked.lockLive res).2 (List.ne_nil_of_mem hqmem))
    refine hbehind.congr ?_ ?_
    · rw [grant_lrq_of_ne hxr.symm, onLbl_lrq, newLock, insertDataQue_lrq]
      exact Function.update_of_ne hxr.symm ..
    · rw [grant_requests, onLbl_lbl, Function.update_of_ne hres, newLock, insertDataQue_lbl, onLbl_lbl,
        Function.update_of_ne hres]
      exact hbehind.order

theorem rejectRequest_behind (hbehind : Behind t res q r) :
    Behind (t.rejectRequest x) res q r := by
  have hlrq : (t.rejectRequest x).lrq = Function.update t.lrq x { t.lrq x with
      rejected := true
      pending := false } := by
    simp [rejectRequest, clearPending]
  have hrequests : ((t.rejectRequest x).lbl res).requests = (t.lbl res).requests := by
    by_cases hres : res = (t.lrq x).lock
    · subst hres
      simp [rejectRequest, clearPending]
    · simp [rejectRequest, clearPending, Function.update_of_ne hres]
  by_cases hxr : x = r
  · subst hxr
    refine ⟨?_, ?_, ?_, ?_, by rw [hrequests]; exact hbehind.order⟩
    · rw [hlrq, Function.update_self]
      exact hbehind.lock
    · rw [hlrq, Function.update_self]
      exact hbehind.state
    · rw [hlrq, Function.update_self]
      exact hbehind.requested
    · rw [Waiting, hlrq, Function.update_self]
      exact .inr ⟨rfl, fun heq => hbehind.requested (heq.trans hbehind.state)⟩
  · exact hbehind.congr (by rw [hlrq, Function.update_of_ne (Ne.symm hxr)])
      (by rw [hrequests]; exact hbehind.order)

theorem purgeRequests_pending (h : t.Inv) {o fuel : ℕ}
    (hq : ((purgeRequests o fuel t).lrq q).pending) : (t.lrq q).pending := by
  induction fuel generalizing t with
  | zero => exact hq
  | succ fuel ih =>
    rw [purgeRequests] at hq
    cases hrequests : (t.own o).requests with
    | nil =>
      simp only [hrequests] at hq
      exact hq
    | cons x rest =>
      simp only [hrequests] at hq
      have hx : (t.lrq x).live := (h.linked.ownerOf o x (hrequests ▸ List.mem_cons_self)).1
      exact (releaseRequest_pending h hx (ih (releaseRequest_inv h hx).1 hq)).1

theorem purgeRequests_behind (h : t.Inv) {o fuel : ℕ} (hbehind : (t.lrq r).live → Behind t res q r)
    (hq : ((purgeRequests o fuel t).lrq q).pending) :
    ((purgeRequests o fuel t).lrq r).live → Behind (purgeRequests o fuel t) res q r := by
  induction fuel generalizing t with
  | zero => exact hbehind
  | succ fuel ih =>
    rw [purgeRequests] at hq ⊢
    cases hrequests : (t.own o).requests with
    | nil =>
      simp only [hrequests] at hq ⊢
      exact hbehind
    | cons x rest =>
      simp only [hrequests] at hq ⊢
      have hx : (t.lrq x).live := (h.linked.ownerOf o x (hrequests ▸ List.mem_cons_self)).1
      have hinv := (releaseRequest_inv h hx).1
      exact ih hinv (releaseRequest_behind h hx hbehind (purgeRequests_pending hinv hq)) hq

theorem released_not_live (h : t.Inv) (hx : (t.lrq x).live) : ((t.releaseRequest x).lrq x).live = false := by
  obtain ⟨v, hinv, hlrq, -, -, -, hrelease⟩ := releaseRequest_eq h hx
  rw [hrelease, (postPending_sameQueues _ _).live, hlrq, unlinkRequest_lrq, Function.update_self]

/-- A new request on a lock where one waits is not granted at once. -/
theorem enqueue_begins (h : t.Inv) {o : ℕ} {type : Level} {data : ℤ} {wait : Bool}
    (ho : (t.own o).live) (hfree : (t.lrq r).live = false) (hroom : (t.lbl res).Room t.lrq type)
    (htype : .null < type) (hq : q ∈ (t.lbl res).requests) (hpending : (t.lrq q).pending) :
    ((t.enqueue r o res type data wait).lrq r).live →
      Behind (t.enqueue r o res type data wait) res q r := by
  have hlive : (t.lbl res).live := (h.linked.lockLive res).2 (List.ne_nil_of_mem hq)
  have hcount : (t.lbl res).pendingLrqCount ≠ 0 := by
    have hok := h.locks res hlive
    rw [hok.pendingCount, Ne, ofNat_eq_zero hok.pendingFits, Lbl.pendingRequests, List.countP_eq_zero]
    exact fun hnone => hnone q hq (by simpa using hpending)
  rw [enqueue, if_pos hlive]
  have hinv := queued_inv h data ho hfree hlive hroom
  have hself : (t.queued r o res type data).lrq r =
      ⟨true, type, .none, false, false, o, res, data⟩ := by
    rw [queued_lrq, Function.update_self]
  have hlbl : (t.queued r o res type data).lbl res =
      { t.lbl res with requests := (t.lbl res).requests ++ [r] } := by
    rw [queued_lbl, Function.update_self]
  change ((grantOrQue (t.queued r o res type data) r wait).lrq r).live →
    Behind (grantOrQue (t.queued r o res type data) r wait) res q r
  generalize t.queued r o res type data = u at hinv hself hlbl
  rw [grantOrQue, hself, hlbl]
  have hnot : ¬ (compatibility type (t.lbl res).state = true ∧
      (type = .null ∨ (t.lbl res).pendingLrqCount = 0)) :=
    fun hgrant => hgrant.2.elim (ne_of_gt htype) hcount
  rw [if_neg hnot]
  cases wait with
  | false =>
    rw [if_neg Bool.false_ne_true, released_not_live hinv (by rw [hself])]
    exact fun hgone => absurd hgone Bool.false_ne_true
  | true =>
    rw [if_pos rfl]
    intro _
    have hwait : (u.waitForRequest r).lrq r = ⟨true, type, .none, true, false, o, res, data⟩ := by
      simp [waitForRequest, hself]
    refine ⟨by rw [hwait], by rw [hwait], ?_, .inl (by rw [hwait]), ?_⟩
    · rw [hwait]
      exact (lt_trans (show Level.none < .null by decide) htype).ne'
    · have hrequests : ((u.waitForRequest r).lbl res).requests =
          ((t.lbl res).requests ++ [r]).erase r ++ [r] := by
        simp [waitForRequest, hself, hlbl]
      rw [hrequests, List.erase_append_right _ (h.linked.free_notMem hfree res)]
      have hsub : [q].Sublist ((t.lbl res).requests ++ [r].erase r) :=
        (List.singleton_sublist.2 hq).trans (List.sublist_append_left ..)
      exact hsub.append (List.Sublist.refl [r])

/-! A request that is gone does not come back. -/

theorem releaseRequest_live (h : t.Inv) (hx : (t.lrq x).live) (hr : ((t.releaseRequest x).lrq r).live) :
    (t.lrq r).live := by
  obtain ⟨v, hinv, hlrq, -, -, -, hrelease⟩ := releaseRequest_eq h hx
  rw [hrelease, (postPending_sameQueues _ _).live, hlrq, unlinkRequest_lrq] at hr
  by_cases hrx : r = x
  · exact hrx ▸ hx
  · rwa [Function.update_of_ne hrx] at hr

theorem purgeRequests_live (h : t.Inv) {o fuel : ℕ} (hr : ((purgeRequests o fuel t).lrq r).live) :
    (t.lrq r).live := by
  induction fuel generalizing t with
  | zero => exact hr
  | succ fuel ih =>
    rw [purgeRequests] at hr
    cases hrequests : (t.own o).requests with
    | nil =>
      simp only [hrequests] at hr
      exact hr
    | cons x rest =>
      simp only [hrequests] at hr
      have hx : (t.lrq x).live := (h.linked.ownerOf o x (hrequests ▸ List.mem_cons_self)).1
      exact releaseRequest_live h hx (ih (releaseRequest_inv h hx).1 hr)

theorem internalConvert_live (h : t.Inv) (hx : (t.lrq x).live) {type : Level} {wait : Bool}
    (hroom : (t.lbl (t.lrq x).lock).Room t.lrq type)
    (ht' : t.internalConvert x type wait = some t') (r : ℕ) : (t'.lrq r).live = (t.lrq r).live := by
  have hasked := request_inv h hx hroom
  have hsame : SameQueues t (t.onLrq x ({ · with requested := type })) :=
    onLrq_sameQueues t x _ rfl rfl rfl
  rw [internalConvert] at ht'
  generalize hu : t.onLrq x ({ · with requested := type }) = u at hasked ht' hsame
  have hself : (u.lrq x).live := (hsame.live x).trans hx
  have htype : (u.lrq x).requested = type := by
    rw [← hu, onLrq_lrq, Function.update_self]
  dsimp only at ht'
  split_ifs at ht' with hcompat hwait hpending
  · rw [onLbl_lbl, Function.update_self] at hcompat
    have hgranted := grant_lowered_inv hasked hself (by rw [htype]; exact hcompat)
    rw [← Option.some.inj ht', (postPending_sameQueues _ _).live,
      (grant_lowered_sameQueues u x).live, hsame.live]
  · rw [← Option.some.inj ht', onLbl_decr_incr, ← hsame.live]
    by_cases hrx : r = x
    · subst hrx
      simp [waitForRequest]
    · rw [(waitForRequest_begins u x).other r hrx]
  · rw [← Option.some.inj ht', onLbl_decr_incr, (onLrq_sameQueues u x _ rfl rfl rfl).live, hsame.live]

theorem grantOrQue_live (h : t.Inv) (hx : (t.lrq x).live) (hstate : (t.lrq x).state = .none)
    {wait : Bool} (hr : ((t.grantOrQue x wait).lrq r).live) : (t.lrq r).live := by
  have hok := h.locks _ (h.linked.lock_live hx)
  rw [grantOrQue] at hr
  split_ifs at hr with hcompat hwait
  · have hcompat := hcompat.1
    rw [hok.stateEq] at hcompat
    have hgranted := grant_inv h.linked h.pendingLinked hx (fun res _ => h.locks res) hok.toSteady
      (hok.countedBut_of_none (h.linked.onLock x hx) (h.linked.lockNodup _) hstate) hcompat
    rwa [(postPending_sameQueues _ _).live, (grant_sameQueues t x).live] at hr
  · by_cases hrx : r = x
    · exact hrx ▸ hx
    · rwa [(waitForRequest_begins t x).other r hrx] at hr
  · exact releaseRequest_live h hx hr

theorem enqueue_live (h : t.Inv) {o : ℕ} {type : Level} {data : ℤ} {wait : Bool}
    (ho : (t.own o).live) (hfree : (t.lrq x).live = false) (hroom : (t.lbl res).Room t.lrq type)
    (hxr : x ≠ r) (hr : ((t.enqueue x o res type data wait).lrq r).live) : (t.lrq r).live := by
  rw [enqueue] at hr
  split_ifs at hr with hlive
  · have hself : (t.queued x o res type data).lrq x =
        ⟨true, type, .none, false, false, o, res, data⟩ := by
      rw [queued_lrq, Function.update_self]
    have hqueued := grantOrQue_live (queued_inv h data ho hfree hlive hroom) (by rw [hself])
      (by rw [hself]) hr
    rwa [queued_lrq, Function.update_of_ne hxr.symm] at hqueued
  · rw [(grant_sameQueues _ x).live, onLbl_lrq, newLock, insertDataQue_lrq] at hr
    exact (Function.update_of_ne hxr.symm _ t.lrq) ▸ hr

end

end Table

/-! ## Runs -/

/-- No call changes a request whose owner is still inside the call that made it wait. -/
def Op.Idle (t : Table) : Op → Prop
  | .convert r _ _ => ¬ t.Waiting r
  | .downgrade r => ¬ t.Waiting r
  | .createOwner _ => True
  | .enqueue .. => True
  | .dequeue _ => True
  | .reject _ => True
  | .rejectedEnqueue _ => True
  | .rejectedConvert _ => True
  | .writeData _ _ => True
  | .purgeOwner _ => True

instance (t : Table) : (op : Op) → Decidable (op.Idle t)
  | .convert r _ _ => inferInstanceAs (Decidable (¬ t.Waiting r))
  | .downgrade r => inferInstanceAs (Decidable (¬ t.Waiting r))
  | .createOwner _ => instDecidableTrue
  | .enqueue .. => instDecidableTrue
  | .dequeue _ => instDecidableTrue
  | .reject _ => instDecidableTrue
  | .rejectedEnqueue _ => instDecidableTrue
  | .rejectedConvert _ => instDecidableTrue
  | .writeData _ _ => instDecidableTrue
  | .purgeOwner _ => instDecidableTrue

theorem apply_attended {t t' : Table} (h : t.Inv) (hattended : t.Attended) {op : Op}
    (hfits : op.Fits t) (hidle : op.Idle t) (ht' : op.apply t = some t') : t'.Attended := by
  cases op <;> rw [Op.apply] at ht'
  case createOwner o =>
    split_ifs at ht'
    exact Option.some.inj ht' ▸ hattended
  case enqueue r o res type data wait =>
    split_ifs at ht' with hlive
    exact Option.some.inj ht' ▸ Table.enqueue_attended h hlive.1
      (Bool.eq_false_of_not_eq_true hlive.2) hfits.1 hattended
  case convert r type wait =>
    split_ifs at ht' with hlive
    exact Table.internalConvert_attended h hlive hidle hfits.1 hattended ht'
  case downgrade r =>
    split_ifs at ht' with hlive
    rw [Table.downgrade] at ht'
    split_ifs at ht' with hlevel
    · exact Option.some.inj ht' ▸ Table.releaseRequest_attended h hlive hattended
    · exact Table.internalConvert_attended h hlive hidle hfits hattended ht'
  case dequeue r =>
    split_ifs at ht' with hlive
    exact Option.some.inj ht' ▸ Table.releaseRequest_attended h hlive hattended
  case reject r =>
    split_ifs at ht' with hlive
    exact Option.some.inj ht' ▸ Table.rejectRequest_attended h hlive.1 hlive.2 hattended
  case rejectedEnqueue r =>
    split_ifs at ht' with hlive
    exact Option.some.inj ht' ▸ Table.releaseRequest_attended h hlive.1 hattended
  case rejectedConvert r =>
    split_ifs at ht' with hlive
    exact Option.some.inj ht' ▸ Table.rejectedConvert_attended h
      (Bool.eq_false_of_not_eq_true hlive.2.2) hattended
  case writeData r data =>
    split_ifs at ht' with hlive
    exact Option.some.inj ht' ▸ Table.setData_attended hattended _ data
  case purgeOwner o =>
    split_ifs at ht' with hlive
    exact Option.some.inj ht' ▸ Table.purgeRequests_attended h hattended

theorem step_attended {t : Table} (op : Op) (h : t.Inv) (hattended : t.Attended) (hfits : op.Fits t)
    (hidle : op.Idle t) : (step t op).Attended := by
  rw [step]
  cases happly : op.apply t with
  | none => exact hattended
  | some t' => exact apply_attended h hattended hfits hidle happly

theorem empty_attended : Table.empty.Attended :=
  fun _ => .inr fun _ hf => absurd hf (by simp [Table.firstPending, Table.empty])

/-- The call that enqueued `r` is not over: its block is not used for another request, and the call is
not a conversion. -/
def Op.Leaves (r : ℕ) : Op → Prop
  | .enqueue x _ _ _ _ _ => x ≠ r
  | .rejectedConvert x => x ≠ r
  | .createOwner _ => True
  | .convert .. => True
  | .downgrade _ => True
  | .dequeue _ => True
  | .reject _ => True
  | .rejectedEnqueue _ => True
  | .writeData _ _ => True
  | .purgeOwner _ => True

instance (r : ℕ) : (op : Op) → Decidable (op.Leaves r)
  | .enqueue x _ _ _ _ _ => inferInstanceAs (Decidable (x ≠ r))
  | .rejectedConvert x => inferInstanceAs (Decidable (x ≠ r))
  | .createOwner _ => instDecidableTrue
  | .convert .. => instDecidableTrue
  | .downgrade _ => instDecidableTrue
  | .dequeue _ => instDecidableTrue
  | .reject _ => instDecidableTrue
  | .rejectedEnqueue _ => instDecidableTrue
  | .writeData _ _ => instDecidableTrue
  | .purgeOwner _ => instDecidableTrue

theorem apply_behind {t t' : Table} {res : Resource} {q r : ℕ} (h : t.Inv)
    (hbehind : (t.lrq r).live → t.Behind res q r) {op : Op} (hfits : op.Fits t) (hidle : op.Idle t)
    (hleaves : op.Leaves r) (hpending : (t.lrq q).pending) (hqlive : (t.lrq q).live)
    (ht' : op.apply t = some t') (hq : (t'.lrq q).pending) : (t'.lrq r).live → t'.Behind res q r := by
  have hwaiting : ∀ x, ¬ t.Waiting x → (t.lrq r).live → x ≠ q ∧ x ≠ r := fun x hx hr =>
    ⟨fun heq => hx (heq ▸ .inl hpending), fun heq => hx (heq ▸ (hbehind hr).waiting)⟩
  cases op <;> rw [Op.apply] at ht'
  case createOwner o =>
    split_ifs at ht'
    exact Option.some.inj ht' ▸ fun hr => (hbehind hr).congr rfl (hbehind hr).order
  case enqueue x o res' type data wait =>
    split_ifs at ht' with hlive
    have hfree := Bool.eq_false_of_not_eq_true hlive.2
    rw [← Option.some.inj ht'] at hq ⊢
    intro hr
    have hxq : x ≠ q := fun heq => by rw [heq, hqlive] at hfree; cases hfree
    exact Table.enqueue_behind h hlive.1 hfree hfits.1
      (hbehind (Table.enqueue_live h hlive.1 hfree hfits.1 hleaves hr)) hxq hleaves hq hr
  case convert x type wait =>
    split_ifs at ht' with hlive
    intro hr
    rw [Table.internalConvert_live h hlive hfits.1 ht'] at hr
    exact Table.internalConvert_behind h hlive hfits.1 (hbehind hr) (hwaiting x hidle hr).1
      (hwaiting x hidle hr).2 ht' hq
  case downgrade x =>
    split_ifs at ht' with hlive
    rw [Table.downgrade] at ht'
    split_ifs at ht' with hlevel
    · rw [← Option.some.inj ht'] at hq ⊢
      exact Table.releaseRequest_behind h hlive hbehind hq
    · intro hr
      rw [Table.internalConvert_live h hlive hfits ht'] at hr
      exact Table.internalConvert_behind h hlive hfits (hbehind hr) (hwaiting x hidle hr).1
        (hwaiting x hidle hr).2 ht' hq
  case dequeue x =>
    split_ifs at ht' with hlive
    rw [← Option.some.inj ht'] at hq ⊢
    exact Table.releaseRequest_behind h hlive hbehind hq
  case reject x =>
    split_ifs at ht' with hlive
    rw [← Option.some.inj ht'] at hq ⊢
    have hlrq : (t.rejectRequest x).lrq = Function.update t.lrq x { t.lrq x with
        rejected := true
        pending := false } := by
      simp [Table.rejectRequest, Table.clearPending]
    intro hr
    refine Table.rejectRequest_behind (hbehind ?_)
    by_cases hrx : r = x
    · exact hrx ▸ hlive.1
    · rwa [hlrq, Function.update_of_ne hrx] at hr
  case rejectedEnqueue x =>
    split_ifs at ht' with hlive
    rw [← Option.some.inj ht'] at hq ⊢
    exact Table.releaseRequest_behind h hlive.1 hbehind hq
  case rejectedConvert x =>
    split_ifs at ht' with hlive
    rw [← Option.some.inj ht'] at hq ⊢
    intro hr
    have hsame := Table.onLrq_sameQueues (t.postPending (t.lrq x).lock) x
      (fun request => { request with requested := request.state }) rfl rfl rfl
    rw [Table.rejectedConvert, hsame.live, (Table.postPending_sameQueues _ _).live] at hr
    have hxq : x ≠ q := by
      rintro rfl
      exact hlive.2.2 hpending
    rw [Table.rejectedConvert, Table.onLrq_lrq, Function.update_of_ne hxq.symm] at hq
    exact Table.onLrq_behind (Table.postPending_behind h (hbehind hr) hq) hleaves _
  case writeData x data =>
    split_ifs at ht' with hlive
    rw [← Option.some.inj ht']
    intro hr
    rw [Table.setData_lrq] at hr
    refine (hbehind hr).congr (by rw [Table.setData_lrq]) ?_
    rw [Table.setData_lbl]
    by_cases hres : res = (t.lrq x).lock
    · rw [← hres, Function.update_self]
      exact (hbehind hr).order
    · rw [Function.update_of_ne hres]
      exact (hbehind hr).order
  case purgeOwner o =>
    split_ifs at ht' with hlive
    rw [← Option.some.inj ht'] at hq ⊢
    intro hr
    have hpurged := Table.purgeRequests_behind h hbehind hq hr
    exact hpurged.congr rfl hpurged.order

theorem step_behind {t : Table} {res : Resource} {q r : ℕ} (op : Op) (h : t.Inv)
    (hbehind : (t.lrq r).live → t.Behind res q r) (hfits : op.Fits t) (hidle : op.Idle t)
    (hleaves : op.Leaves r) (hpending : (t.lrq q).pending) (hqlive : (t.lrq q).live)
    (hq : ((step t op).lrq q).pending) : ((step t op).lrq r).live → (step t op).Behind res q r := by
  rw [step] at hq ⊢
  cases happly : op.apply t with
  | none => exact hbehind
  | some t' =>
    rw [happly] at hq
    exact apply_behind h hbehind hfits hidle hleaves hpending hqlive happly hq

theorem run_inv {t : Table} {ops : List Op} (h : t.Inv)
    (hops : Run.AlongRun step (fun t op => op.Fits t ∧ op.Idle t) t ops) : (Run.run step t ops).Inv :=
  Run.run_invariant Table.Inv (fun _ op h hop => step_inv op h hop.1) h hops

theorem run_behind {t : Table} {res : Resource} {q r : ℕ} {ops : List Op} (h : t.Inv)
    (hbehind : (t.lrq r).live → t.Behind res q r)
    (hops : Run.AlongRun step (fun t op => op.Fits t ∧ op.Idle t) t ops)
    (hstays : Run.AlongRun step (fun t op => (t.lrq q).live ∧ (t.lrq q).pending ∧ op.Leaves r) t ops)
    (hq : ((Run.run step t ops).lrq q).pending) :
    ((Run.run step t ops).lrq r).live → (Run.run step t ops).Behind res q r := by
  induction ops generalizing t with
  | nil => exact hbehind
  | cons op ops ih =>
    obtain ⟨⟨hfits, hidle⟩, hops⟩ := hops
    obtain ⟨⟨hqlive, hpending, hleaves⟩, hstays⟩ := hstays
    refine ih (step_inv op h hfits) ?_ hops hstays hq
    -- `q` waits after the operation too: it does so before the next one, or at the end
    have hnext : ((step t op).lrq q).pending := by
      cases ops with
      | nil => exact hq
      | cons op' ops => exact hstays.1.2.1
    exact step_behind op h hbehind hfits hidle hleaves hpending hqlive hnext

/-- After every run the first request that waits cannot be granted, on every lock where none waits for
the owner of a rejected request. A request enqueued while another waits gets nothing as long as that
one waits. -/
theorem lockTable_attended (ops : List Op)
    (hops : Run.AlongRun step (fun t op => op.Fits t ∧ op.Idle t) .empty ops) :
    (Run.run step .empty ops).Attended ∧
      ∀ before after r o res type data wait q,
        ops = before ++ Op.enqueue r o res type data wait :: after →
          ((Run.run step .empty before).own o).live →
          ((Run.run step .empty before).lrq r).live = false → .null < type →
          q ∈ ((Run.run step .empty before).lbl res).requests →
          ((Run.run step .empty before).lrq q).pending →
          Run.AlongRun step (fun t op => (t.lrq q).live ∧ (t.lrq q).pending ∧ op.Leaves r)
            (Run.run step .empty (before ++ [Op.enqueue r o res type data wait])) after →
          ((Run.run step .empty ops).lrq q).pending → ((Run.run step .empty ops).lrq r).live →
            ((Run.run step .empty ops).lrq r).state = .none := by
  refine ⟨(Run.run_invariant (fun t => t.Inv ∧ t.Attended) (fun t op h hop =>
    ⟨step_inv op h.1 hop.1, step_attended op h.1 h.2 hop.1 hop.2⟩) ⟨empty_inv, empty_attended⟩ hops).2, ?_⟩
  intro before after r o res type data wait q hsplit ho hfree htype hmem hpending hstays hq hr
  subst hsplit
  obtain ⟨hbefore, hrest⟩ := (Run.alongRun_append ..).1 hops
  obtain ⟨⟨hfits, -⟩, hafter⟩ := hrest
  have hinv := run_inv empty_inv hbefore
  rw [Run.run_append] at hstays hq hr ⊢
  have happly : step (Run.run step .empty before) (.enqueue r o res type data wait) =
      (Run.run step .empty before).enqueue r o res type data wait := by
    rw [step, Op.apply, if_pos ⟨ho, by rw [hfree]; exact Bool.false_ne_true⟩]
    rfl
  have hbegins : (((Run.run step .empty before).enqueue r o res type data wait).lrq r).live →
      ((Run.run step .empty before).enqueue r o res type data wait).Behind res q r :=
    Table.enqueue_begins hinv ho hfree hfits.1 htype hmem hpending
  rw [← happly] at hbegins
  exact (run_behind (step_inv _ hinv hfits) hbegins hafter hstays hq hr).state

def lockA : Resource := ⟨1, [7]⟩

def lockB : Resource := ⟨1, [8]⟩

def lockC : Resource := ⟨1, [9]⟩

/-- Owners 0 and 1 wait for each other. -/
def deadlocked : List Op :=
  [.createOwner 0, .createOwner 1, .createOwner 2, .createOwner 3, .enqueue 0 0 lockA .SR 0 false,
    .enqueue 1 1 lockB .EX 0 false, .enqueue 2 1 lockA .EX 0 true, .enqueue 3 0 lockB .SR 0 true]

/-- Owner 2 waits behind owner 1. -/
def behindDeadlock : List Op := deadlocked ++ [.enqueue 4 2 lockA .SR 0 true]

/-- Owner 2 stays behind owner 1 until that one is rejected and cleans up. -/
theorem lockTable_attended_witness :
    (Run.run step .empty (behindDeadlock ++ [.reject 2, .rejectedEnqueue 2])).Attended ∧
      ((Run.run step .empty behindDeadlock).lrq 4).state = .none := by
  have hops : Run.AlongRun step (fun t op => op.Fits t ∧ op.Idle t) .empty
      (behindDeadlock ++ [.reject 2, .rejectedEnqueue 2]) := by decide +kernel
  refine ⟨(lockTable_attended _ hops).1, ?_⟩
  have howner : ((Run.run step .empty deadlocked).own 2).live := by decide +kernel
  have hfree : ((Run.run step .empty deadlocked).lrq 4).live = false := by decide +kernel
  have hmem : 2 ∈ ((Run.run step .empty deadlocked).lbl lockA).requests := by decide +kernel
  have hpending : ((Run.run step .empty deadlocked).lrq 2).pending := by decide +kernel
  have hstill : ((Run.run step .empty behindDeadlock).lrq 2).pending := by decide +kernel
  have hlive : ((Run.run step .empty behindDeadlock).lrq 4).live := by decide +kernel
  exact (lockTable_attended behindDeadlock ((Run.alongRun_append ..).1 hops).1).2 deadlocked [] 4 2 lockA
    .SR 0 true 2 rfl howner hfree (by decide) hmem hpending trivial hstill hlive

/-- The scan of owner 2 rejects the request of owner 1, which sleeps. Before it wakes up another call
completes, and what owner 2 waits for could be granted. -/
theorem victim_not_cleaned_up :
    ¬ ∀ ops, Run.AlongRun step (fun t op => op.Fits t ∧ op.Idle t) .empty ops →
      ∀ res, (Run.run step .empty ops).NoMissed res := by
  intro hclaim
  have hmissed := hclaim (behindDeadlock ++ [.reject 2, .enqueue 5 3 lockC .SR 0 false]) (by decide +kernel)
    lockA
  refine hmissed 4 ?_ ?_
  · rw [Option.mem_def]
    decide +kernel
  · decide +kernel

end FirebirdCore.Lock
