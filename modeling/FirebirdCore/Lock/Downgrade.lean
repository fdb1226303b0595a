import FirebirdCore.Lock.Pending
import Mathlib.Data.List.TakeWhile

/-!
# Downgrading a lock

`downgrade` lowers a request for those that are pending. The level it chooses goes with the highest one
that another request is pending for; but the levels `PR` and `SW` do not go together, and neither is
below the other in what it allows. So a conversion to the level may be refused, and a pending request
below the highest may stay in the way of the level.
-/
namespace FirebirdCore.Lock
open FirebirdCore.Tally

namespace Table

/-- What `downgrade` returns, with the table it leaves, for an owner with this use count. -/
def downgradeResult (t : Table) (r ownCount : ℕ) : Option (Level × Table) :=
  if ownCount = 0 then some (.none, t)
  else
    let state := t.downgradeLevel r
    let state := if state = .none ∨ state = .null then .none else state
    (t.downgrade r).map fun t => (state, t)

/-- The level that a request holds. -/
def held (t : Table) (r : ℕ) : Level := if (t.lrq r).live then (t.lrq r).state else .none

/-- With the request `r` at this level, nothing would keep the request `p` from being granted. -/
def WouldAllow (t : Table) (res : Resource) (r p : ℕ) (level : Level) : Prop :=
  compatibility (t.lrq p).requested level ∧
    ∀ x ∈ (t.lbl res).requests, x ≠ r → x ≠ p → compatibility (t.lrq p).requested (t.lrq x).state

/-- What a downgrade of `r` that returned `state` should leave: the request holds that level, the level
goes with what the other requests hold, and keeps none from being granted that a lower one would not. -/
structure Downgraded (t : Table) (res : Resource) (r : ℕ) (state : Level) : Prop where
  held : t.held r = state
  compatible : ∀ x ∈ (t.lbl res).requests, x ≠ r → compatibility state (t.lrq x).state
  pending : ∀ p ∈ (t.lbl res).requests, p ≠ r → (t.lrq p).pending →
    ¬ compatibility (t.lrq p).requested state → ∀ level < state, ¬ t.WouldAllow res r p level

/-! ## The two gaps -/

/-- The level to keep is `PR`, and another request holds `SW` as this one does. -/
def Refused (t : Table) (r : ℕ) : Prop :=
  (t.lrq r).state = .SW ∧ t.pendingState r = .PR ∧
    ∃ x ∈ (t.lbl (t.lrq r).lock).requests, x ≠ r ∧ (t.lrq x).state = .SW

/-- The pending requests in front of the first one that is pending for `PR`. -/
def inFront (t : Table) (r : ℕ) : List ℕ :=
  ((t.lbl (t.lrq r).lock).requests.takeWhile fun x =>
    ¬ ((t.lrq x).pending ∧ x ≠ r ∧ (t.lrq x).requested = .PR)).filter fun x => (t.lrq x).pending ∧ x ≠ r

/-- The level to keep is `SW`, and only this request, holding it, keeps one from being granted that is
pending for `PR`: no other holds `SW`, or is pending for it in front. -/
def Overlooked (t : Table) (r : ℕ) : Prop :=
  .SW ≤ (t.lrq r).state ∧ t.pendingState r = .SW ∧
    ∃ p ∈ (t.lbl (t.lrq r).lock).requests, p ≠ r ∧ (t.lrq p).pending ∧ (t.lrq p).requested = .PR ∧
      ∀ x ∈ (t.lbl (t.lrq r).lock).requests, x ≠ r → x ≠ p →
        (if x ∈ t.inFront r then (t.lrq x).requested else (t.lrq x).state) ≠ .SW

/-! ## The level -/

theorem level_goes : ∀ pendingState state : Level,
    compatibility pendingState (lowerLevel pendingState state.toNat state) := by
  decide

theorem level_le : ∀ pendingState state : Level,
    lowerLevel pendingState state.toNat state ≤ state := by
  decide

/-- What goes with the former level goes with the one to keep, but for `SW` and `PR`. -/
theorem level_others : ∀ pendingState state other : Level, compatibility state other →
    compatibility (lowerLevel pendingState state.toNat state) other ∨
      state = .SW ∧ pendingState = .PR ∧ other = .SW := by
  decide

theorem level_refused :
    lowerLevel .PR Level.SW.toNat .SW = .PR ∧ ¬ compatibility .PR .SW := by
  decide

/-- What goes with the highest pending level does for those below it too, but for `SW` and `PR`. -/
theorem level_pending : ∀ pendingState state requested : Level, requested ≤ pendingState →
    ¬ compatibility requested (lowerLevel pendingState state.toNat state) →
      .SW ≤ state ∧ pendingState = .SW ∧ requested = .PR := by
  decide

theorem level_overlooked : ∀ state : Level, .SW ≤ state →
    lowerLevel .SW state.toNat state = .SW := by
  decide

section
variable {t t' : Table} {res : Resource} {r p x : ℕ}

/-- No other request is pending for a higher level. -/
theorem le_pendingState (hp : p ∈ (t.lbl (t.lrq r).lock).requests) (hpending : (t.lrq p).pending)
    (hne : p ≠ r) : (t.lrq p).requested ≤ t.pendingState r := by
  have hfold : ∀ (l : List ℕ) (s : Level), s ≤ l.foldl (fun s p =>
      if (t.lrq p).pending ∧ p ≠ r then max (t.lrq p).requested s else s) s ∧
      (p ∈ l → (t.lrq p).requested ≤ l.foldl (fun s p =>
        if (t.lrq p).pending ∧ p ≠ r then max (t.lrq p).requested s else s) s) := by
    intro l
    induction l with
    | nil => exact fun s => ⟨le_rfl, fun hmem => absurd hmem List.not_mem_nil⟩
    | cons y l ih =>
      intro s
      rw [List.foldl_cons]
      constructor
      · refine le_trans ?_ (ih _).1
        split_ifs
        · exact le_max_right ..
        · exact le_rfl
      · intro hmem
        obtain rfl | hmem := List.mem_cons.1 hmem
        · refine le_trans ?_ (ih _).1
          rw [if_pos ⟨hpending, hne⟩]
          exact le_max_left ..
        · exact (ih _).2 hmem
  exact (hfold _ .none).2 hp

/-! ## The conversion -/

/-- What goes with the state that a lock has without the request goes with what the others hold. -/
theorem goes_with_others (h : t.Inv) (hr : (t.lrq r).live) {level : Level}
    (hcompat : compatibility level
      (lockState ((t.lbl (t.lrq r).lock).decr (t.lrq r).state).counts))
    (hx : x ∈ (t.lbl (t.lrq r).lock).requests) (hne : x ≠ r) :
    compatibility level (t.lrq x).state := by
  have hok := h.locks _ (h.linked.lock_live hr)
  have hsteady : ((t.lbl (t.lrq r).lock).decr (t.lrq r).state).Steady t.lrq :=
    hok.toSteady.congr .rfl rfl (fun _ _ => rfl) (fun _ _ => rfl) (fun _ _ => rfl)
  exact Lbl.compatible_of_lockState hsteady
    (hok.countedBut (h.linked.onLock r hr) (h.linked.lockNodup _)) hcompat hx hne

/-- The same for a request that holds nothing. -/
theorem goes_with_state (h : t.Inv) (hr : (t.lrq r).live) (hnone : (t.lrq r).state = .none)
    {level : Level} (hcompat : compatibility level (t.lbl (t.lrq r).lock).state)
    (hx : x ∈ (t.lbl (t.lrq r).lock).requests) (hne : x ≠ r) :
    compatibility level (t.lrq x).state := by
  have hok := h.locks _ (h.linked.lock_live hr)
  rw [hok.stateEq] at hcompat
  exact Lbl.compatible_of_lockState hok.toSteady
    (hok.countedBut_of_none (h.linked.onLock r hr) (h.linked.lockNodup _) hnone) hcompat hx hne

/-- The table after the request was granted the level, before pending requests are posted. -/
structure Lowered (t t' : Table) (r : ℕ) (level : Level) : Prop where
  inv : t'.Inv
  self : t'.lrq r = { t.lrq r with
    requested := level
    state := level
    pending := false
    data := 0 }
  other : ∀ x, x ≠ r → t'.lrq x = t.lrq x
  requests : ∀ res, (t'.lbl res).requests = (t.lbl res).requests

/-- Without waiting, the conversion is granted just if the level goes with what the others hold. -/
theorem internalConvert_lowers (h : t.Inv) (hr : (t.lrq r).live) {level : Level}
    (hroom : (t.lbl (t.lrq r).lock).Room t.lrq level)
    (hgoes : ∀ x ∈ (t.lbl (t.lrq r).lock).requests, x ≠ r → compatibility level (t.lrq x).state) :
    ∃ u, Lowered t u r level ∧
      t.internalConvert r level false = some (u.postPending (t.lrq r).lock) := by
  have hasked := request_inv h hr hroom
  rw [internalConvert]
  have hother : ∀ x, x ≠ r → (t.onLrq r ({ · with requested := level })).lrq x = t.lrq x := fun x hx => by
    rw [onLrq_lrq, Function.update_of_ne hx]
  have hself : (t.onLrq r ({ · with requested := level })).lrq r = { t.lrq r with requested := level } := by
    rw [onLrq_lrq, Function.update_self]
  have hrequests : ∀ res, ((t.onLrq r ({ · with requested := level })).lbl res).requests =
      (t.lbl res).requests := fun res => rfl
  generalize t.onLrq r ({ · with requested := level }) = u at hasked hother hself hrequests
  have hlive : (u.lrq r).live := by rw [hself]; exact hr
  have hlock : (u.lrq r).lock = (t.lrq r).lock := by rw [hself]
  have hrequested : (u.lrq r).requested = level := by rw [hself]
  have hcompat : compatibility (u.lrq r).requested
      (lockState ((u.lbl (u.lrq r).lock).decr (u.lrq r).state).counts) := by
    by_contra hnot
    refine not_grantable_conversion hasked hlive hnot fun x hx hne => ?_
    rw [hrequested, hother x hne]
    rw [hlock, hrequests] at hx
    exact hgoes x hx hne
  refine ⟨(u.onLbl (u.lrq r).lock (·.decr (u.lrq r).state)).grant r,
    ⟨grant_lowered_inv hasked hlive hcompat, ?_, fun x hx => ?_, fun res => ?_⟩, ?_⟩
  · rw [grant_lrq_self, onLbl_lrq, hself]
    rfl
  · rw [grant_lrq_of_ne hx, onLbl_lrq, hother x hx]
  · rw [grant_requests, decr_requests, hrequests]
  · rw [hrequested] at hcompat
    dsimp only
    rw [onLbl_lbl, Function.update_self, if_pos hcompat, hlock]

/-- A conversion that is refused leaves the request what it holds. -/
theorem internalConvert_refuses (h : t.Inv) (hr : (t.lrq r).live) {level : Level}
    (hroom : (t.lbl (t.lrq r).lock).Room t.lrq level)
    (hx : x ∈ (t.lbl (t.lrq r).lock).requests) (hne : x ≠ r)
    (hnot : ¬ compatibility level (t.lrq x).state) :
    ∃ t', t.internalConvert r level false = some t' ∧ (t'.lrq r).live ∧
      (t'.lrq r).state = (t.lrq r).state := by
  have hasked := request_inv h hr hroom
  rw [internalConvert]
  have hother : (t.onLrq r ({ · with requested := level })).lrq x = t.lrq x := by
    rw [onLrq_lrq, Function.update_of_ne hne]
  have hself : (t.onLrq r ({ · with requested := level })).lrq r = { t.lrq r with requested := level } := by
    rw [onLrq_lrq, Function.update_self]
  have hlbl : (t.onLrq r ({ · with requested := level })).lbl = t.lbl := rfl
  generalize t.onLrq r ({ · with requested := level }) = u at hasked hother hself hlbl
  have hlive : (u.lrq r).live := by rw [hself]; exact hr
  have hlock : (u.lrq r).lock = (t.lrq r).lock := by rw [hself]
  have hincompatible : ¬ compatibility level
      (lockState ((u.lbl (u.lrq r).lock).decr (u.lrq r).state).counts) := by
    intro hcompat
    have hgoes := goes_with_others hasked hlive hcompat (x := x) (by rw [hlock, hlbl]; exact hx) hne
    rw [hother] at hgoes
    exact hnot hgoes
  dsimp only
  rw [onLbl_decr_incr]
  refine ⟨_, if_neg ?_, ?_, ?_⟩
  · rw [onLbl_lbl, Function.update_self]
    exact hincompatible
  · rw [onLrq_lrq, Function.update_self]
    exact hlive
  · rw [onLrq_lrq, Function.update_self]
    show (u.lrq r).state = _
    rw [hself]

/-! ## What is granted then -/

/-- The loop leaves each request as it is or grants it. -/
theorem postPendingLoop_lrq (rs : List ℕ) (t : Table) (x : ℕ) :
    (t.postPendingLoop rs).lrq x = t.lrq x ∨
      (t.postPendingLoop rs).lrq x = (t.lrq x).granted := by
  induction rs generalizing t with
  | nil => exact .inl rfl
  | cons r rs ih =>
    have hgo : ∀ v : Table, v.lrq = t.lrq → ((v.grant r).postPendingLoop rs).lrq x = t.lrq x ∨
        ((v.grant r).postPendingLoop rs).lrq x = (t.lrq x).granted := by
      intro v hv
      by_cases hx : x = r
      · subst hx
        have hself : (v.grant x).lrq x = (t.lrq x).granted := by rw [grant_lrq_self, hv]
        obtain ⟨-, -, hstill⟩ := postPendingLoop_frame rs (v.grant x)
        right
        rw [hstill x (by rw [hself]; rfl), hself]
      · have hother : (v.grant r).lrq x = t.lrq x := by rw [grant_lrq_of_ne hx, hv]
        rw [← hother]
        exact ih (v.grant r)
    rw [postPendingLoop]
    dsimp only
    split_ifs
    · exact ih t
    · exact hgo _ rfl
    · rw [onLbl_decr_incr]
      exact .inl rfl
    · exact hgo t rfl
    · exact .inl rfl

theorem postPending_lrq (t : Table) (res : Resource) (x : ℕ) :
    (t.postPending res).lrq x = t.lrq x ∨ (t.postPending res).lrq x = (t.lrq x).granted := by
  rw [postPending]
  split_ifs
  · exact .inl rfl
  · exact postPendingLoop_lrq (t.lbl res).requests t x

theorem goes_below_write : ∀ requested state : Level, requested ≤ .SW → requested ≠ .PR →
    compatibility .SW state → compatibility requested state := by
  decide

/-- With `SW` held, the loop grants what is pending in front of the first request for `PR`. -/
theorem postPendingLoop_upTo (h : t.Inv) (hr : r ∈ (t.lbl res).requests)
    (hstate : (t.lrq r).state = .SW) (hnot : (t.lrq r).pending = false) (front rest : List ℕ)
    (hmem : ∀ x ∈ front ++ p :: rest, x ∈ (t.lbl res).requests) (hnodup : (front ++ p :: rest).Nodup)
    (hfront : ∀ x ∈ front, (t.lrq x).pending → (t.lrq x).requested ≤ .SW ∧ (t.lrq x).requested ≠ .PR)
    (hp : (t.lrq p).pending) (hrequested : (t.lrq p).requested = .PR) (x : ℕ) :
    (t.postPendingLoop (front ++ p :: rest)).lrq x =
      if x ∈ front ∧ (t.lrq x).pending then (t.lrq x).granted else t.lrq x := by
  have hreader : ¬ compatibility .PR .SW := by decide
  have hne : ∀ y, (t.lrq y).pending → r ≠ y := by
    rintro y hy rfl
    rw [hnot] at hy
    cases hy
  induction front generalizing t with
  | nil =>
    obtain ⟨hlive, hlock⟩ := h.linked.lockOf res p (hmem p List.mem_cons_self)
    rw [List.nil_append, postPendingLoop]
    simp only [hp, hrequested, hlock, Bool.not_true, Bool.false_eq_true, if_false, List.not_mem_nil,
      false_and]
    split_ifs with hheld hcompat hcompat
    · rw [onLbl_lbl, Function.update_self] at hcompat
      have hgoes := goes_with_others h hlive (by rw [hlock]; exact hcompat) (by rw [hlock]; exact hr)
        (hne p hp)
      rw [hstate] at hgoes
      exact absurd hgoes hreader
    · rw [onLbl_decr_incr]
    · have hgoes := goes_with_state h hlive (not_not.1 hheld) (by rw [hlock]; exact hcompat)
        (by rw [hlock]; exact hr) (hne p hp)
      rw [hstate] at hgoes
      exact absurd hgoes hreader
    · rfl
  | cons y front ih =>
    obtain ⟨hyfront, hrest⟩ := List.forall_mem_cons.1 hfront
    have hynot := (List.nodup_cons.1 hnodup).1
    have hnodup' := (List.nodup_cons.1 hnodup).2
    have hmem' : ∀ x ∈ front ++ p :: rest, x ∈ (t.lbl res).requests := fun x hx =>
      hmem x (List.mem_cons_of_mem _ hx)
    rw [List.cons_append, postPendingLoop]
    by_cases hy : (t.lrq y).pending
    · obtain ⟨hlive, hlock⟩ := h.linked.lockOf res y (hmem y List.mem_cons_self)
      have hry := hne y hy
      -- what the others hold goes with `SW`, as `r` holds it
      have hgrantable : t.Grantable (t.lrq y).lock y := by
        intro z hz hzy
        obtain ⟨hlow, hread⟩ := hyfront hy
        refine goes_below_write _ _ hlow hread ?_
        rw [hlock] at hz
        by_cases hzr : z = r
        · rw [hzr, hstate]
          decide
        · have hcompat := h.sound.compatible res r hr z hz (Ne.symm hzr)
          rw [hstate] at hcompat
          exact hcompat
      have hgo : ∀ v : Table, v.Inv → v.lrq = Function.update t.lrq y (t.lrq y).granted →
          (∀ res, (v.lbl res).requests = (t.lbl res).requests) →
          (v.postPendingLoop (front ++ p :: rest)).lrq x =
            if x ∈ y :: front ∧ (t.lrq x).pending then (t.lrq x).granted else t.lrq x := by
        intro v hv hlrq hrequests
        have hother : ∀ z, z ≠ y → v.lrq z = t.lrq z := fun z hz => by
          rw [hlrq, Function.update_of_ne hz]
        have hpy : p ≠ y := by
          rintro rfl
          exact hynot (List.mem_append_right _ List.mem_cons_self)
        have hfrontne : ∀ z ∈ front, z ≠ y := by
          rintro z hz rfl
          exact hynot (List.mem_append_left _ hz)
        rw [ih hv (by rw [hrequests]; exact hr) (by rw [hother r hry, hstate])
          (by rw [hother r hry, hnot]) (fun z hz => by rw [hrequests]; exact hmem' z hz) hnodup'
          (fun z hz => by rw [hother z (hfrontne z hz)]; exact hrest z hz) (by rw [hother p hpy, hp])
          (by rw [hother p hpy, hrequested]) fun z hz => ?_]
        · by_cases hxy : x = y
          · subst hxy
            rw [if_neg fun hx => hfrontne x hx.1 rfl, if_pos ⟨List.mem_cons_self, hy⟩, hlrq,
              Function.update_self]
          · rw [hother x hxy]
            simp only [List.mem_cons, hxy, false_or]
        · by_cases hzy : z = y
          · exact hzy ▸ hry
          · rw [hother z hzy] at hz
            exact hne z hz
      generalize (if x ∈ y :: front ∧ (t.lrq x).pending then (t.lrq x).granted else t.lrq x) = request
        at hgo ⊢
      simp only [hy, Bool.not_true, Bool.false_eq_true, if_false]
      split_ifs with hheld hcompat hcompat
      · rw [onLbl_lbl, Function.update_self] at hcompat
        refine hgo _ (grant_lowered_inv h hlive hcompat) ?_ fun res => ?_
        · rw [grant_lrq, onLbl_lrq]
        · rw [grant_requests, decr_requests]
      · rw [onLbl_lbl, Function.update_self] at hcompat
        exact absurd hgrantable (not_grantable_conversion h hlive hcompat)
      · have hnone := not_not.1 hheld
        have hok := h.locks _ (h.linked.lock_live hlive)
        refine hgo _ ?_ (grant_lrq t y) fun res => grant_requests t y res
        rw [hok.stateEq] at hcompat
        exact grant_inv h.linked h.pendingLinked hlive (fun res _ => h.locks res) hok.toSteady
          (hok.countedBut_of_none (h.linked.onLock y hlive) (h.linked.lockNodup _) hnone) hcompat
      · exact absurd hgrantable (not_grantable h hlive (not_not.1 hheld) hcompat)
    · simp only [hy, Bool.not_false, if_true]
      rw [ih h hr hstate hnot hmem' hnodup' hrest hp hrequested hne]
      by_cases hxy : x = y
      · subst hxy
        rw [if_neg fun hx => hy hx.2, if_neg fun hx => hy hx.2]
      · simp only [List.mem_cons, hxy, false_or]

/-- A lock that has a pending request counts it. -/
theorem pendingCount_ne_zero (h : t.Inv) (hp : p ∈ (t.lbl res).requests) (hpending : (t.lrq p).pending) :
    (t.lbl res).pendingLrqCount ≠ 0 := by
  intro hcount
  have hok := h.locks res ((h.linked.lockLive res).2 (List.ne_nil_of_mem hp))
  rw [hok.pendingCount, ofNat_eq_zero hok.pendingFits, Lbl.pendingRequests,
    List.countP_eq_zero] at hcount
  exact hcount p hp (by simp [hpending])

/-- What the others hold after a downgrade to `SW` for which one is pending for `PR`. -/
theorem posted_state {u : Table} (h : t.Inv) (hr : (t.lrq r).live) (hlow : Lowered t u r .SW)
    (hhighest : t.pendingState r = .SW) (hp : p ∈ (t.lbl (t.lrq r).lock).requests) (hne : p ≠ r)
    (hpending : (t.lrq p).pending) (hrequested : (t.lrq p).requested = .PR) (hx : x ≠ r) :
    ((u.postPending (t.lrq r).lock).lrq x).state =
      if x ∈ t.inFront r then (t.lrq x).requested else (t.lrq x).state := by
  have hmem := h.linked.onLock r hr
  have hnodup := h.linked.lockNodup (t.lrq r).lock
  have hqueue := hlow.requests (t.lrq r).lock
  have hcount := pendingCount_ne_zero hlow.inv (by rw [hqueue]; exact hp) (by rw [hlow.other p hne, hpending])
  rw [postPending, if_neg hcount]
  -- the queue up to the first request that is pending for `PR`
  generalize hfront : (t.lbl (t.lrq r).lock).requests.takeWhile (fun x =>
    ¬ ((t.lrq x).pending ∧ x ≠ r ∧ (t.lrq x).requested = .PR)) = front
  have hinFront : t.inFront r = front.filter fun x => (t.lrq x).pending ∧ x ≠ r := by
    rw [← hfront]
    rfl
  obtain ⟨first, rest, hrest⟩ : ∃ first rest, (t.lbl (t.lrq r).lock).requests.dropWhile (fun x =>
      ¬ ((t.lrq x).pending ∧ x ≠ r ∧ (t.lrq x).requested = .PR)) = first :: rest := by
    refine List.exists_cons_of_ne_nil fun hnil => ?_
    have hall := List.dropWhile_eq_nil_iff.1 hnil p hp
    simp [hpending, hne, hrequested] at hall
  have hfirst : (t.lrq first).pending ∧ first ≠ r ∧ (t.lrq first).requested = .PR := by
    have hnot := List.head_dropWhile_not (fun x =>
      decide (¬ ((t.lrq x).pending ∧ x ≠ r ∧ (t.lrq x).requested = .PR)))
      (l := (t.lbl (t.lrq r).lock).requests) (by rw [hrest]; exact List.cons_ne_nil _ _)
    simp only [hrest, List.head_cons] at hnot
    simpa using hnot
  have hsplit : (t.lbl (t.lrq r).lock).requests = front ++ first :: rest := by
    rw [← hfront, ← hrest]
    exact List.takeWhile_append_dropWhile.symm
  have hpassed : ∀ y ∈ front, ¬ ((t.lrq y).pending ∧ y ≠ r ∧ (t.lrq y).requested = .PR) := by
    intro y hy
    rw [← hfront] at hy
    have hpass := List.mem_takeWhile_imp hy
    exact of_decide_eq_true hpass
  have hself : (u.lrq r).pending = false := by rw [hlow.self]
  have hqueued : r ∈ (u.lbl (t.lrq r).lock).requests := by
    rw [hqueue]
    exact hmem
  rw [hqueue, hsplit, postPendingLoop_upTo hlow.inv hqueued (by rw [hlow.self]) hself front rest
    (fun y hy => by rw [hqueue, hsplit]; exact hy) (hsplit ▸ hnodup) (fun y hy hyp => ?_)
    (by rw [hlow.other first hfirst.2.1, hfirst.1]) (by rw [hlow.other first hfirst.2.1, hfirst.2.2]),
    hlow.other x hx, hinFront]
  · simp only [List.mem_filter, decide_eq_true_eq, ne_eq, hx, not_false_eq_true, and_true]
    split_ifs <;> rfl
  · have hyr : y ≠ r := by
      rintro rfl
      rw [hself] at hyp
      cases hyp
    rw [hlow.other y hyr] at hyp ⊢
    have hyq : y ∈ (t.lbl (t.lrq r).lock).requests := hsplit ▸ List.mem_append_left _ hy
    exact ⟨hhighest ▸ le_pendingState hyq hyp hyr, fun hread => hpassed y hy ⟨hyp, hyr, hread⟩⟩

theorem reads_beside_write : ∀ state : Level, compatibility .SW state → state ≠ .SW →
    compatibility .PR state := by
  decide

/-- The request holds the level that is returned, and the level goes with what the others hold. -/
theorem lowered_downgraded {u : Table} {level : Level} (h : t.Inv) (hr : (t.lrq r).live)
    (hlow : Lowered t u r level) (hlevel : level = t.downgradeLevel r) :
    Downgraded (u.postPending (t.lrq r).lock) (t.lrq r).lock r level ↔ ¬ t.Overlooked r := by
  have hinv := postPending_inv hlow.inv (t.lrq r).lock
  obtain ⟨-, hqueues, hstill⟩ := postPending_frame hlow.inv (t.lrq r).lock
  have hself : (u.postPending (t.lrq r).lock).lrq r = u.lrq r := hstill r (by rw [hlow.self])
  have hqueue : ((u.postPending (t.lrq r).lock).lbl (t.lrq r).lock).requests =
      (t.lbl (t.lrq r).lock).requests := (hqueues _).trans (hlow.requests _)
  have hmem := h.linked.onLock r hr
  have hstate : ((u.postPending (t.lrq r).lock).lrq r).state = level := by rw [hself, hlow.self]
  have hheld : (u.postPending (t.lrq r).lock).held r = level := by
    rw [held, if_pos, hstate]
    rw [hself, hlow.self]
    exact hr
  have hcompatible : ∀ x ∈ (t.lbl (t.lrq r).lock).requests, x ≠ r →
      compatibility level ((u.postPending (t.lrq r).lock).lrq x).state := by
    intro x hx hne
    rw [← hstate]
    exact hinv.sound.compatible _ r (by rw [hqueue]; exact hmem) x (by rw [hqueue]; exact hx)
      (Ne.symm hne)
  -- what is still pending was so before, and nothing higher than `pendingState`
  have hwas : ∀ p ∈ (t.lbl (t.lrq r).lock).requests, p ≠ r →
      ((u.postPending (t.lrq r).lock).lrq p).pending →
      (u.postPending (t.lrq r).lock).lrq p = t.lrq p := by
    intro p _ hne hp
    obtain hsame | hgranted := postPending_lrq u (t.lrq r).lock p
    · rw [hsame, hlow.other p hne]
    · rw [hgranted] at hp
      cases hp
  constructor
  · rintro ⟨-, -, hpending⟩ ⟨hwrite, hhighest, p, hp, hne, hpp, hread, hothers⟩
    obtain rfl : level = .SW := by
      rw [hlevel, downgradeLevel, hhighest]
      exact level_overlooked _ hwrite
    have hsame : (u.postPending (t.lrq r).lock).lrq p = t.lrq p := by
      obtain hsame | hgranted := postPending_lrq u (t.lrq r).lock p
      · rw [hsame, hlow.other p hne]
      · have hgoes := hcompatible p hp hne
        rw [hgranted, hlow.other p hne] at hgoes
        change compatibility .SW (t.lrq p).requested = true at hgoes
        rw [hread] at hgoes
        cases hgoes
    refine hpending p (by rw [hqueue]; exact hp) hne (by rw [hsame, hpp]) ?_ .SR (by decide) ⟨?_, ?_⟩
    · rw [hsame, hread]
      decide
    · rw [hsame, hread]
      decide
    · intro x hx hxr hxp
      rw [hqueue] at hx
      rw [hsame, hread]
      refine reads_beside_write _ (hcompatible x hx hxr) ?_
      rw [posted_state h hr hlow hhighest hp hne hpp hread hxr]
      exact hothers x hx hxr hxp
  · intro hnot
    refine ⟨hheld, fun x hx => hcompatible x (hqueue ▸ hx),
      fun p hp hne hpp hincompatible level' _ hallow => hnot ?_⟩
    rw [hqueue] at hp
    have hsame := hwas p hp hne hpp
    rw [hsame] at hpp hincompatible
    rw [hlevel, downgradeLevel] at hincompatible
    obtain ⟨hwrite, hhighest, hread⟩ :=
      level_pending _ _ _ (le_pendingState hp hpp hne) hincompatible
    refine ⟨hwrite, hhighest, p, hp, hne, hpp, hread, fun x hx hxr hxp => ?_⟩
    obtain rfl : level = .SW := by
      rw [hlevel, downgradeLevel, hhighest]
      exact level_overlooked _ hwrite
    rw [← posted_state h hr hlow hhighest hp hne hpp hread hxr]
    intro hwrites
    have hgoes := hallow.2 x (by rw [hqueue]; exact hx) hxr hxp
    rw [hsame, hread, hwrites] at hgoes
    cases hgoes

end

end Table

/-! ## Downgrading -/

/-- A downgrade of a granted request returns a level and leaves a table. These are what they should be
just if the owner is in use, the conversion to `PR` is not refused for another `SW`, and no request that
is pending for `PR` is overlooked for one that is pending for `SW`. -/
theorem downgrade_iff {t : Table} (h : t.Inv) {r : ℕ} (hr : (t.lrq r).live)
    (hgranted : (t.lrq r).state ≠ .none)
    (hroom : (t.lbl (t.lrq r).lock).Room t.lrq (t.downgradeLevel r)) (ownCount : ℕ) :
    ∃ state t', t.downgradeResult r ownCount = some (state, t') ∧
      (t'.Downgraded (t.lrq r).lock r state ↔
        ownCount ≠ 0 ∧ ¬ t.Refused r ∧ ¬ t.Overlooked r) := by
  rw [Table.downgradeResult]
  by_cases hcount : ownCount = 0
  · refine ⟨.none, t, if_pos hcount, iff_of_false (fun hdone => ?_) fun hiff => hiff.1 hcount⟩
    have hheld := hdone.held
    rw [Table.held, if_pos hr] at hheld
    exact hgranted hheld
  rw [if_neg hcount, Table.downgrade]
  dsimp only
  by_cases hlevel : t.downgradeLevel r = .none ∨ t.downgradeLevel r = .null
  · rw [if_pos hlevel, if_pos hlevel]
    refine ⟨.none, t.releaseRequest r, rfl, iff_of_true ⟨?_, fun x _ _ => ?_, fun p _ _ _ hnot => ?_⟩
      ⟨hcount, ?_, ?_⟩⟩
    · rw [Table.held, Table.released_not_live h hr]
      rfl
    · rw [compatibility_comm]
      exact compatibility_none _
    · exact absurd (compatibility_none _) hnot
    · rintro ⟨hwrite, hhighest, -⟩
      rw [Table.downgradeLevel, hhighest, hwrite, Table.level_refused.1] at hlevel
      revert hlevel
      decide
    · rintro ⟨hwrite, hhighest, -⟩
      rw [Table.downgradeLevel, hhighest, Table.level_overlooked _ hwrite] at hlevel
      revert hlevel
      decide
  rw [if_neg hlevel, if_neg hlevel]
  by_cases hgoes : ∀ x ∈ (t.lbl (t.lrq r).lock).requests, x ≠ r →
      compatibility (t.downgradeLevel r) (t.lrq x).state
  · obtain ⟨u, hlow, hconvert⟩ := Table.internalConvert_lowers h hr hroom hgoes
    refine ⟨t.downgradeLevel r, u.postPending (t.lrq r).lock, by rw [hconvert]; rfl, ?_⟩
    rw [Table.lowered_downgraded h hr hlow rfl]
    refine ⟨fun hnot => ⟨hcount, ?_, hnot⟩, fun hiff => hiff.2.2⟩
    rintro ⟨hwrite, hhighest, x, hx, hne, hother⟩
    have hrefused := hgoes x hx hne
    rw [Table.downgradeLevel, hwrite, hhighest, Table.level_refused.1, hother] at hrefused
    exact Table.level_refused.2 hrefused
  · push Not at hgoes
    obtain ⟨x, hx, hne, hnot⟩ := hgoes
    obtain ⟨t', hconvert, hlive, hstate⟩ := Table.internalConvert_refuses h hr hroom hx hne hnot
    have hcompat := h.sound.compatible _ r (h.linked.onLock r hr) x hx (Ne.symm hne)
    obtain hgoes | ⟨hwrite, hhighest, hother⟩ :=
      Table.level_others (t.pendingState r) (t.lrq r).state (t.lrq x).state hcompat
    · exact absurd hgoes hnot
    refine ⟨t.downgradeLevel r, t', by rw [hconvert]; rfl, iff_of_false (fun hdone => ?_) fun hiff =>
      hiff.2.1 ⟨hwrite, hhighest, x, hx, hne, hother⟩⟩
    have hheld := hdone.held
    rw [Table.held, if_pos hlive, hstate, Table.downgradeLevel, hhighest, hwrite, Table.level_refused.1] at hheld
    cases hheld

def relationLock : Resource := ⟨1, [7]⟩

/-- A reader waits for a writer. -/
def readerWaits : List Op :=
  [.createOwner 0, .createOwner 1, .createOwner 2, .enqueue 0 0 relationLock .PW 0 false,
    .enqueue 1 1 relationLock .PR 0 true]

theorem downgrade_iff_reader : ∃ state t', (Run.run step .empty readerWaits).downgradeResult 0 1 =
    some (state, t') ∧ (t'.Downgraded relationLock 0 state ↔
      1 ≠ 0 ∧ ¬ (Run.run step .empty readerWaits).Refused 0 ∧
        ¬ (Run.run step .empty readerWaits).Overlooked 0) :=
  downgrade_iff
    (Run.run_invariant Table.Inv (fun _ op h hop => step_inv op h hop) empty_inv (by decide +kernel))
    (by decide +kernel) (by decide +kernel) (by decide +kernel) 1

/-- Two writers, and a reader that waits for them. -/
def twoWriters : List Op :=
  [.createOwner 0, .createOwner 1, .createOwner 2, .enqueue 0 0 relationLock .SW 0 false,
    .enqueue 1 1 relationLock .SW 0 false, .enqueue 2 2 relationLock .PR 0 true]

/-- A reader waits in front of a writer. -/
def readerInFront : List Op :=
  [.createOwner 0, .createOwner 1, .createOwner 2, .enqueue 0 0 relationLock .EX 0 false,
    .enqueue 1 1 relationLock .PR 0 true, .enqueue 2 2 relationLock .SW 0 true]

/-- The first of two writers is told that it holds `PR`; and the holder of the lock keeps `SW` for the
writer behind the reader, so that nobody is granted anything. -/
theorem downgrade_incomparable :
    (∃ t', (Run.run step .empty twoWriters).downgradeResult 0 1 = some (.PR, t') ∧
      (t'.lrq 0).state = .SW ∧ ¬ t'.Downgraded relationLock 0 .PR) ∧
    ∃ t', (Run.run step .empty readerInFront).downgradeResult 0 1 = some (.SW, t') ∧
      (t'.lrq 1).pending ∧ (t'.lrq 2).pending ∧ ¬ t'.Downgraded relationLock 0 .SW := by
  constructor
  · obtain ⟨⟨state, t'⟩, ht'⟩ := Option.isSome_iff_exists.1
      (by decide +kernel : ((Run.run step .empty twoWriters).downgradeResult 0 1).isSome = true)
    have hresult : ((Run.run step .empty twoWriters).downgradeResult 0 1).map
        (fun p => (p.1, (p.2.lrq 0).live, (p.2.lrq 0).state)) = some (.PR, true, .SW) := by
      decide +kernel
    rw [ht', Option.map_some, Option.some.injEq, Prod.mk.injEq, Prod.mk.injEq] at hresult
    obtain ⟨rfl, hlive, hstate⟩ := hresult
    refine ⟨t', ht', hstate, fun hdone => ?_⟩
    have hheld := hdone.held
    rw [Table.held, if_pos hlive, hstate] at hheld
    cases hheld
  · obtain ⟨⟨state, t'⟩, ht'⟩ := Option.isSome_iff_exists.1
      (by decide +kernel : ((Run.run step .empty readerInFront).downgradeResult 0 1).isSome = true)
    have hresult : ((Run.run step .empty readerInFront).downgradeResult 0 1).map
        (fun p => (p.1, (p.2.lbl relationLock).requests, (p.2.lrq 1).pending, (p.2.lrq 1).requested,
          (p.2.lrq 2).pending, (p.2.lrq 2).state)) =
        some (.SW, [0, 1, 2], true, .PR, true, .none) := by
      decide +kernel
    rw [ht'] at hresult
    simp only [Option.map_some, Option.some.injEq, Prod.mk.injEq] at hresult
    obtain ⟨rfl, hrequests, hreader, hrequested, hwriter, hnone⟩ := hresult
    refine ⟨t', ht', hreader, hwriter, fun hdone => ?_⟩
    refine hdone.pending 1 (by rw [hrequests]; decide) (by decide) hreader (by rw [hrequested]; decide)
      .SR (by decide) ⟨by rw [hrequested]; decide, fun x hx hne hne' => ?_⟩
    rw [hrequests] at hx
    obtain rfl : x = 2 := by
      simp only [List.mem_cons, List.not_mem_nil, or_false] at hx
      omega
    rw [hnone]
    exact compatibility_none _

end FirebirdCore.Lock
