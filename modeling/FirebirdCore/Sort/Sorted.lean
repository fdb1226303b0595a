import FirebirdCore.Sort.Quick

/-!
# What sorting leaves

The scans stop in front of what is greater and what is less, or at the guards, so that an interval is divided
by the record in its middle. Of two intervals the smaller one is taken first, which bounds the stacks.
-/
namespace FirebirdCore.Sort

open Slots (Rearranged elements elements_succ elements_add elements_congr length_elements Paired)

variable {ρ : Type*} {R : Records ρ} {m m' : Pointers ρ} {r su i j k : ℕ}

/-! ## Slots -/

namespace Pointers

/-- Every record has its slot as its back pointer. -/
def Addressed (m : Pointers ρ) : Prop := ∀ k, 1 ≤ k → k ≤ m.size → m.back (m.slots k) = k

/-- Records have been moved between the slots from `lo` to below `hi`. -/
structure Moved (lo hi : ℕ) (m m' : Pointers ρ) : Prop where
  size_eq : m'.size = m.size
  rearranged : Rearranged lo hi m.slots m'.slots
  addressed : m.Addressed → m'.Addressed

theorem Moved.refl (lo hi : ℕ) (m : Pointers ρ) : Moved lo hi m m := ⟨rfl, .refl _ _ _, id⟩

theorem Moved.trans {lo hi : ℕ} {m'' : Pointers ρ} (h : Moved lo hi m m') (h' : Moved lo hi m' m'') :
    Moved lo hi m m'' where
  size_eq := h'.size_eq.trans h.size_eq
  rearranged := h.rearranged.trans h'.rearranged
  addressed := fun hm => h'.addressed (h.addressed hm)

theorem Moved.mono {lo hi lo' hi' : ℕ} (h : Moved lo' hi' m m') (hlo : lo ≤ lo') (hhi : hi' ≤ hi) :
    Moved lo hi m m' :=
  ⟨h.size_eq, h.rearranged.mono hlo hhi, h.addressed⟩

theorem record_of_le (hk : 1 ≤ k) (hsize : k ≤ m.size) : m.record k = some (m.slots k) := if_pos ⟨hk, hsize⟩

variable [DecidableEq ρ]

/-- Two records exchanged, with their back pointers. -/
def exchange (m : Pointers ρ) (i j : ℕ) : Pointers ρ :=
  { m with
    slots := m.slots ∘ Equiv.swap i j
    back := Function.update (Function.update m.back (m.slots i) j) (m.slots j) i }

theorem swap_eq (hi : 1 ≤ i ∧ i ≤ m.size) (hj : 1 ≤ j ∧ j ≤ m.size) : m.swap i j = some (m.exchange i j) := by
  rw [swap, record_of_le hi.1 hi.2, record_of_le hj.1 hj.2]
  rfl

theorem exchange_left (m : Pointers ρ) (i j : ℕ) : (m.exchange i j).slots i = m.slots j :=
  congrArg m.slots (Equiv.swap_apply_left i j)

theorem exchange_right (m : Pointers ρ) (i j : ℕ) : (m.exchange i j).slots j = m.slots i :=
  congrArg m.slots (Equiv.swap_apply_right i j)

theorem exchange_of_ne (hi : k ≠ i) (hj : k ≠ j) : (m.exchange i j).slots k = m.slots k :=
  congrArg m.slots (Equiv.swap_apply_of_ne_of_ne hi hj)

theorem exchange_addressed (hi : 1 ≤ i ∧ i ≤ m.size) (hj : 1 ≤ j ∧ j ≤ m.size) (h : m.Addressed) :
    (m.exchange i j).Addressed := by
  intro k hk hsize
  change Function.update (Function.update m.back (m.slots i) j) (m.slots j) i _ = k
  have hne {a b : ℕ} (ha : 1 ≤ a ∧ a ≤ m.size) (hb : 1 ≤ b ∧ b ≤ m.size) (hab : a ≠ b) :
      m.slots a ≠ m.slots b := by
    intro heq
    apply hab
    rw [← h a ha.1 ha.2, heq, h b hb.1 hb.2]
  by_cases hki : k = i
  · rw [hki, exchange_left, Function.update_self]
  · by_cases hkj : k = j
    · have hij : i ≠ j := fun heq => hki (hkj.trans heq.symm)
      rw [hkj, exchange_right, Function.update_of_ne (hne hi hj hij), Function.update_self]
    · rw [exchange_of_ne hki hkj, Function.update_of_ne (hne ⟨hk, hsize⟩ hj hkj),
        Function.update_of_ne (hne ⟨hk, hsize⟩ hi hki), h k hk hsize]

theorem moved_exchange {lo hi : ℕ} (hi₁ : 1 ≤ i ∧ i ≤ m.size) (hj₁ : 1 ≤ j ∧ j ≤ m.size)
    (hi₂ : lo ≤ i ∧ i < hi) (hj₂ : lo ≤ j ∧ j < hi) : Moved lo hi m (m.exchange i j) :=
  ⟨rfl, Slots.rearranged_swap hi₂ hj₂ _, exchange_addressed hi₁ hj₁⟩

end Pointers

open Pointers

namespace Records

/-- The key of the record in a slot, and its first longword. -/
def keyAt (R : Records ρ) (m : Pointers ρ) (k : ℕ) : List ULONG := R.key (m.slots k)

def headAt (R : Records ρ) (m : Pointers ρ) (k : ℕ) : ULONG := (R.keyAt m k).headD 0

theorem first_of_le (hk : 1 ≤ k) (hsize : k ≤ m.size) : R.first m k = some (R.headAt m k) := by
  rw [first, if_neg (by omega), if_pos hsize]
  rfl

theorem first_behind : R.first m (m.size + 1) = some MAX_ULONG := by
  rw [first, if_neg (Nat.succ_ne_zero _), if_neg (by omega), if_pos rfl]

/-- What is behind an interval is not less than any record of it. -/
def Guarded (R : Records ρ) (m : Pointers ρ) (r su : ℕ) : Prop :=
  ∃ longword, R.first m (su + 1) = some longword ∧ ∀ k, r ≤ k → k ≤ su → R.headAt m k ≤ longword

theorem guarded_all (R : Records ρ) (m : Pointers ρ) : R.Guarded m 1 m.size :=
  ⟨MAX_ULONG, first_behind, fun _ _ _ => le_MAX_ULONG _⟩

theorem guarded_of_key_le (hk : 1 ≤ su + 1) (hsize : su + 1 ≤ m.size)
    (h : ∀ k, r ≤ k → k ≤ su → R.keyAt m k ≤ R.keyAt m (su + 1)) : R.Guarded m r su :=
  ⟨_, first_of_le hk hsize, fun k hr hsu => head_le_of_key_le (h k hr hsu)⟩

/-- Records moved inside the interval. -/
theorem Guarded.moved (h : R.Guarded m r su) {lo hi : ℕ} (hm : Moved lo hi m m') (hlo : r ≤ lo)
    (hhi : hi ≤ su + 1) : R.Guarded m' r su := by
  obtain ⟨longword, hfirst, hle⟩ := h
  refine ⟨longword, ?_, ?_⟩
  · rw [first, hm.size_eq, hm.rearranged.outside (.inr hhi)]
    exact hfirst
  · intro k hr hsu
    have hall := hm.rearranged.mono hlo hhi
    exact hall.forall (P := fun p => (R.key p).headD 0 ≤ longword)
      (fun k hr hsu => hle k hr (Nat.le_of_lt_succ hsu)) k hr (Nat.lt_succ_of_le hsu)

end Records

open Records

/-! ## Scanning -/

section Scanning
variable {key longword : ULONG}

theorem scanBelow_spec (hi : 1 ≤ i) (hle : i ≤ su + 1) (hsu : su ≤ m.size)
    (hfirst : R.first m (su + 1) = some longword) (hkey : key ≤ longword) :
    ∃ i', scanBelow R m key i = some i' ∧ i ≤ i' ∧ i' ≤ su + 1 ∧
      (∀ k, i ≤ k → k < i' → R.headAt m k < key) ∧
      ∃ longword', R.first m i' = some longword' ∧ key ≤ longword' := by
  induction hn : su + 1 - i generalizing i with
  | zero =>
    obtain rfl : i = su + 1 := by omega
    refine ⟨su + 1, ?_, le_rfl, le_rfl, fun k hk hlt => by omega, longword, hfirst, hkey⟩
    rw [scanBelow, if_pos (by omega), hfirst]
    exact if_neg (not_lt.2 hkey)
  | succ n ih =>
    have hslot : R.first m i = some (R.headAt m i) := first_of_le hi (by omega)
    rw [scanBelow, if_pos (by omega), hslot]
    dsimp only
    by_cases hlt : R.headAt m i < key
    · rw [if_pos hlt]
      obtain ⟨i', hscan, hi', hle', hbelow, hstop⟩ := @ih (i + 1) (by omega) (by omega) (by omega)
      refine ⟨i', hscan, by omega, hle', fun k hk hlt' => ?_, hstop⟩
      rcases Nat.eq_or_lt_of_le hk with rfl | hk
      · exact hlt
      · exact hbelow k hk hlt'
    · rw [if_neg hlt]
      exact ⟨i, rfl, le_rfl, hle, fun k hk hlt' => by omega, _, hslot, not_lt.1 hlt⟩

theorem scanNotGreater_spec (hr : 1 ≤ r) (hrsize : r ≤ m.size) (hi : 1 ≤ i) (hle : i ≤ su + 1)
    (hsu : su ≤ m.size) :
    ∃ i', scanNotGreater R m r su i = some i' ∧ i ≤ i' ∧ i' ≤ su + 1 ∧
      (∀ k, i ≤ k → k < i' → R.keyAt m k ≤ R.keyAt m r) ∧
      (i' ≤ su → R.keyAt m r ≤ R.keyAt m i') := by
  induction hn : su + 1 - i generalizing i with
  | zero =>
    obtain rfl : i = su + 1 := by omega
    refine ⟨su + 1, ?_, le_rfl, le_rfl, fun k hk hlt => by omega, fun h => by omega⟩
    rw [scanNotGreater, if_neg (by omega)]
  | succ n ih =>
    rw [scanNotGreater, if_pos (by omega), record_of_le hi (by omega), record_of_le hr hrsize]
    dsimp only
    by_cases hgreater : R.lessThan m (m.slots r) (m.slots i) = true
    · rw [if_pos hgreater]
      exact ⟨i, rfl, le_rfl, hle, fun k hk hlt => by omega, fun _ => key_le_of_lessThan hgreater⟩
    · rw [if_neg hgreater]
      obtain ⟨i', hscan, hi', hle', hbelow, hstop⟩ := @ih (i + 1) (by omega) (by omega) (by omega)
      refine ⟨i', hscan, by omega, hle', fun k hk hlt' => ?_, hstop⟩
      rcases Nat.eq_or_lt_of_le hk with rfl | hk
      · exact key_le_of_not_lessThan (Bool.not_eq_true _ ▸ hgreater)
      · exact hbelow k hk hlt'

/-- Everything that is passed is not greater, and what the scan stops at is not less. -/
theorem scanUp_spec (hr : 1 ≤ r) (hrsize : r ≤ m.size) (hi : 1 ≤ i) (hle : i ≤ su + 1) (hsu : su ≤ m.size)
    (hfirst : R.first m (su + 1) = some longword) (hkey : R.headAt m r ≤ longword) :
    ∃ i', scanUp R m (R.headAt m r) r su i = some i' ∧ i ≤ i' ∧ i' ≤ su + 1 ∧
      (∀ k, i ≤ k → k < i' → R.keyAt m k ≤ R.keyAt m r) ∧
      (i' ≤ su → R.keyAt m r ≤ R.keyAt m i') := by
  obtain ⟨i₁, hscan, hi₁, hle₁, hbelow, longword', hfirst', hkey'⟩ := scanBelow_spec hi hle hsu hfirst hkey
  rw [scanUp, hscan, Option.bind_some, hfirst']
  by_cases heq : longword' = R.headAt m r
  · rw [if_pos (congrArg some heq)]
    obtain ⟨i', hscan', hi', hle', hpassed, hstop⟩ :=
      scanNotGreater_spec (R := R) hr hrsize (hi.trans hi₁) hle₁ hsu
    refine ⟨i', hscan', hi₁.trans hi', hle', fun k hk hlt => ?_, hstop⟩
    by_cases hfront : k < i₁
    · exact key_le_of_head_lt (hbelow k hk hfront)
    · exact hpassed k (Nat.le_of_not_lt hfront) hlt
  · rw [if_neg (fun h => heq (Option.some.inj h))]
    refine ⟨i₁, rfl, hi₁, hle₁, fun k hk hlt => key_le_of_head_lt (hbelow k hk hlt), fun hstop => ?_⟩
    rw [first_of_le (hi.trans hi₁) (hstop.trans hsu)] at hfirst'
    rw [← Option.some.inj hfirst'] at hkey' heq
    exact key_le_of_head_lt (lt_of_le_of_ne hkey' (Ne.symm heq))

theorem scanAbove_spec (hr : 1 ≤ r) (hle : r ≤ j) (hj : j ≤ m.size) :
    ∃ j', scanAbove R m (R.headAt m r) j = some j' ∧ r ≤ j' ∧ j' ≤ j ∧
      (∀ k, j' < k → k ≤ j → R.headAt m r < R.headAt m k) ∧ R.headAt m j' ≤ R.headAt m r := by
  induction j with
  | zero => omega
  | succ j ih =>
    rw [scanAbove, first_of_le (Nat.succ_pos _) hj]
    dsimp only
    by_cases hlt : R.headAt m (j + 1) > R.headAt m r
    · rw [if_pos hlt]
      have hne : r ≠ j + 1 := fun heq => absurd hlt (by rw [heq]; exact lt_irrefl _)
      obtain ⟨j', hscan, hj', hle', habove, hstop⟩ := ih (by omega) (by omega)
      refine ⟨j', hscan, hj', by omega, fun k hk hkj => ?_, hstop⟩
      rcases Nat.eq_or_lt_of_le hkj with rfl | hkj
      · exact hlt
      · exact habove k hk (Nat.le_of_lt_succ hkj)
    · rw [if_neg hlt]
      exact ⟨j + 1, rfl, hle, le_rfl, fun k hk hkj => by omega, not_lt.1 hlt⟩

theorem scanNotLess_spec (hr : 1 ≤ r) (hle : r ≤ j) (hj : j ≤ m.size) :
    ∃ j', scanNotLess R m r j = some j' ∧ r ≤ j' ∧ j' ≤ j ∧
      (∀ k, j' < k → k ≤ j → R.keyAt m r ≤ R.keyAt m k) ∧ R.keyAt m j' ≤ R.keyAt m r := by
  induction j with
  | zero => omega
  | succ j ih =>
    rw [scanNotLess]
    by_cases hend : j + 1 ≠ r
    · rw [if_pos hend, record_of_le (Nat.succ_pos _) hj, record_of_le hr (hle.trans hj)]
      dsimp only
      by_cases hless : R.lessThan m (m.slots (j + 1)) (m.slots r) = true
      · rw [if_pos hless]
        exact ⟨j + 1, rfl, hle, le_rfl, fun k hk hkj => by omega, key_le_of_lessThan hless⟩
      · rw [if_neg hless]
        obtain ⟨j', hscan, hj', hle', habove, hstop⟩ := ih (by omega) (by omega)
        refine ⟨j', hscan, hj', by omega, fun k hk hkj => ?_, hstop⟩
        rcases Nat.eq_or_lt_of_le hkj with rfl | hkj
        · exact key_le_of_not_lessThan (Bool.not_eq_true _ ▸ hless)
        · exact habove k hk (Nat.le_of_lt_succ hkj)
    · rw [if_neg hend]
      exact ⟨j + 1, rfl, hle, le_rfl, fun k hk hkj => by omega, by rw [not_not.1 hend]⟩

/-- Everything that is passed is not less, and what the scan stops at is not greater. -/
theorem scanDown_spec (hr : 1 ≤ r) (hle : r ≤ j) (hj : j ≤ m.size) :
    ∃ j', scanDown R m (R.headAt m r) r j = some j' ∧ r ≤ j' ∧ j' ≤ j ∧
      (∀ k, j' < k → k ≤ j → R.keyAt m r ≤ R.keyAt m k) ∧ R.keyAt m j' ≤ R.keyAt m r := by
  obtain ⟨j₁, hscan, hj₁, hle₁, habove, hstop⟩ := scanAbove_spec (R := R) hr hle hj
  rw [scanDown, hscan, Option.bind_some, first_of_le (hr.trans hj₁) (hle₁.trans hj)]
  by_cases heq : R.headAt m j₁ = R.headAt m r
  · rw [if_pos (congrArg some heq)]
    obtain ⟨j', hscan', hj', hle', hpassed, hstop'⟩ := scanNotLess_spec (R := R) hr hj₁ (hle₁.trans hj)
    refine ⟨j', hscan', hj', hle'.trans hle₁, fun k hk hkj => ?_, hstop'⟩
    by_cases hbehind : j₁ < k
    · exact key_le_of_head_lt (habove k hbehind hkj)
    · exact hpassed k hk (Nat.le_of_not_lt hbehind)
  · rw [if_neg (fun h => heq (Option.some.inj h))]
    exact ⟨j₁, rfl, hj₁, hle₁, fun k hk hkj => key_le_of_head_lt (habove k hk hkj),
      key_le_of_head_lt (lt_of_le_of_ne hstop heq)⟩

end Scanning

/-! ## Dividing an interval -/

section Dividing
variable [DecidableEq ρ]

/-- Keys of slots outside of where records have moved. -/
theorem keyAt_outside {lo hi : ℕ} (h : Moved lo hi m m') (hk : k < lo ∨ hi ≤ k) : R.keyAt m' k = R.keyAt m k :=
  congrArg R.key (h.rearranged.outside hk)

/-- What has been scanned from both ends lies on the right side of the record `r`. -/
structure Scanned (R : Records ρ) (m : Pointers ρ) (r su i j : ℕ) : Prop where
  lower : ∀ k, r < k → k < i → R.keyAt m k ≤ R.keyAt m r
  upper : ∀ k, j < k → k ≤ su → R.keyAt m r ≤ R.keyAt m k

theorem Scanned.exchange (h : Scanned R m r su i j) (hri : r < i) (hij : i < j)
    (hi : R.keyAt m r ≤ R.keyAt m i) (hj : R.keyAt m j ≤ R.keyAt m r) :
    Scanned R (m.exchange i j) r su (i + 1) (j - 1) := by
  have hslot {k : ℕ} (hki : k ≠ i) (hkj : k ≠ j) : R.keyAt (m.exchange i j) k = R.keyAt m k :=
    congrArg R.key (exchange_of_ne hki hkj)
  have hleft : R.keyAt (m.exchange i j) i = R.keyAt m j := congrArg R.key (exchange_left m i j)
  have hright : R.keyAt (m.exchange i j) j = R.keyAt m i := congrArg R.key (exchange_right m i j)
  constructor
  · intro k hrk hki
    rw [hslot (by omega : r ≠ i) (by omega)]
    rcases Nat.eq_or_lt_of_le (Nat.le_of_lt_succ hki) with rfl | hlt
    · rw [hleft]
      exact hj
    · rw [hslot (by omega) (by omega)]
      exact h.lower k hrk hlt
  · intro k hjk hksu
    rw [hslot (by omega : r ≠ i) (by omega)]
    rcases Nat.eq_or_lt_of_le (by omega : j ≤ k) with rfl | hlt
    · rw [hright]
      exact hi
    · rw [hslot (by omega) (by omega)]
      exact h.upper k hlt hksu

theorem partition_spec (hr : 1 ≤ r) (hrsu : r ≤ su) (hsu : su ≤ m.size) (hguard : R.Guarded m r su) {fuel : ℕ}
    (hfuel : j + 1 - i < fuel) (hri : r < i) (hij : i ≤ j + 1) (hj : j ≤ su) (h : Scanned R m r su i j) :
    ∃ m' j', partition R (R.headAt m r) r su fuel m i j = some (m', j') ∧ r ≤ j' ∧ j' ≤ su ∧
      Moved (r + 1) (su + 1) m m' ∧ (∀ k, r < k → k ≤ j' → R.keyAt m' k ≤ R.keyAt m' r) ∧
      ∀ k, j' < k → k ≤ su → R.keyAt m' r ≤ R.keyAt m' k := by
  induction fuel generalizing m i j with
  | zero => omega
  | succ fuel ih =>
    obtain ⟨longword, hfirst, hle⟩ := hguard
    obtain ⟨i', hup, hi', hi'su, hlower, hstopi⟩ := scanUp_spec hr (hrsu.trans hsu) (by omega : 1 ≤ i)
      (by omega : i ≤ su + 1) hsu hfirst (hle r le_rfl hrsu)
    obtain ⟨j', hdown, hrj', hj', hupper, hstopj⟩ :=
      scanDown_spec (R := R) hr (by omega : r ≤ j) (hj.trans hsu)
    have hscanned : Scanned R m r su i' j' := by
      constructor
      · intro k hrk hk
        by_cases hki : k < i
        · exact h.lower k hrk hki
        · exact hlower k (Nat.le_of_not_lt hki) hk
      · intro k hk hksu
        by_cases hjk : j < k
        · exact h.upper k hjk hksu
        · exact hupper k hk (Nat.le_of_not_lt hjk)
    rw [partition, hup, Option.bind_some, hdown, Option.bind_some]
    by_cases hend : i' ≥ j'
    · rw [if_pos hend]
      refine ⟨m, j', rfl, hrj', hj'.trans hj, .refl _ _ _, fun k hrk hk => ?_, hscanned.upper⟩
      rcases Nat.eq_or_lt_of_le hk with rfl | hlt
      · exact hstopj
      · exact hscanned.lower k hrk (by omega)
    · have hlt : i' < j' := Nat.lt_of_not_le hend
      have hini : 1 ≤ i' ∧ i' ≤ m.size := by omega
      have hinj : 1 ≤ j' ∧ j' ≤ m.size := by omega
      have hmoved : Moved (r + 1) (su + 1) m (m.exchange i' j') :=
        moved_exchange hini hinj (by omega) (by omega)
      have hhead : R.headAt (m.exchange i' j') r = R.headAt m r :=
        congrArg (List.headD · 0) (keyAt_outside hmoved (.inl (Nat.lt_succ_self r)))
      have hnext := @ih (m.exchange i' j') (i' + 1) (j' - 1) hsu
        (Records.Guarded.moved ⟨longword, hfirst, hle⟩ hmoved (Nat.le_succ r) le_rfl) (by omega) (by omega)
        (by omega) (by omega) (hscanned.exchange (by omega) hlt (hstopi (by omega)) hstopj)
      rw [hhead] at hnext
      obtain ⟨m', j'', hpartition, hrj, hjsu, hmoved', hboth⟩ := hnext
      refine ⟨m', j'', ?_, hrj, hjsu, hmoved.trans hmoved', hboth⟩
      rw [if_neg hend, swap_eq hini hinj, Option.bind_some]
      exact hpartition

/-- The record of the slot that is returned divides the interval. -/
theorem divide_spec (hr : 1 ≤ r) (hlong : r + 2 ≤ su) (hsu : su ≤ m.size) (hguard : R.Guarded m r su) :
    ∃ m' j, divide R m r su = some (m', j) ∧ r ≤ j ∧ j ≤ su ∧ Moved r (su + 1) m m' ∧
      (∀ k, r ≤ k → k < j → R.keyAt m' k ≤ R.keyAt m' j) ∧
      ∀ k, j < k → k ≤ su → R.keyAt m' j ≤ R.keyAt m' k := by
  have hmiddle : 1 ≤ r + (su - r) / 2 ∧ r + (su - r) / 2 ≤ m.size := by omega
  have hrsize : 1 ≤ r ∧ r ≤ m.size := by omega
  have hmoved : Moved r (su + 1) m (m.exchange (r + (su - r) / 2) r) :=
    moved_exchange hmiddle hrsize (by omega) (by omega)
  rw [divide, swap_eq hmiddle hrsize, Option.bind_some]
  generalize m.exchange (r + (su - r) / 2) r = m₁ at hmoved ⊢
  have hsize := hmoved.size_eq
  obtain ⟨m₂, j, hpartition, hrj, hjsu, hmoved', hlower, hupper⟩ := @partition_spec _ R m₁ r su (r + 1) su _ hr
    (by omega) (by omega) (hguard.moved hmoved le_rfl le_rfl) (su + 1 - r) (by omega) (by omega) (by omega)
    le_rfl ⟨fun k hk hlt => by omega, fun k hk hle => by omega⟩
  have hsize' := hmoved'.size_eq
  have hr₂ : 1 ≤ r ∧ r ≤ m₂.size := by omega
  have hj₂ : 1 ≤ j ∧ j ≤ m₂.size := by omega
  have hleft : R.keyAt (m₂.exchange r j) r = R.keyAt m₂ j := congrArg R.key (exchange_left m₂ r j)
  have hright : R.keyAt (m₂.exchange r j) j = R.keyAt m₂ r := congrArg R.key (exchange_right m₂ r j)
  have hslot {k : ℕ} (hkr : k ≠ r) (hkj : k ≠ j) : R.keyAt (m₂.exchange r j) k = R.keyAt m₂ k :=
    congrArg R.key (exchange_of_ne hkr hkj)
  rw [first_of_le hr (by omega), Option.bind_some, hpartition, Option.bind_some]
  dsimp only
  rw [swap_eq hr₂ hj₂]
  refine ⟨m₂.exchange r j, j, rfl, hrj, hjsu, ?_, fun k hrk hkj => ?_, fun k hjk hk => ?_⟩
  · exact (hmoved.trans (hmoved'.mono (Nat.le_succ r) le_rfl)).trans
      (moved_exchange hr₂ hj₂ (by omega) (by omega))
  · rw [hright]
    rcases Nat.eq_or_lt_of_le hrk with rfl | hlt
    · rw [hleft]
      exact hlower j hkj le_rfl
    · rw [hslot (by omega) (by omega)]
      exact hlower k hlt hkj.le
  · rw [hright, hslot (by omega) (by omega)]
    exact hupper k hjk hk

end Dividing

/-! ## Sorting -/

section Sorting
variable {n : ℕ}

/-- The keys of the records in some slots. -/
def keys (R : Records ρ) (m : Pointers ρ) (lo count : ℕ) : List (List ULONG) := elements (R.keyAt m) lo count

theorem keys_congr {lo count : ℕ} (h : ∀ k, lo ≤ k → k < lo + count → m'.slots k = m.slots k) :
    keys R m' lo count = keys R m lo count :=
  elements_congr fun k hk hlt => congrArg R.key (h k hk hlt)

/-- Keys that are paired on both sides of a record are paired together. -/
theorem paired_join {left right : ℕ} {pivot : List ULONG} (hpivot : R.keyAt m (r + left) = pivot)
    (hleft : Paired (keys R m r left)) (hright : Paired (keys R m (r + left + 1) right))
    (hlower : ∀ k, r ≤ k → k < r + left → R.keyAt m k ≤ pivot)
    (hupper : ∀ k, r + left + 1 ≤ k → k < r + left + 1 + right → pivot ≤ R.keyAt m k) :
    Paired (keys R m r (left + (right + 1))) := by
  rw [keys, elements_add, elements_succ, hpivot]
  apply hleft.append
  · apply Paired.one
    · intro z hz
      obtain ⟨k, hk, hlt, rfl⟩ := Slots.mem_elements.1 hz
      exact hupper k hk hlt
    · exact hright
  · intro x hx y hy
    obtain ⟨k, hk, hlt, rfl⟩ := Slots.mem_elements.1 hx
    rcases List.mem_cons.1 hy with rfl | hy
    · exact hlower k hk hlt
    · obtain ⟨k', hk', hlt', rfl⟩ := Slots.mem_elements.1 hy
      exact (hlower k hk hlt).trans (hupper k' hk' hlt')

variable [DecidableEq ρ]

/-- An interval is taken from the stacks, and its records are paired in the end. -/
def Settles (R : Records ρ) (m : Pointers ρ) (r n : ℕ) (stack : List (ℕ × ℕ)) : Prop :=
  ∃ m' steps, steps ≤ 2 * n + 1 ∧
    (∀ fuel, quick R (fuel + steps) m ((r, r + n - 1) :: stack) = quick R fuel m' stack) ∧
    Moved r (r + n) m m' ∧ Paired (keys R m' r n)

/-- Intervals of one or two records, and empty ones, stay as they are. -/
theorem settles_short (hr : 1 ≤ r) (hn : n ≤ 2) (stack : List (ℕ × ℕ)) : Settles R m r n stack := by
  refine ⟨m, 1, by omega, fun fuel => ?_, .refl _ _ _, Slots.paired_of_length_le ?_⟩
  · rw [quick, if_pos (by omega)]
  · rw [keys, length_elements]
    exact hn

theorem longer_fits {a n d : ℕ} (ha : a ≤ n) (h : n * 2 ^ d < 2 ^ 31) : a * 2 ^ d < 2 ^ 31 :=
  (Nat.mul_le_mul_right _ ha).trans_lt h

/-- An interval of half the size at most leaves room for another one below it. -/
theorem shorter_fits {a n d : ℕ} (ha : 2 * a ≤ n) (h : n * 2 ^ d < 2 ^ 31) : a * 2 ^ (d + 1) < 2 ^ 31 := by
  rw [pow_succ', ← Nat.mul_assoc, Nat.mul_comm a 2]
  exact longer_fits ha h

/-- As intervals on the stacks are halved at least, their sizes bound their number. -/
theorem quick_spec (hr : 1 ≤ r) (hsize : r + n ≤ m.size + 1) (hguard : R.Guarded m r (r + n - 1))
    (stack : List (ℕ × ℕ)) (hstack : n * 2 ^ stack.length < 2 ^ 31) : Settles R m r n stack := by
  induction n using Nat.strong_induction_on generalizing m r stack with
  | _ n ih =>
    by_cases hshort : n ≤ 2
    · exact settles_short hr hshort stack
    · have hdepth : stack.length + 2 ≤ STACK_SIZE := by
        by_contra hdeep
        have hpow : 2 ^ 31 ≤ 2 ^ stack.length :=
          Nat.pow_le_pow_right (by norm_num) (by unfold STACK_SIZE at hdeep; omega)
        have hmul : 2 ^ stack.length ≤ n * 2 ^ stack.length := Nat.le_mul_of_pos_left _ (by omega)
        omega
      obtain ⟨m₁, j, hdivide, hrj, hjsu, hmoved, hlower, hupper⟩ :=
        divide_spec hr (by omega : r + 2 ≤ r + n - 1) (by omega) hguard
      obtain ⟨left, rfl⟩ := Nat.exists_eq_add_of_le hrj
      obtain ⟨right, hright⟩ := Nat.exists_eq_add_of_le (by omega : left + 1 ≤ n)
      obtain rfl : n = left + (right + 1) := by omega
      have hsize₁ := hmoved.size_eq
      have hend : r + (left + (right + 1)) - 1 = r + left + 1 + right - 1 := by omega
      have hend' : r + (left + (right + 1)) - 1 + 1 = r + (left + (right + 1)) := by omega
      rw [hend'] at hmoved
      -- both parts, on whatever is on the stacks
      have hleftGuard {m₂ : Pointers ρ} (h₂ : Moved (r + left + 1) (r + (left + (right + 1))) m₁ m₂) :
          R.Guarded m₂ r (r + left - 1) := by
        have hsize₂ := h₂.size_eq
        apply guarded_of_key_le (by omega) (by omega)
        intro k hk hlt
        rw [show r + left - 1 + 1 = r + left by omega, keyAt_outside h₂ (by omega),
          keyAt_outside h₂ (by omega)]
        exact hlower k hk (by omega)
      have hrightGuard {m₂ : Pointers ρ} (h₂ : Moved r (r + left) m₁ m₂) :
          R.Guarded m₂ (r + left + 1) (r + left + 1 + right - 1) := by
        have hguard₁ : R.Guarded m₁ r (r + (left + (right + 1)) - 1) := by
          apply hguard.moved hmoved le_rfl
          omega
        obtain ⟨longword, hfirst, hle⟩ := hguard₁.moved h₂ le_rfl (by omega)
        rw [hend] at hfirst hle
        exact ⟨longword, hfirst, fun k hk hlt => hle k (by omega) hlt⟩
      have hif : (r + left - r > r + (left + (right + 1)) - 1 - (r + left) + 1) ↔ left > right + 1 := by omega
      by_cases hlonger : left > right + 1
      · -- the right part first
        obtain ⟨m₂, steps₂, hsteps₂, hrun₂, hmoved₂, hpaired₂⟩ := @ih right (by omega) m₁ (r + left + 1)
          (by omega) (by omega) (hrightGuard (.refl _ _ _)) ((r, r + left - 1) :: stack)
          (shorter_fits (by omega) hstack)
        have hsize₂ := hmoved₂.size_eq
        obtain ⟨m₃, steps₃, hsteps₃, hrun₃, hmoved₃, hpaired₃⟩ := @ih left (by omega) m₂ r hr (by omega)
          (hleftGuard (hmoved₂.mono le_rfl (by omega))) stack (longer_fits (by omega) hstack)
        refine ⟨m₃, steps₃ + steps₂ + 1, by omega, fun fuel => ?_, ?_, ?_⟩
        · rw [← Nat.add_assoc, quick, if_neg (by omega), hdivide, Option.bind_some]
          dsimp only
          rw [if_neg (by omega), if_pos (hif.2 hlonger), ← Nat.add_assoc, hend, hrun₂, hrun₃]
        · exact (hmoved.trans (hmoved₂.mono (by omega) (by omega))).trans (hmoved₃.mono le_rfl (by omega))
        · have hslots : ∀ k, r + left ≤ k → m₃.slots k = m₂.slots k :=
            fun k hk => hmoved₃.rearranged.outside (.inr hk)
          have hpivot : R.keyAt m₃ (r + left) = R.keyAt m₁ (r + left) := by
            rw [keyAt, hslots _ le_rfl, hmoved₂.rearranged.outside (.inl (Nat.lt_succ_self _)), keyAt]
          apply paired_join hpivot hpaired₃
          · rw [keys_congr fun k hk _ => hslots k (by omega)]
            exact hpaired₂
          · apply hmoved₃.rearranged.forall (P := fun p => R.key p ≤ R.keyAt m₁ (r + left))
            intro k hk hlt
            rw [hmoved₂.rearranged.outside (.inl (by omega))]
            exact hlower k hk hlt
          · intro k hk hlt
            change R.keyAt m₁ (r + left) ≤ R.key (m₃.slots k)
            rw [hslots k (by omega)]
            apply hmoved₂.rearranged.forall (P := fun p => R.keyAt m₁ (r + left) ≤ R.key p) _ k hk hlt
            intro k hk hlt
            exact hupper k (by omega) (by omega)
      · -- the left part first
        obtain ⟨m₂, steps₂, hsteps₂, hrun₂, hmoved₂, hpaired₂⟩ := @ih left (by omega) m₁ r hr (by omega)
          (hleftGuard (.refl _ _ _)) ((r + left + 1, r + left + 1 + right - 1) :: stack)
          (shorter_fits (by omega) hstack)
        have hsize₂ := hmoved₂.size_eq
        obtain ⟨m₃, steps₃, hsteps₃, hrun₃, hmoved₃, hpaired₃⟩ := @ih right (by omega) m₂ (r + left + 1)
          (by omega) (by omega) (hrightGuard hmoved₂) stack (longer_fits (by omega) hstack)
        refine ⟨m₃, steps₃ + steps₂ + 1, by omega, fun fuel => ?_, ?_, ?_⟩
        · rw [← Nat.add_assoc, quick, if_neg (by omega), hdivide, Option.bind_some]
          dsimp only
          rw [if_neg (by omega), if_neg (fun h => hlonger (hif.1 h)), ← Nat.add_assoc, hend, hrun₂, hrun₃]
        · exact (hmoved.trans (hmoved₂.mono le_rfl (by omega))).trans (hmoved₃.mono (by omega) (by omega))
        · have hslots : ∀ k, k < r + left + 1 → m₃.slots k = m₂.slots k :=
            fun k hk => hmoved₃.rearranged.outside (.inl hk)
          have hpivot : R.keyAt m₃ (r + left) = R.keyAt m₁ (r + left) := by
            rw [keyAt, hslots _ (Nat.lt_succ_self _), hmoved₂.rearranged.outside (.inr le_rfl), keyAt]
          apply paired_join hpivot _ hpaired₃
          · intro k hk hlt
            rw [keyAt, hslots k (by omega)]
            apply hmoved₂.rearranged.forall (P := fun p => R.key p ≤ R.keyAt m₁ (r + left)) _ k hk hlt
            exact fun k hk hlt => hlower k hk hlt
          · apply hmoved₃.rearranged.forall (P := fun p => R.keyAt m₁ (r + left) ≤ R.key p)
            intro k hk hlt
            rw [hmoved₂.rearranged.outside (.inr (by omega))]
            exact hupper k (by omega) (by omega)
          · rw [keys_congr fun k hk hlt => hslots k (by omega)]
            exact hpaired₂

/-- The pass over the pairs. -/
theorem pairs_spec {count : ℕ} (hi : 1 ≤ i) (hsize : i + count ≤ m.size)
    (hpaired : Paired (keys R m i (count + 1))) :
    ∃ m', pairs R count m i = some m' ∧ Moved i (i + (count + 1)) m m' ∧
      (keys R m' i (count + 1)).Pairwise (· ≤ ·) := by
  induction count generalizing m i with
  | zero => exact ⟨m, rfl, .refl _ _ _, by simp [keys, elements_succ]⟩
  | succ count ih =>
    have hini : 1 ≤ i ∧ i ≤ m.size := by omega
    have hnext : 1 ≤ i + 1 ∧ i + 1 ≤ m.size := by omega
    have hkeys : keys R m i (count + 1 + 1) =
        R.keyAt m i :: R.keyAt m (i + 1) :: keys R m (i + 1 + 1) count := by
      rw [keys, elements_succ, elements_succ, keys]
    rw [hkeys] at hpaired
    -- what is left to do behind the first of the pair, and what comes of it
    have hrest {m₁ : Pointers ρ} (hmoved : Moved i (i + (count + 1 + 1)) m m₁)
        (hpaired₁ : Paired (keys R m₁ (i + 1) (count + 1)))
        (hle : ∀ z ∈ keys R m₁ (i + 1) (count + 1), R.keyAt m₁ i ≤ z) :
        ∃ m', pairs R count m₁ (i + 1) = some m' ∧ Moved i (i + (count + 1 + 1)) m m' ∧
          (keys R m' i (count + 1 + 1)).Pairwise (· ≤ ·) := by
      have hsize₁ := hmoved.size_eq
      obtain ⟨m', hpass, hmoved', hsorted⟩ := @ih m₁ (i + 1) hnext.1 (by omega) hpaired₁
      have hfirst : R.keyAt m' i = R.keyAt m₁ i := keyAt_outside hmoved' (.inl (Nat.lt_succ_self i))
      refine ⟨m', hpass, hmoved.trans (hmoved'.mono (Nat.le_succ i) (by omega)), ?_⟩
      rw [keys, elements_succ, List.pairwise_cons, hfirst]
      refine ⟨fun z hz => ?_, hsorted⟩
      obtain ⟨k, hk, hlt, rfl⟩ := Slots.mem_elements.1 hz
      apply hmoved'.rearranged.forall (P := fun p => R.keyAt m₁ i ≤ R.key p) _ k hk (by omega)
      exact fun k hk hlt => hle _ (Slots.mem_elements.2 ⟨k, hk, by omega, rfl⟩)
    rw [pairs, record_of_le hini.1 hini.2, record_of_le hnext.1 hnext.2]
    dsimp only
    by_cases hswap : (R.key (m.slots i)).headD 0 ≥ (R.key (m.slots (i + 1))).headD 0 ∧
        R.lessThan m (m.slots (i + 1)) (m.slots i) = true
    · rw [if_pos hswap, swap_eq hini hnext, Option.bind_some]
      have hbehind : keys R (m.exchange i (i + 1)) (i + 1 + 1) count = keys R m (i + 1 + 1) count :=
        keys_congr fun k hk _ => exchange_of_ne (by omega) (by omega)
      have hleft : R.keyAt (m.exchange i (i + 1)) i = R.keyAt m (i + 1) := congrArg R.key (exchange_left m i _)
      have hright : R.keyAt (m.exchange i (i + 1)) (i + 1) = R.keyAt m i :=
        congrArg R.key (exchange_right m i _)
      obtain ⟨hpaired₁, hle⟩ := hpaired.front_swapped (key_le_of_lessThan hswap.2)
      have hfront : keys R (m.exchange i (i + 1)) (i + 1) (count + 1) =
          R.keyAt m i :: keys R m (i + 1 + 1) count := by
        rw [keys, elements_succ, hright, ← keys, hbehind]
      refine hrest (moved_exchange hini hnext (by omega) (by omega)) ?_ ?_
      · rw [hfront]
        exact hpaired₁
      · rw [hfront, hleft]
        exact hle
    · rw [if_neg hswap]
      have hle : R.keyAt m i ≤ R.keyAt m (i + 1) := by
        by_cases hhead : (R.key (m.slots i)).headD 0 ≥ (R.key (m.slots (i + 1))).headD 0
        · exact key_le_of_not_lessThan (Bool.eq_false_iff.2 fun hless => hswap ⟨hhead, hless⟩)
        · exact key_le_of_head_lt (lt_of_not_ge hhead)
      obtain ⟨hpaired₁, hall⟩ := hpaired.front hle
      have hfront : keys R m (i + 1) (count + 1) = R.keyAt m (i + 1) :: keys R m (i + 1 + 1) count := by
        rw [keys, elements_succ, keys]
      refine hrest (.refl _ _ _) ?_ ?_
      · rw [hfront]
        exact hpaired₁
      · rw [hfront]
        exact hall

end Sorting

/-- The pointers are sorted in place, and lead back from their records, for every number of records that a
longword counts. No scan leaves the guards, and the stacks have room. -/
theorem sort_sorts [DecidableEq ρ] (R : Records ρ) (m : Pointers ρ) (hm : m.Addressed) (hsize : m.size < 2 ^ 31)
    {fuel : ℕ} (hfuel : 2 * m.size + 2 ≤ fuel) :
    ∃ m', sort R fuel m = some m' ∧ m'.size = m.size ∧
      (elements m'.slots 1 m.size).Perm (elements m.slots 1 m.size) ∧
      ((elements m'.slots 1 m.size).map R.key).Pairwise (· ≤ ·) ∧ m'.Addressed := by
  have hguard : R.Guarded m 1 (1 + m.size - 1) := by
    rw [Nat.add_sub_cancel_left]
    exact guarded_all R m
  obtain ⟨m₁, steps, hsteps, hrun, hmoved, hpaired⟩ :=
    quick_spec le_rfl (by omega) hguard [] (by simpa using hsize)
  obtain ⟨more, rfl⟩ := Nat.exists_eq_add_of_le (by omega : 1 + steps ≤ fuel)
  have hquick : quick R (1 + steps + more) m [(1, m.size)] = some m₁ := by
    have h := hrun (more + 1)
    rw [Nat.add_sub_cancel_left] at h
    rw [show 1 + steps + more = more + 1 + steps by omega, h]
    rfl
  have hsize₁ := hmoved.size_eq
  have hmap (m₂ : Pointers ρ) : (elements m₂.slots 1 m.size).map R.key = keys R m₂ 1 m.size := by
    rw [elements, List.map_map]
    rfl
  rw [sort, hquick, Option.bind_some, hsize₁]
  have hpass : ∃ m', pairs R (m.size - 1) m₁ 1 = some m' ∧ Moved 1 (1 + m.size) m₁ m' ∧
      (keys R m' 1 m.size).Pairwise (· ≤ ·) := by
    by_cases hzero : m.size = 0
    · rw [hzero]
      exact ⟨m₁, rfl, .refl _ _ _, List.Pairwise.nil⟩
    · have hsucc : m.size - 1 + 1 = m.size := by omega
      have h := @pairs_spec _ R m₁ 1 _ (m.size - 1) le_rfl (by omega) (by rwa [hsucc])
      rwa [hsucc] at h
  obtain ⟨m', hpairs, hmoved', hsorted⟩ := hpass
  have hall := hmoved.trans hmoved'
  refine ⟨m', hpairs, hall.size_eq, hall.rearranged.perm, ?_, hall.addressed hm⟩
  rw [hmap]
  exact hsorted

/-- Three records of one longword, two of which are all ones. -/
def threeRecords : Records ℕ where
  longs := 1
  key p := [if p = 1 then 7 else MAX_ULONG]
  beyond _ _ := 0
  longs_pos := Nat.one_pos
  key_length _ := rfl

def threePointers : Pointers ℕ := ⟨3, id, id⟩

theorem sort_sorts_three : ∃ m', sort threeRecords 8 threePointers = some m' ∧ m'.size = 3 ∧
    (elements m'.slots 1 3).Perm [1, 2, 3] ∧
    ((elements m'.slots 1 3).map threeRecords.key).Pairwise (· ≤ ·) ∧ m'.Addressed :=
  sort_sorts threeRecords threePointers (fun _ _ _ => rfl) (by decide) le_rfl

end FirebirdCore.Sort
