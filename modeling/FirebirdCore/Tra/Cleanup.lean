import FirebirdCore.Tra.TipCache
import Mathlib.Data.Fintype.Basic

/-!
# Transactions that a crash left active

When a database is opened exclusively, `TRA_cleanup` walks the inventory pages from the oldest active
transaction to the next one and declares the active ones dead.
-/
namespace FirebirdCore.Tra

/-! ## The states of a byte -/

/-- The two bits of a byte for one of its four transactions. -/
def stateBits (byte : UInt8) (number : ℕ) : ℕ := byte.toNat >>> transShift number &&& 3

/-- The byte with other bits for one of them. -/
def setStateBits (byte : UInt8) (number state : ℕ) : UInt8 :=
  (byte &&& ~~~UInt8.ofNat (3 <<< transShift number)) ||| UInt8.ofNat (state <<< transShift number)

theorem transShift_mod (number : ℕ) : transShift (number % 4) = transShift number := by
  unfold transShift
  have hmask (n : ℕ) : n &&& 3 = n % 4 := Nat.and_two_pow_sub_one_eq_mod n 2
  rw [hmask, hmask, Nat.mod_mod]

theorem stateBits_setStateBits_fin : ∀ (byte : Fin 256) (i k state : Fin 4),
    stateBits (setStateBits (UInt8.ofNat byte) i state) k =
      if k = i then state.val else stateBits (UInt8.ofNat byte) k := by
  decide +kernel

theorem stateBits_setStateBits (byte : UInt8) (i k : ℕ) {state : ℕ} (h : state < 4) :
    stateBits (setStateBits byte i state) k = if k % 4 = i % 4 then state else stateBits byte k := by
  have hbits := stateBits_setStateBits_fin ⟨byte.toNat, byte.toNat_lt⟩ ⟨i % 4, Nat.mod_lt _ (by decide)⟩
    ⟨k % 4, Nat.mod_lt _ (by decide)⟩ ⟨state, h⟩
  rw [UInt8.ofNat_toNat] at hbits
  simp only [stateBits, setStateBits, transShift_mod, Fin.mk.injEq] at hbits ⊢
  exact hbits

theorem transOffset_eq (number : ℕ) : transOffset number = number / 4 := Nat.shiftRight_eq_div_pow ..

/-! ## The walk -/

/-- The memory from `tip_transactions` on, for the page of each sequence number, with what lies behind
the page, and where it was accessed. -/
structure TipMemory where
  bytes : ℕ → ℕ → UInt8
  touched : List (ℕ × ℕ)

namespace TipMemory

/-- The state with an index on a page. -/
def stateAt (mem : TipMemory) (sequence index : ℕ) : ℕ :=
  stateBits (mem.bytes sequence (transOffset index)) index

/-- The state of a transaction. -/
def state (m : PageManager) (mem : TipMemory) (number : ℕ) : TraState :=
  .ofBits (mem.stateAt (number / m.transPerTIP) (number % m.transPerTIP))

/-- What becomes of an active transaction: the system transaction is committed. -/
def doomed (sequence number : ℕ) : TraState :=
  if sequence = 0 ∧ number = 0 then .committed else .dead

/-- One transaction of a page. -/
def cleanupNumber (sequence number : ℕ) (mem : TipMemory) : TipMemory :=
  let offset := transOffset number
  let byte := mem.bytes sequence offset
  let touched := mem.touched ++ [(sequence, offset)]
  if stateBits byte number = TraState.active.toNat then
    { bytes := fun s o =>
        if s = sequence ∧ o = offset then setStateBits byte number (doomed sequence number).toNat
        else mem.bytes s o
      touched := touched }
  else { mem with touched := touched }

/-- Some transactions of a page, from `number` on. -/
def cleanupNumbers (sequence : ℕ) : ℕ → ℕ → TipMemory → TipMemory
  | _, 0, mem => mem
  | number, count + 1, mem =>
      cleanupNumbers sequence (number + 1) count (cleanupNumber sequence number mem)

/-- The last number that is looked at on a page. -/
def lastOnPage (m : PageManager) (ceiling sequence : ℕ) : ℕ :=
  let max := ceiling - sequence * m.transPerTIP
  if max > m.transPerTIP then m.transPerTIP - 1 else max

/-- Some pages, the first one from `number` on. -/
def cleanupPages (m : PageManager) (ceiling : ℕ) : ℕ → ℕ → ℕ → TipMemory → TipMemory
  | _, _, 0, mem => mem
  | sequence, number, count + 1, mem =>
      cleanupPages m ceiling (sequence + 1) 0 count
        (cleanupNumbers sequence number (lastOnPage m ceiling sequence + 1 - number) mem)

end TipMemory

/-- What `TRA_cleanup` looks at before the pages. -/
structure CleanupHeader where
  readOnly : Bool
  /-- Which attachments have transactions. -/
  attTransactions : List Bool
  nextTransaction : ℕ
  oldestActive : ℕ

/-- `TRA_cleanup`. Page sequences have 32 bits. If the last one is the greatest of them, the loop does not
end. -/
def traCleanup (m : PageManager) (header : CleanupHeader) (mem : TipMemory) : Option TipMemory :=
  if header.readOnly then some mem
  else if header.attTransactions.any id then some mem
  else
    let ceiling := header.nextTransaction
    let active := header.oldestActive
    if ceiling = 0 then some mem
    else
      let last := ceiling / m.transPerTIP % 2 ^ 32
      let sequence := active / m.transPerTIP % 2 ^ 32
      if last = 2 ^ 32 - 1 then none
      else
        some (mem.cleanupPages m ceiling sequence (active % m.transPerTIP) (last + 1 - sequence))

/-! ## What the walk does -/

namespace TipMemory

variable {m : PageManager} {mem : TipMemory} {ceiling sequence number count s i : ℕ}

/-- The state that an index has after it was looked at. -/
def cleaned (sequence index state : ℕ) : ℕ :=
  if state = TraState.active.toNat then (doomed sequence index).toNat else state

theorem doomed_lt (sequence number : ℕ) : (doomed sequence number).toNat < 4 := by
  unfold doomed
  split_ifs <;> decide

theorem cleanupNumber_stateAt :
    (cleanupNumber sequence number mem).stateAt s i =
      if s = sequence ∧ i = number then cleaned sequence number (mem.stateAt s i) else mem.stateAt s i := by
  rw [cleanupNumber]
  by_cases hactive : stateBits (mem.bytes sequence (transOffset number)) number = TraState.active.toNat
  · rw [if_pos hactive]
    unfold stateAt
    dsimp only
    by_cases hbyte : s = sequence ∧ transOffset i = transOffset number
    · obtain ⟨rfl, hoffset⟩ := hbyte
      rw [if_pos ⟨rfl, hoffset⟩, stateBits_setStateBits _ _ _ (doomed_lt s number), hoffset]
      rw [transOffset_eq, transOffset_eq] at hoffset
      by_cases hi : i = number
      · subst hi
        rw [if_pos rfl, if_pos ⟨rfl, rfl⟩, cleaned, if_pos hactive]
      · rw [if_neg (by omega), if_neg (by tauto)]
    · rw [if_neg hbyte, if_neg]
      rintro ⟨rfl, rfl⟩
      exact hbyte ⟨rfl, rfl⟩
  · rw [if_neg hactive]
    split_ifs with hat
    · obtain ⟨rfl, rfl⟩ := hat
      exact (if_neg hactive).symm
    · rfl

theorem cleanupNumber_touched :
    (cleanupNumber sequence number mem).touched = mem.touched ++ [(sequence, transOffset number)] := by
  rw [cleanupNumber]
  split_ifs <;> rfl

/-- A byte that is not accessed stays. -/
theorem cleanupNumber_bytes {o : ℕ} (h : (s, o) ≠ (sequence, transOffset number)) :
    (cleanupNumber sequence number mem).bytes s o = mem.bytes s o := by
  rw [cleanupNumber]
  split_ifs with hactive
  · refine if_neg ?_
    rintro ⟨rfl, rfl⟩
    exact h rfl
  · rfl

theorem cleanupNumbers_stateAt :
    (cleanupNumbers sequence number count mem).stateAt s i =
      if s = sequence ∧ number ≤ i ∧ i < number + count then cleaned s i (mem.stateAt s i)
      else mem.stateAt s i := by
  induction count generalizing number mem with
  | zero =>
    rw [cleanupNumbers, if_neg (by omega)]
  | succ count ih =>
    rw [cleanupNumbers, ih, cleanupNumber_stateAt]
    by_cases hat : s = sequence ∧ i = number
    · obtain ⟨rfl, rfl⟩ := hat
      rw [if_neg (by omega), if_pos ⟨rfl, rfl⟩, if_pos ⟨rfl, le_rfl, by omega⟩]
    · rw [if_neg hat]
      congr 1
      rw [eq_iff_iff]
      constructor
      · rintro ⟨rfl, hle, hlt⟩
        exact ⟨rfl, by omega, by omega⟩
      · rintro ⟨rfl, hle, hlt⟩
        refine ⟨rfl, ?_, by omega⟩
        have hne : i ≠ number := fun heq => hat ⟨rfl, heq⟩
        omega

theorem mem_touched_cleanupNumbers {access : ℕ × ℕ} :
    access ∈ (cleanupNumbers sequence number count mem).touched ↔
      access ∈ mem.touched ∨
        ∃ i, number ≤ i ∧ i < number + count ∧ access = (sequence, transOffset i) := by
  induction count generalizing number mem with
  | zero =>
    rw [cleanupNumbers]
    refine (or_iff_left ?_).symm
    rintro ⟨i, hle, hlt, -⟩
    omega
  | succ count ih =>
    rw [cleanupNumbers, ih, cleanupNumber_touched, List.mem_append, List.mem_singleton, or_assoc]
    refine or_congr_right ?_
    constructor
    · rintro (rfl | ⟨i, hle, hlt, rfl⟩)
      · exact ⟨number, le_rfl, by omega, rfl⟩
      · exact ⟨i, by omega, by omega, rfl⟩
    · rintro ⟨i, hle, hlt, rfl⟩
      obtain rfl | hne := eq_or_ne i number
      · exact .inl rfl
      · exact .inr ⟨i, by omega, by omega, rfl⟩

theorem cleanupNumbers_bytes {o : ℕ}
    (h : (s, o) ∉ (cleanupNumbers sequence number count mem).touched) :
    (cleanupNumbers sequence number count mem).bytes s o = mem.bytes s o := by
  induction count generalizing number mem with
  | zero => rfl
  | succ count ih =>
    rw [cleanupNumbers] at h ⊢
    rw [ih h]
    refine cleanupNumber_bytes fun heq => h ?_
    rw [mem_touched_cleanupNumbers, cleanupNumber_touched]
    exact .inl (by simp [heq])

/-- The index of a page that the walk comes to, when it has `count` pages from `sequence` on before it and
begins at `number` on the first of them. -/
structure Comes (m : PageManager) (ceiling sequence number count s i : ℕ) : Prop where
  first : sequence ≤ s
  last : s < sequence + count
  start : s = sequence → number ≤ i
  stop : i ≤ lastOnPage m ceiling s

theorem comes_succ : Comes m ceiling sequence number (count + 1) s i ↔
    (s = sequence ∧ number ≤ i ∧ i ≤ lastOnPage m ceiling sequence) ∨
      Comes m ceiling (sequence + 1) 0 count s i := by
  constructor
  · rintro ⟨hfirst, hlast, hstart, hstop⟩
    obtain rfl | hne := eq_or_ne s sequence
    · exact .inl ⟨rfl, hstart rfl, hstop⟩
    · exact .inr ⟨by omega, by omega, fun _ => Nat.zero_le _, hstop⟩
  · rintro (⟨rfl, hle, hstop⟩ | ⟨hfirst, hlast, -, hstop⟩)
    · exact ⟨le_rfl, by omega, fun _ => hle, hstop⟩
    · exact ⟨by omega, by omega, fun heq => by omega, hstop⟩

theorem not_comes_zero : ¬ Comes m ceiling sequence number 0 s i := by
  rintro ⟨hfirst, hlast, -, -⟩
  omega

open Classical in
theorem cleanupPages_stateAt :
    (cleanupPages m ceiling sequence number count mem).stateAt s i =
      if Comes m ceiling sequence number count s i then cleaned s i (mem.stateAt s i)
      else mem.stateAt s i := by
  induction count generalizing sequence number mem with
  | zero => rw [cleanupPages, if_neg not_comes_zero]
  | succ count ih =>
    rw [cleanupPages, ih, cleanupNumbers_stateAt]
    by_cases hpage : s = sequence ∧ number ≤ i ∧ i ≤ lastOnPage m ceiling sequence
    · have hlater : ¬ Comes m ceiling (sequence + 1) 0 count s i := by
        intro hcomes
        have hfirst := hcomes.first
        omega
      rw [if_neg hlater, if_pos ⟨hpage.1, hpage.2.1, by omega⟩, if_pos (comes_succ.2 (.inl hpage))]
    · have hhere : ¬ (s = sequence ∧ number ≤ i ∧
          i < number + (lastOnPage m ceiling sequence + 1 - number)) :=
        fun hcon => hpage ⟨hcon.1, hcon.2.1, by omega⟩
      simp only [if_neg hhere, comes_succ, or_iff_right hpage]

theorem mem_touched_cleanupPages {access : ℕ × ℕ} :
    access ∈ (cleanupPages m ceiling sequence number count mem).touched ↔
      access ∈ mem.touched ∨
        ∃ s i, Comes m ceiling sequence number count s i ∧ access = (s, transOffset i) := by
  induction count generalizing sequence number mem with
  | zero =>
    rw [cleanupPages]
    refine (or_iff_left ?_).symm
    rintro ⟨s, i, hcomes, -⟩
    exact not_comes_zero hcomes
  | succ count ih =>
    rw [cleanupPages, ih, mem_touched_cleanupNumbers, or_assoc]
    refine or_congr_right ?_
    constructor
    · rintro (⟨i, hle, hlt, rfl⟩ | ⟨s, i, hcomes, rfl⟩)
      · exact ⟨sequence, i, comes_succ.2 (.inl ⟨rfl, hle, by omega⟩), rfl⟩
      · exact ⟨s, i, comes_succ.2 (.inr hcomes), rfl⟩
    · rintro ⟨s, i, hcomes, rfl⟩
      obtain ⟨rfl, hle, hstop⟩ | hcomes := comes_succ.1 hcomes
      · exact .inl ⟨i, hle, by omega, rfl⟩
      · exact .inr ⟨s, i, hcomes, rfl⟩

theorem cleanupPages_bytes {o : ℕ}
    (h : (s, o) ∉ (cleanupPages m ceiling sequence number count mem).touched) :
    (cleanupPages m ceiling sequence number count mem).bytes s o = mem.bytes s o := by
  induction count generalizing sequence number mem with
  | zero => rfl
  | succ count ih =>
    rw [cleanupPages] at h ⊢
    rw [ih h]
    refine cleanupNumbers_bytes fun hmem => h ?_
    rw [mem_touched_cleanupPages]
    exact .inl hmem

end TipMemory

/-! ## Which transactions these are -/

section Range

variable (m : PageManager) (active ceiling number : ℕ)

theorem active_le_iff : active ≤ number ↔ active / m.transPerTIP ≤ number / m.transPerTIP ∧
    (number / m.transPerTIP = active / m.transPerTIP →
      active % m.transPerTIP ≤ number % m.transPerTIP) := by
  have hactive := Nat.div_add_mod active m.transPerTIP
  have hnumber := Nat.div_add_mod number m.transPerTIP
  have hlt := Nat.mod_lt active m.transPerTIP_pos
  constructor
  · intro h
    refine ⟨Nat.div_le_div_right h, fun heq => ?_⟩
    rw [heq] at hnumber
    omega
  · rintro ⟨hle, hmod⟩
    obtain heq | hgt := hle.eq_or_lt
    · have hmod := hmod heq.symm
      rw [heq] at hactive
      omega
    · have hmul := Nat.mul_le_mul_left m.transPerTIP (Nat.succ_le_of_lt hgt)
      rw [Nat.mul_succ] at hmul
      omega

theorem le_ceiling_iff : number ≤ ceiling ↔ number / m.transPerTIP ≤ ceiling / m.transPerTIP ∧
    number % m.transPerTIP ≤ TipMemory.lastOnPage m ceiling (number / m.transPerTIP) := by
  have hnumber := Nat.div_add_mod number m.transPerTIP
  have hlt := Nat.mod_lt number m.transPerTIP_pos
  have hpos := m.transPerTIP_pos
  rw [Nat.mul_comm] at hnumber
  rw [TipMemory.lastOnPage, Nat.le_div_iff_mul_le hpos]
  constructor
  · intro h
    refine ⟨by omega, ?_⟩
    split_ifs <;> omega
  · rintro ⟨hle, hstop⟩
    split_ifs at hstop <;> omega

/-- The walk comes to a transaction if and only if it is between the two. -/
theorem comes_iff : TipMemory.Comes m ceiling (active / m.transPerTIP) (active % m.transPerTIP)
      (ceiling / m.transPerTIP + 1 - active / m.transPerTIP) (number / m.transPerTIP)
      (number % m.transPerTIP) ↔ active ≤ number ∧ number ≤ ceiling := by
  rw [active_le_iff m active number, le_ceiling_iff m ceiling number]
  constructor
  · rintro ⟨hfirst, hlast, hstart, hstop⟩
    exact ⟨⟨hfirst, hstart⟩, by omega, hstop⟩
  · rintro ⟨⟨hfirst, hstart⟩, hlast, hstop⟩
    exact ⟨hfirst, by omega, hstart, hstop⟩

/-- The walk leaves the bytes of a page where `ceiling` is the first transaction of the next one. -/
theorem lastOnPage_lt_iff {s : ℕ} (hs : s ≤ ceiling / m.transPerTIP) :
    transOffset (TipMemory.lastOnPage m ceiling s) < m.tipBytes ↔ ceiling ≠ (s + 1) * m.transPerTIP := by
  have hpos := m.pos
  have htrans : m.transPerTIP = m.tipBytes * 4 := rfl
  rw [Nat.le_div_iff_mul_le m.transPerTIP_pos] at hs
  rw [TipMemory.lastOnPage, transOffset_eq, Nat.add_mul, Nat.one_mul]
  split_ifs <;> omega

end Range

/-! ## The result -/

/-- What the clean-up is for: the active transactions from the oldest one to the next one are dead, all
others keep their states, and nothing but the states on the pages of these is accessed. -/
structure CleansUp (m : PageManager) (active ceiling : ℕ) (before after : TipMemory) : Prop where
  states : ∀ number, after.state m number =
    if active ≤ number ∧ number ≤ ceiling ∧ before.state m number = .active then
      if number = 0 then .committed else .dead
    else before.state m number
  inside : ∀ access ∈ after.touched, active / m.transPerTIP ≤ access.1 ∧
    access.1 ≤ ceiling / m.transPerTIP ∧ access.2 < m.tipBytes
  kept : ∀ sequence offset, (sequence, offset) ∉ after.touched →
    after.bytes sequence offset = before.bytes sequence offset

namespace TipMemory

variable {m : PageManager} {mem : TipMemory} {active ceiling number : ℕ}

theorem ofBits_doomed (sequence index : ℕ) :
    TraState.ofBits (doomed sequence index).toNat = doomed sequence index := by
  unfold doomed
  split_ifs <;> rfl

theorem ofBits_eq_active_iff {state : ℕ} (h : state < 4) :
    TraState.ofBits state = .active ↔ state = TraState.active.toNat := by
  interval_cases state <;> decide

theorem ofBits_cleaned {sequence index state : ℕ} (h : state < 4) :
    TraState.ofBits (cleaned sequence index state) =
      if TraState.ofBits state = .active then doomed sequence index else .ofBits state := by
  rw [cleaned]
  by_cases hactive : state = TraState.active.toNat
  · rw [if_pos hactive, if_pos ((ofBits_eq_active_iff h).2 hactive), ofBits_doomed]
  · rw [if_neg hactive, if_neg (mt (ofBits_eq_active_iff h).1 hactive)]

theorem stateAt_lt (mem : TipMemory) (s i : ℕ) : mem.stateAt s i < 4 :=
  Nat.lt_of_le_of_lt Nat.and_le_right (by decide)

theorem doomed_eq (m : PageManager) (number : ℕ) :
    doomed (number / m.transPerTIP) (number % m.transPerTIP) =
      if number = 0 then .committed else .dead := by
  have hnumber := Nat.div_add_mod number m.transPerTIP
  unfold doomed
  congr 1
  rw [eq_iff_iff]
  constructor
  · rintro ⟨hdiv, hmod⟩
    rw [hdiv, hmod] at hnumber
    exact hnumber.symm
  · rintro rfl
    exact ⟨Nat.zero_div _, Nat.zero_mod _⟩

/-- The walk itself is right about the states, wherever the two numbers are. -/
theorem cleanupPages_state :
    (cleanupPages m ceiling (active / m.transPerTIP) (active % m.transPerTIP)
        (ceiling / m.transPerTIP + 1 - active / m.transPerTIP) mem).state m number =
      if active ≤ number ∧ number ≤ ceiling ∧ mem.state m number = .active then
        if number = 0 then .committed else .dead
      else mem.state m number := by
  unfold state
  rw [cleanupPages_stateAt, comes_iff]
  by_cases hrange : active ≤ number ∧ number ≤ ceiling
  · rw [if_pos hrange, ofBits_cleaned (stateAt_lt ..), doomed_eq]
    simp only [hrange.1, hrange.2, true_and]
  · rw [if_neg hrange, if_neg fun hcon => hrange ⟨hcon.1, hcon.2.1⟩]

theorem cleanupPages_inside_iff (hmem : mem.touched = []) :
    (∀ access ∈ (cleanupPages m ceiling (active / m.transPerTIP) (active % m.transPerTIP)
        (ceiling / m.transPerTIP + 1 - active / m.transPerTIP) mem).touched,
      active / m.transPerTIP ≤ access.1 ∧ access.1 ≤ ceiling / m.transPerTIP ∧
        access.2 < m.tipBytes) ↔
      (m.transPerTIP ∣ ceiling → ceiling / m.transPerTIP ≤ active / m.transPerTIP) := by
  simp only [mem_touched_cleanupPages, hmem, List.not_mem_nil, false_or]
  constructor
  · rintro h ⟨k, rfl⟩
    by_contra hlt
    have hpos := m.transPerTIP_pos
    have hpage := Nat.zero_le (active / m.transPerTIP)
    rw [Nat.mul_div_cancel_left k hpos] at h hlt
    have hk : k = k - 1 + 1 := by omega
    have hmul : m.transPerTIP * k = (k - 1 + 1) * m.transPerTIP := by rw [← hk, Nat.mul_comm]
    have hlast : lastOnPage m (m.transPerTIP * k) (k - 1) = m.transPerTIP := by
      rw [hmul, lastOnPage, Nat.add_mul, Nat.one_mul, Nat.add_sub_cancel_left]
      exact if_neg (lt_irrefl _)
    have hmod := Nat.mod_lt active hpos
    have hcomes : Comes m (m.transPerTIP * k) (active / m.transPerTIP) (active % m.transPerTIP)
        (k + 1 - active / m.transPerTIP) (k - 1) m.transPerTIP :=
      ⟨by omega, by omega, fun _ => hmod.le, hlast.ge⟩
    obtain ⟨-, -, hinside⟩ := h _ ⟨k - 1, m.transPerTIP, hcomes, rfl⟩
    rw [transOffset_eq] at hinside
    have htrans : m.transPerTIP = m.tipBytes * 4 := rfl
    dsimp only at hinside
    omega
  · rintro h _ ⟨s, i, hcomes, rfl⟩
    have hfirst := hcomes.first
    have hlast := hcomes.last
    have hstop := hcomes.stop
    have hs : s ≤ ceiling / m.transPerTIP := by omega
    refine ⟨hfirst, hs, ?_⟩
    have hbound : transOffset (lastOnPage m ceiling s) < m.tipBytes := by
      rw [lastOnPage_lt_iff m ceiling hs]
      intro heq
      have hdvd : m.transPerTIP ∣ ceiling := ⟨s + 1, by rw [heq, Nat.mul_comm]⟩
      have hle := h hdvd
      rw [heq, Nat.mul_div_cancel _ m.transPerTIP_pos] at hle
      omega
    rw [transOffset_eq] at hbound ⊢
    dsimp only
    omega

end TipMemory

/-- `TRA_cleanup` cleans up, if and only if the next transaction is not the first one of a page behind
that of the oldest active one, and there is a next transaction where the system transaction is the only
one that is active. -/
theorem traCleanup_iff {m : PageManager} {header : CleanupHeader} {mem : TipMemory}
    (hwrite : header.readOnly = false) (hidle : header.attTransactions.any id = false)
    (hnext : header.nextTransaction / m.transPerTIP < 2 ^ 32 - 1)
    (hactive : header.oldestActive / m.transPerTIP < 2 ^ 32) (hmem : mem.touched = []) :
    ∃ after, traCleanup m header mem = some after ∧
      (CleansUp m header.oldestActive header.nextTransaction mem after ↔
        (m.transPerTIP ∣ header.nextTransaction →
          header.nextTransaction / m.transPerTIP ≤ header.oldestActive / m.transPerTIP) ∧
        (header.nextTransaction = 0 → header.oldestActive = 0 → mem.state m 0 ≠ .active)) := by
  rw [traCleanup, hwrite, hidle, if_neg Bool.false_ne_true, if_neg Bool.false_ne_true]
  dsimp only
  by_cases hzero : header.nextTransaction = 0
  · rw [if_pos hzero]
    refine ⟨mem, rfl, ?_⟩
    simp only [hzero, Nat.zero_div, Nat.zero_le, implies_true, true_and, forall_const]
    constructor
    · intro h hfirst hstate
      have hstates := h.states 0
      rw [if_pos ⟨hfirst.le, le_rfl, hstate⟩, if_pos rfl, hstate] at hstates
      cases hstates
    · intro h
      refine ⟨fun number => (if_neg ?_).symm, by simp [hmem], fun _ _ _ => rfl⟩
      rintro ⟨hle, hlt, hstate⟩
      obtain rfl := Nat.le_zero.1 hlt
      exact h (Nat.le_zero.1 hle) hstate
  · rw [if_neg hzero, Nat.mod_eq_of_lt (by omega), Nat.mod_eq_of_lt hactive, if_neg hnext.ne]
    refine ⟨_, rfl, ?_⟩
    rw [and_iff_left fun hcon => absurd hcon hzero]
    constructor
    · intro h
      exact (TipMemory.cleanupPages_inside_iff hmem).1 h.inside
    · intro h
      constructor
      · exact fun number => TipMemory.cleanupPages_state
      · exact (TipMemory.cleanupPages_inside_iff hmem).2 h
      · exact fun sequence offset => TipMemory.cleanupPages_bytes

/-- Pages of 4096 bytes, 20 of which are in front of the states. -/
def smallPages : PageManager := ⟨4096 - 20, by decide, by decide⟩

/-- A header whose next transaction is the first one of the second page of this size, and the oldest active
one the last of the first page. -/
def boundaryHeader : CleanupHeader := ⟨false, [], 16304, 16303⟩

/-- The byte behind the first page is changed. -/
theorem traCleanup_boundary :
    (traCleanup smallPages boundaryHeader ⟨fun _ _ => 0, []⟩).map
        (fun after => (after.touched, after.bytes 0 4076)) =
      some ([(0, 4075), (0, 4076), (1, 0)], 2) ∧
    smallPages.tipBytes = 4076 := by
  decide +kernel

theorem traCleanup_iff_small :
    ∃ after, traCleanup smallPages ⟨false, [], 10, 5⟩ ⟨fun _ _ => 0, []⟩ = some after ∧
      CleansUp smallPages 5 10 ⟨fun _ _ => 0, []⟩ after := by
  obtain ⟨after, hrun, hiff⟩ :=
    @traCleanup_iff smallPages ⟨false, [], 10, 5⟩ ⟨fun _ _ => 0, []⟩ rfl rfl (by decide) (by decide) rfl
  exact ⟨after, hrun, hiff.2 ⟨by decide, by decide⟩⟩

end FirebirdCore.Tra
