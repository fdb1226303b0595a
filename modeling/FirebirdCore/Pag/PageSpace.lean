import Mathlib.Data.Nat.Count
import Mathlib.Algebra.BigOperators.Group.Finset.Basic
import Mathlib.Algebra.Order.BigOperators.Group.Finset
import Mathlib.Order.Bounds.Basic
import Mathlib.Tactic

/-!
# How many pages are used

A page inventory page has a bit for each of the pages that it is responsible for, which is set if the page
is free. The first inventory page is page 1. Each other one is the last page that the one before it is
responsible for.
-/
namespace FirebirdCore.Pag
open scoped BigOperators

/-! ## Inventory pages -/

/-- The number of bits that are set in a byte. -/
def bitsInByte : List ℕ :=
  [0, 1, 1, 2, 1, 2, 2, 3, 1, 2, 2, 3, 2, 3, 3, 4, 1, 2, 2, 3, 2, 3, 3, 4, 2, 3, 3, 4, 3, 4, 4, 5,
   1, 2, 2, 3, 2, 3, 3, 4, 2, 3, 3, 4, 3, 4, 4, 5, 2, 3, 3, 4, 3, 4, 4, 5, 3, 4, 4, 5, 4, 5, 5, 6,
   1, 2, 2, 3, 2, 3, 3, 4, 2, 3, 3, 4, 3, 4, 4, 5, 2, 3, 3, 4, 3, 4, 4, 5, 3, 4, 4, 5, 4, 5, 5, 6,
   2, 3, 3, 4, 3, 4, 4, 5, 3, 4, 4, 5, 4, 5, 5, 6, 3, 4, 4, 5, 4, 5, 5, 6, 4, 5, 5, 6, 5, 6, 6, 7,
   1, 2, 2, 3, 2, 3, 3, 4, 2, 3, 3, 4, 3, 4, 4, 5, 2, 3, 3, 4, 3, 4, 4, 5, 3, 4, 4, 5, 4, 5, 5, 6,
   2, 3, 3, 4, 3, 4, 4, 5, 3, 4, 4, 5, 4, 5, 5, 6, 3, 4, 4, 5, 4, 5, 5, 6, 4, 5, 5, 6, 5, 6, 6, 7,
   2, 3, 3, 4, 3, 4, 4, 5, 3, 4, 4, 5, 4, 5, 5, 6, 3, 4, 4, 5, 4, 5, 5, 6, 4, 5, 5, 6, 5, 6, 6, 7,
   3, 4, 4, 5, 4, 5, 5, 6, 4, 5, 5, 6, 5, 6, 6, 7, 4, 5, 5, 6, 5, 6, 6, 7, 5, 6, 6, 7, 6, 7, 7, 8]

/-- A page as an inventory page, and whether it is one. The bytes from `pip_bits` on go on behind the
page. -/
structure PageInvPage where
  isPip : Bool
  pipMin : ℕ
  pipUsed : ℕ
  pipBits : ℕ → UInt8

namespace PageInvPage

def free (page : PageInvPage) (bit : ℕ) : Bool := (page.pipBits (bit / 8)).toNat.testBit (bit % 8)

/-- The pages that are used of those in some bytes. -/
def countBytes (page : PageInvPage) : ℕ → ℕ → ℕ
  | _, 0 => 0
  | byte, n + 1 =>
      8 - bitsInByte.getD (page.pipBits byte).toNat 0 + countBytes page (byte + 1) n

/-- From the bit in front of `k` down to the first one that is not set: how many bits are left, and the
bytes that were read. -/
def scanBits (page : PageInvPage) : ℕ → ℕ × List ℕ
  | 0 => (0, [])
  | k + 1 =>
      if page.free k then
        let r := scanBits page k
        (r.1, k / 8 :: r.2)
      else (k + 1, [k / 8])

end PageInvPage

/-- `FIRST_PIP_PAGE`. -/
def pipFirst : ℕ := 1

/-- The pages by their numbers, how many the file has, and the inventory page that was the last one when it
was looked for. -/
structure PageSpace where
  bytesBitPIP : ℕ
  pos : 0 < bytesBitPIP
  pages : ℕ → PageInvPage
  maxAlloc : ℕ
  onRawDevice : Bool
  pipMaxKnown : ℕ

namespace PageSpace

def pagesPerPIP (s : PageSpace) : ℕ := s.bytesBitPIP * 8

/-- The walk of `usedPages`: the number of pages, and the bytes that were read. -/
def usedLoop (s : PageSpace) :
    ℕ → ℕ → ℕ → ℕ → List (ℕ × ℕ) → Option (ℕ × List (ℕ × ℕ))
  | 0, _, _, _, _ => none
  | fuel + 1, winPage, sequence, used, reads =>
      let pip := s.pages winPage
      if !pip.isPip then some (used, reads)
      else
        let bytes := pip.pipMin / 8
        let count := pip.pipUsed / 8 - bytes
        let used := used + bytes * 8 + pip.countBytes bytes count
        let reads := reads ++ (List.range' bytes count).map fun byte => (winPage, byte)
        if pip.pipUsed < s.pagesPerPIP then some (used, reads)
        else usedLoop s fuel ((sequence + 1) * s.pagesPerPIP - 1) (sequence + 1) used reads

def usedPages (fuel : ℕ) (s : PageSpace) : Option (ℕ × List (ℕ × ℕ)) :=
  s.usedLoop fuel pipFirst 0 0 []

/-- The search for the last inventory page. It answers nothing where even the first one is missing. -/
def findLast (s : PageSpace) (moveUp : Bool) :
    ℕ → ℕ → List (ℕ × ℕ) → Option (Option ℕ × List (ℕ × ℕ))
  | 0, _, _ => none
  | fuel + 1, pipLast, reads =>
      let page := s.pages pipLast
      if moveUp then
        if page.pipUsed ≠ s.pagesPerPIP then some (some pipLast, reads)
        else
          let lastByte := page.pipBits (s.bytesBitPIP - 1)
          let reads := reads ++ [(pipLast, s.bytesBitPIP - 1)]
          if lastByte.toNat.testBit 7 then some (some pipLast, reads)
          else if pipLast = pipFirst then findLast s moveUp fuel (s.pagesPerPIP - 1) reads
          else findLast s moveUp fuel (pipLast + s.pagesPerPIP) reads
      else if page.isPip then some (some pipLast, reads)
      else if pipLast > s.pagesPerPIP then findLast s moveUp fuel (pipLast - s.pagesPerPIP) reads
      else if pipLast = pipFirst then some (none, reads)
      else findLast s moveUp fuel pipFirst reads

/-- Where the search begins, and whether it goes up. On a raw device the first one is not looked for. -/
def searchStart (s : PageSpace) : ℕ × Bool :=
  if s.pipMaxKnown ≠ 0 then (s.pipMaxKnown, true)
  else if s.onRawDevice then (0, true)
  else
    let pipLast := s.maxAlloc / s.pagesPerPIP * s.pagesPerPIP
    (if pipLast ≠ 0 then pipLast - 1 else pipFirst, false)

/-- The page number, the space that remembers where the search ended, and the bytes that were read. -/
def lastUsedPage (fuel : ℕ) (s : PageSpace) : Option (ℕ × PageSpace × List (ℕ × ℕ)) :=
  match s.findLast s.searchStart.2 fuel s.searchStart.1 [] with
  | none => none
  | some (none, reads) => some (0, s, reads)
  | some (some pipLast, reads) =>
      let pip := s.pages pipLast
      let r := pip.scanBits (pip.pipUsed + 1)
      some (if pipLast = pipFirst then r.1 else r.1 + pipLast, { s with pipMaxKnown := pipLast },
        reads ++ r.2.map fun byte => (pipLast, byte))

/-! ## What the allocator keeps -/

/-- The number of an inventory page. -/
def pipPage (s : PageSpace) (i : ℕ) : ℕ := if i = 0 then pipFirst else i * s.pagesPerPIP - 1

def pip (s : PageSpace) (i : ℕ) : PageInvPage := s.pages (s.pipPage i)

/-- There are `n` inventory pages. The next one is allocated together with the last page of the one before
it. -/
structure Valid (s : PageSpace) (n : ℕ) : Prop where
  nonempty : 0 < n
  isPip : ∀ i, (s.pip i).isPip = true ↔ i < n
  pipMin_le : ∀ i < n, (s.pip i).pipMin ≤ s.pagesPerPIP
  belowMin : ∀ i < n, ∀ bit < (s.pip i).pipMin, (s.pip i).free bit = false
  pipUsed_le : ∀ i < n, (s.pip i).pipUsed ≤ s.pagesPerPIP
  behindUsed : ∀ i < n, ∀ bit, (s.pip i).pipUsed ≤ bit → bit < s.pagesPerPIP → (s.pip i).free bit = true
  next : ∀ i < n, i + 1 < n ↔ (s.pip i).free (s.pagesPerPIP - 1) = false
  inFile : ∀ i < n, s.pipPage i < s.maxAlloc
  known : s.pipMaxKnown ≠ 0 → ∃ i < n, s.pipMaxKnown = s.pipPage i

/-- A page is marked used. -/
def Used (s : PageSpace) (n page : ℕ) : Prop :=
  page / s.pagesPerPIP < n ∧ (s.pip (page / s.pagesPerPIP)).free (page % s.pagesPerPIP) = false

/-- The number of pages marked used. -/
def usedCount (s : PageSpace) (n : ℕ) : ℕ :=
  ∑ i ∈ Finset.range n, Nat.count (fun bit => (s.pip i).free bit = false) s.pagesPerPIP

/-- Nothing was read but bits of inventory pages. -/
def Inside (s : PageSpace) (n : ℕ) (reads : List (ℕ × ℕ)) : Prop :=
  ∀ read ∈ reads, (∃ i < n, read.1 = s.pipPage i) ∧ read.2 < s.bytesBitPIP

end PageSpace

/-! ## Counting -/

namespace PageInvPage

variable (page : PageInvPage)

theorem bitsInByte_eq : ∀ byte : Fin 256,
    8 - bitsInByte.getD byte.val 0 = Nat.count (fun k => byte.val.testBit k = false) 8 := by
  decide +kernel

theorem free_byte (byte : ℕ) {k : ℕ} (hk : k < 8) :
    page.free (byte * 8 + k) = (page.pipBits byte).toNat.testBit k := by
  have hdiv : (byte * 8 + k) / 8 = byte := by omega
  have hmod : (byte * 8 + k) % 8 = k := by omega
  rw [free, hdiv, hmod]

/-- The used pages of one byte. -/
theorem count_byte (byte : ℕ) :
    Nat.count (fun k => page.free (byte * 8 + k) = false) 8 =
      8 - bitsInByte.getD (page.pipBits byte).toNat 0 := by
  have htable := bitsInByte_eq ⟨(page.pipBits byte).toNat, (page.pipBits byte).toNat_lt⟩
  dsimp only at htable
  rw [htable]
  simp only [Nat.count_succ, Nat.count_zero, page.free_byte byte (by decide : 0 < 8),
    page.free_byte byte (by decide : 1 < 8), page.free_byte byte (by decide : 2 < 8),
    page.free_byte byte (by decide : 3 < 8), page.free_byte byte (by decide : 4 < 8),
    page.free_byte byte (by decide : 5 < 8), page.free_byte byte (by decide : 6 < 8),
    page.free_byte byte (by decide : 7 < 8)]

theorem countBytes_eq (byte n : ℕ) :
    Nat.count (fun bit => page.free bit = false) (byte * 8) + page.countBytes byte n =
      Nat.count (fun bit => page.free bit = false) ((byte + n) * 8) := by
  induction n generalizing byte with
  | zero => rfl
  | succ n ih =>
    have hstep := ih (byte + 1)
    rw [Nat.add_mul, Nat.one_mul, Nat.count_add, count_byte] at hstep
    rw [countBytes, ← Nat.add_assoc, hstep]
    congr 1
    omega

/-- How far the count of a page goes. -/
def counted : ℕ := max (page.pipMin / 8 * 8) (page.pipUsed / 8 * 8)

/-- What is counted on a page, if all below `pip_min` is used. -/
theorem count_page (h : ∀ bit < page.pipMin, page.free bit = false) :
    page.pipMin / 8 * 8 + page.countBytes (page.pipMin / 8) (page.pipUsed / 8 - page.pipMin / 8) =
      Nat.count (fun bit => page.free bit = false) page.counted := by
  have hmin : Nat.count (fun bit => page.free bit = false) (page.pipMin / 8 * 8) =
      page.pipMin / 8 * 8 := by
    rw [Nat.count_iff_forall]
    intro bit hbit
    exact h bit (by omega)
  have hcount := page.countBytes_eq (page.pipMin / 8) (page.pipUsed / 8 - page.pipMin / 8)
  rw [hmin] at hcount
  rw [hcount, counted]
  congr 1
  omega

theorem count_eq_iff {p : ℕ → Prop} [DecidablePred p] {a b : ℕ} (h : a ≤ b) :
    Nat.count p a = Nat.count p b ↔ ∀ k, a ≤ k → k < b → ¬ p k := by
  obtain ⟨d, rfl⟩ := Nat.exists_eq_add_of_le h
  rw [Nat.count_add, left_eq_add, Nat.count_iff_forall_not]
  constructor
  · intro hnone k hle hlt
    have hk := hnone (k - a) (by omega)
    rwa [Nat.add_sub_cancel' hle] at hk
  · exact fun hnone k hk => hnone (a + k) (by omega) (by omega)

/-! ## Scanning -/

/-- The scan stops behind the highest bit that is not set. -/
theorem scanBits_spec (k : ℕ) :
    (page.scanBits k).1 ≤ k ∧ (∀ bit, (page.scanBits k).1 ≤ bit → bit < k → page.free bit = true) ∧
      (0 < (page.scanBits k).1 → page.free ((page.scanBits k).1 - 1) = false) ∧
      ∀ byte ∈ (page.scanBits k).2, byte ≤ (k - 1) / 8 := by
  induction k with
  | zero => simp [scanBits]
  | succ k ih =>
    obtain ⟨hle, hfree, hlast, hreads⟩ := ih
    rw [scanBits]
    cases hk : page.free k with
    | true =>
      rw [if_pos rfl]
      refine ⟨by dsimp only; omega, fun bit hbit hlt => ?_, hlast, ?_⟩
      · obtain rfl | hne := eq_or_ne bit k
        · exact hk
        · exact hfree bit hbit (by omega)
      · intro byte hbyte
        obtain rfl | hbyte := List.mem_cons.1 hbyte
        · exact le_rfl
        · have hle' := hreads byte hbyte
          omega
    | false =>
      rw [if_neg Bool.false_ne_true]
      refine ⟨le_rfl, fun bit hbit hlt => by dsimp only at hbit; omega, fun _ => hk, ?_⟩
      intro byte hbyte
      rw [List.mem_singleton.1 hbyte]
      exact le_rfl

/-- The first byte is always read. -/
theorem mem_scanBits (k : ℕ) : k / 8 ∈ (page.scanBits (k + 1)).2 := by
  rw [scanBits]
  split_ifs <;> exact List.mem_cons_self

end PageInvPage

namespace PageSpace

variable {s : PageSpace} {n fuel i : ℕ}

theorem pagesPerPIP_ge (s : PageSpace) : 8 ≤ s.pagesPerPIP := by
  have hpos := s.pos
  unfold pagesPerPIP
  omega

/-- All bits of an inventory page that is followed by another one are counted. -/
theorem Valid.full (h : s.Valid n) (hnext : i + 1 < n) : (s.pip i).pipUsed = s.pagesPerPIP := by
  have hle := h.pipUsed_le i (by omega)
  have hlast := (h.next i (by omega)).1 hnext
  have hge := s.pagesPerPIP_ge
  by_contra hne
  have hfree := h.behindUsed i (by omega) (s.pagesPerPIP - 1) (by omega) (by omega)
  rw [hlast] at hfree
  cases hfree

theorem Valid.counted_le (h : s.Valid n) (hi : i < n) : (s.pip i).counted ≤ s.pagesPerPIP := by
  have hmin := h.pipMin_le i hi
  have hused := h.pipUsed_le i hi
  unfold PageInvPage.counted
  omega

theorem Valid.counted_full (h : s.Valid n) (hnext : i + 1 < n) : (s.pip i).counted = s.pagesPerPIP := by
  have hfull := h.full hnext
  have hmin := h.pipMin_le i (by omega)
  unfold PageInvPage.counted
  rw [hfull]
  unfold pagesPerPIP at hmin ⊢
  omega

/-! ## The walk of `usedPages` -/

theorem inside_append {reads more : List (ℕ × ℕ)} :
    s.Inside n (reads ++ more) ↔ s.Inside n reads ∧ s.Inside n more := by
  unfold Inside
  rw [List.forall_mem_append]

theorem pipPage_succ (s : PageSpace) (i : ℕ) : s.pipPage (i + 1) = (i + 1) * s.pagesPerPIP - 1 :=
  if_neg (Nat.succ_ne_zero i)

/-- Behind the last inventory page the walk stops. -/
theorem Valid.usedLoop_last (h : s.Valid n) (fuel used : ℕ) (reads : List (ℕ × ℕ)) :
    s.usedLoop (fuel + 1) (s.pipPage n) n used reads = some (used, reads) := by
  have hpip : (s.pages (s.pipPage n)).isPip = false := by
    rw [← Bool.not_eq_true]
    exact mt (h.isPip n).1 (lt_irrefl n)
  rw [usedLoop, hpip]
  rfl

theorem Valid.usedLoop_eq (h : s.Valid n) (hi : i < n) (used : ℕ) {reads : List (ℕ × ℕ)}
    (hreads : s.Inside n reads) (hfuel : n - i < fuel) :
    ∃ reads', s.Inside n reads' ∧ s.usedLoop fuel (s.pipPage i) i used reads =
      some (used + ∑ k ∈ Finset.Ico i n,
        Nat.count (fun bit => (s.pip k).free bit = false) (s.pip k).counted, reads') := by
  induction hd : n - i generalizing i used reads fuel with
  | zero => omega
  | succ d ih =>
    obtain ⟨fuel, rfl⟩ := Nat.exists_eq_add_one_of_ne_zero (Nat.ne_zero_of_lt hfuel)
    have hpip : (s.pages (s.pipPage i)).isPip = true := (h.isPip i).2 hi
    have hused := h.pipUsed_le i hi
    have hcount := (s.pip i).count_page (h.belowMin i hi)
    have hmore : s.Inside n (reads ++
        (List.range' ((s.pip i).pipMin / 8) ((s.pip i).pipUsed / 8 - (s.pip i).pipMin / 8)).map
          fun byte => (s.pipPage i, byte)) := by
      rw [inside_append]
      refine ⟨hreads, fun read hread => ?_⟩
      obtain ⟨byte, hbyte, rfl⟩ := List.mem_map.1 hread
      rw [List.mem_range'_1] at hbyte
      unfold pagesPerPIP at hused
      exact ⟨⟨i, hi, rfl⟩, by dsimp only; omega⟩
    rw [usedLoop, hpip, if_neg (by decide), Finset.sum_eq_sum_Ico_succ_bot hi, ← hcount,
      ← Nat.add_assoc, ← Nat.add_assoc]
    dsimp only
    by_cases hnext : i + 1 < n
    · rw [if_neg (by change ¬ (s.pip i).pipUsed < _; rw [h.full hnext]; exact lt_irrefl _)]
      rw [← pipPage_succ]
      exact ih hnext _ hmore (by omega) (by omega)
    · obtain rfl : n = i + 1 := by omega
      rw [Finset.Ico_self, Finset.sum_empty, Nat.add_zero]
      split_ifs with hfull
      · exact ⟨_, hmore, rfl⟩
      · obtain ⟨fuel, rfl⟩ := Nat.exists_eq_add_one_of_ne_zero (n := fuel) (by omega)
        rw [← pipPage_succ, h.usedLoop_last]
        exact ⟨_, hmore, rfl⟩

/-- The walk is right if and only if no used page of the last inventory page is behind what it counts. -/
theorem Valid.usedPages_iff (h : s.Valid n) (hfuel : n < fuel) :
    (∃ reads, s.usedPages fuel = some (s.usedCount n, reads) ∧ s.Inside n reads) ↔
      ∀ bit, (s.pip (n - 1)).counted ≤ bit → bit < s.pagesPerPIP → (s.pip (n - 1)).free bit = true := by
  have hpos := h.nonempty
  have hnone : s.Inside n [] := fun read hread => absurd hread List.not_mem_nil
  obtain ⟨reads, hreads, hwalk⟩ := h.usedLoop_eq hpos 0 hnone hfuel
  have hwalk' : s.usedPages fuel = some (∑ k ∈ Finset.range n,
      Nat.count (fun bit => (s.pip k).free bit = false) (s.pip k).counted, reads) := by
    rw [Finset.range_eq_Ico, ← Nat.zero_add (∑ k ∈ Finset.Ico 0 n, _)]
    exact hwalk
  have hle : ∀ k ∈ Finset.range n,
      Nat.count (fun bit => (s.pip k).free bit = false) (s.pip k).counted ≤
        Nat.count (fun bit => (s.pip k).free bit = false) s.pagesPerPIP :=
    fun k hk => Nat.count_monotone _ (h.counted_le (Finset.mem_range.1 hk))
  have hpage : ∀ k < n, (Nat.count (fun bit => (s.pip k).free bit = false) (s.pip k).counted =
      Nat.count (fun bit => (s.pip k).free bit = false) s.pagesPerPIP ↔
        ∀ bit, (s.pip k).counted ≤ bit → bit < s.pagesPerPIP → (s.pip k).free bit = true) := by
    intro k hk
    rw [PageInvPage.count_eq_iff (h.counted_le hk)]
    simp only [Bool.not_eq_false]
  have hall : s.usedPages fuel = some (s.usedCount n, reads) ↔
      ∀ bit, (s.pip (n - 1)).counted ≤ bit → bit < s.pagesPerPIP → (s.pip (n - 1)).free bit = true := by
    rw [hwalk', usedCount, Option.some_inj, Prod.mk_inj, and_iff_left rfl,
      Finset.sum_eq_sum_iff_of_le hle]
    constructor
    · intro heq
      exact (hpage (n - 1) (by omega)).1 (heq (n - 1) (Finset.mem_range.2 (by omega)))
    · intro hlast k hk
      rw [Finset.mem_range] at hk
      obtain hnext | hnext := Nat.lt_or_ge (k + 1) n
      · rw [h.counted_full hnext]
      · obtain rfl : k = n - 1 := by omega
        exact (hpage _ hk).2 hlast
  constructor
  · rintro ⟨reads', heq, -⟩
    refine hall.1 ?_
    rw [heq] at hwalk'
    rw [heq, (Prod.mk_inj.1 (Option.some_inj.1 hwalk')).2]
  · exact fun hlast => ⟨reads, hall.2 hlast, hreads⟩

/-! ## The search for the last inventory page -/

theorem lastByte_eq (s : PageSpace) (page : PageInvPage) :
    (page.pipBits (s.bytesBitPIP - 1)).toNat.testBit 7 = page.free (s.pagesPerPIP - 1) := by
  have hpos := s.pos
  have hbit : s.pagesPerPIP - 1 = (s.bytesBitPIP - 1) * 8 + 7 := by
    unfold pagesPerPIP
    omega
  rw [hbit, page.free_byte _ (by decide)]

/-- From an inventory page on, the search goes up to the last one. -/
theorem Valid.findLast_up (h : s.Valid n) (hi : i < n) {reads : List (ℕ × ℕ)}
    (hreads : s.Inside n reads) (hfuel : n - i ≤ fuel) :
    ∃ reads', s.Inside n reads' ∧
      s.findLast true fuel (s.pipPage i) reads = some (some (s.pipPage (n - 1)), reads') := by
  induction hd : n - i generalizing i reads fuel with
  | zero => omega
  | succ d ih =>
    obtain ⟨fuel, rfl⟩ := Nat.exists_eq_add_one_of_ne_zero (n := fuel) (by omega)
    have hpos := s.pos
    have hge := s.pagesPerPIP_ge
    have hmore : s.Inside n (reads ++ [(s.pipPage i, s.bytesBitPIP - 1)]) := by
      rw [inside_append]
      refine ⟨hreads, fun read hread => ?_⟩
      rw [List.mem_singleton.1 hread]
      exact ⟨⟨i, hi, rfl⟩, by dsimp only; omega⟩
    have hstop : i + 1 = n → s.pipPage i = s.pipPage (n - 1) := by
      rintro rfl
      rfl
    have hnext := h.next i hi
    rw [findLast, if_pos rfl]
    dsimp only
    rw [lastByte_eq]
    by_cases hlast : i + 1 < n
    · have hused : (s.pages (s.pipPage i)).pipUsed = s.pagesPerPIP := h.full hlast
      have hfree : (s.pages (s.pipPage i)).free (s.pagesPerPIP - 1) = false := hnext.1 hlast
      rw [if_neg (not_not.2 hused), hfree, if_neg Bool.false_ne_true]
      have hrest : n - (i + 1) ≤ fuel := by omega
      have hstep := ih hlast hmore hrest (by omega)
      rw [pipPage_succ] at hstep
      split_ifs with hfirst
      · cases i with
        | zero => rwa [Nat.zero_add, Nat.one_mul] at hstep
        | succ i =>
          rw [pipPage_succ, Nat.add_mul, Nat.one_mul, pipFirst] at hfirst
          omega
      · cases i with
        | zero => exact absurd rfl hfirst
        | succ i =>
          have hmove : s.pipPage (i + 1) + s.pagesPerPIP = (i + 1 + 1) * s.pagesPerPIP - 1 := by
            rw [pipPage_succ, Nat.add_mul (i + 1), Nat.one_mul, Nat.add_mul, Nat.one_mul]
            omega
          rwa [hmove]
    · have hend : s.pipPage i = s.pipPage (n - 1) := hstop (by omega)
      have hfree : (s.pages (s.pipPage i)).free (s.pagesPerPIP - 1) = true := by
        rw [← Bool.not_eq_false]
        exact mt hnext.2 hlast
      rw [← hend]
      split_ifs
      · exact ⟨reads, hreads, rfl⟩
      · exact ⟨_, hmore, rfl⟩

/-- From any place behind the last inventory page, the search goes down to it. -/
theorem Valid.findLast_down (h : s.Valid n) (hi : n - 1 ≤ i) (hfuel : i + 1 < n + fuel) :
    s.findLast false fuel (s.pipPage i) [] = some (some (s.pipPage (n - 1)), []) := by
  have hn := h.nonempty
  induction i generalizing fuel with
  | zero =>
    obtain ⟨fuel, rfl⟩ := Nat.exists_eq_add_one_of_ne_zero (n := fuel) (by omega)
    have hpip : (s.pages (s.pipPage 0)).isPip = true := (h.isPip 0).2 hn
    have hone : n - 1 = 0 := by omega
    rw [findLast, if_neg Bool.false_ne_true, if_pos hpip, hone]
  | succ i ih =>
    obtain ⟨fuel, rfl⟩ := Nat.exists_eq_add_one_of_ne_zero (n := fuel) (by omega)
    have hge := s.pagesPerPIP_ge
    rw [findLast, if_neg Bool.false_ne_true]
    by_cases hlast : i + 1 < n
    · have hpip : (s.pages (s.pipPage (i + 1))).isPip = true := (h.isPip (i + 1)).2 hlast
      have heq : n - 1 = i + 1 := by omega
      rw [if_pos hpip, heq]
    · have hpip : (s.pages (s.pipPage (i + 1))).isPip = false := by
        rw [← Bool.not_eq_true]
        exact mt (h.isPip (i + 1)).1 hlast
      have hstep : s.findLast false fuel (s.pipPage i) [] = _ := ih (by omega) (by omega)
      rw [if_neg (by rw [hpip]; exact Bool.false_ne_true)]
      cases i with
      | zero =>
        have hpage : s.pipPage (0 + 1) = s.pagesPerPIP - 1 := by
          rw [pipPage_succ, Nat.zero_add, Nat.one_mul]
        rw [hpage, if_neg (by omega), if_neg (by rw [pipFirst]; omega)]
        exact hstep
      | succ i =>
        have hpage : s.pipPage (i + 1 + 1) = s.pipPage (i + 1) + s.pagesPerPIP := by
          rw [pipPage_succ, pipPage_succ, Nat.add_mul (i + 1), Nat.one_mul, Nat.add_mul, Nat.one_mul]
          omega
        have hpos : 0 < s.pipPage (i + 1) := by
          rw [pipPage_succ, Nat.add_mul, Nat.one_mul]
          omega
        rw [hpage, if_pos (by omega), Nat.add_sub_cancel]
        exact hstep

/-- Unless it begins at page 0, the search finds the last inventory page. -/
theorem Valid.findLast_start (h : s.Valid n) (hstart : s.pipMaxKnown ≠ 0 ∨ s.onRawDevice = false)
    (hfuel : n + s.maxAlloc < fuel) :
    ∃ reads, s.Inside n reads ∧ s.findLast s.searchStart.2 fuel s.searchStart.1 [] =
      some (some (s.pipPage (n - 1)), reads) := by
  have hnone : s.Inside n [] := fun read hread => absurd hread List.not_mem_nil
  rw [searchStart]
  by_cases hknown : s.pipMaxKnown = 0
  · have hraw := hstart.resolve_left (not_not.2 hknown)
    have hn := h.nonempty
    have hge := s.pagesPerPIP_ge
    have hfile := h.inFile (n - 1) (by omega)
    have hfirst : (if s.maxAlloc / s.pagesPerPIP * s.pagesPerPIP ≠ 0 then
        s.maxAlloc / s.pagesPerPIP * s.pagesPerPIP - 1 else pipFirst) =
        s.pipPage (s.maxAlloc / s.pagesPerPIP) := by
      rw [pipPage]
      by_cases hzero : s.maxAlloc / s.pagesPerPIP = 0
      · rw [if_pos hzero, hzero, Nat.zero_mul, if_neg (not_not.2 rfl)]
      · rw [if_neg hzero, if_pos (Nat.mul_ne_zero hzero (by omega))]
    have hbehind : n - 1 ≤ s.maxAlloc / s.pagesPerPIP := by
      rw [Nat.le_div_iff_mul_le (by omega)]
      rw [pipPage] at hfile
      split_ifs at hfile with hzero
      · rw [hzero, Nat.zero_mul]
        exact Nat.zero_le _
      · omega
    have hdiv := Nat.div_le_self s.maxAlloc s.pagesPerPIP
    rw [if_neg (not_not.2 hknown), hraw, if_neg Bool.false_ne_true]
    dsimp only
    rw [hfirst, h.findLast_down hbehind (by omega)]
    exact ⟨[], hnone, rfl⟩
  · obtain ⟨i, hi, hpage⟩ := h.known hknown
    rw [if_pos hknown]
    dsimp only
    rw [hpage]
    exact h.findLast_up hi hnone (by omega)

/-- On a raw device the search begins with bits of the header page. -/
theorem reads_of_findLast {moveUp : Bool} {pipLast : ℕ} {last : Option ℕ} {reads reads' : List (ℕ × ℕ)}
    (h : s.findLast moveUp fuel pipLast reads = some (last, reads')) : reads <+: reads' := by
  induction fuel generalizing pipLast reads with
  | zero => cases h
  | succ fuel ih =>
    rw [findLast] at h
    dsimp only at h
    split_ifs at h
    · cases h; exact List.prefix_rfl
    · cases h; exact List.prefix_append ..
    · exact (List.prefix_append ..).trans (ih h)
    · exact (List.prefix_append ..).trans (ih h)
    · cases h; exact List.prefix_rfl
    · exact ih h
    · cases h; exact List.prefix_rfl
    · exact ih h

theorem pipPage_ne_zero (s : PageSpace) (i : ℕ) : s.pipPage i ≠ 0 := by
  have hge := s.pagesPerPIP_ge
  cases i with
  | zero => exact Nat.one_ne_zero
  | succ i =>
    rw [pipPage_succ, Nat.add_mul, Nat.one_mul]
    omega

theorem not_inside_zero {byte : ℕ} {reads : List (ℕ × ℕ)} (h : (0, byte) ∈ reads) :
    ¬ s.Inside n reads := by
  intro hinside
  obtain ⟨⟨i, -, hpage⟩, -⟩ := hinside _ h
  exact s.pipPage_ne_zero i hpage.symm

/-- On a raw device the search begins with the header page, as if it were an inventory page. -/
theorem lastUsedPage_raw (hknown : s.pipMaxKnown = 0) (hraw : s.onRawDevice = true) {page : ℕ}
    {s' : PageSpace} {reads : List (ℕ × ℕ)} (h : s.lastUsedPage fuel = some (page, s', reads)) :
    ¬ s.Inside n reads := by
  rw [lastUsedPage, searchStart, if_neg (not_not.2 hknown), if_pos hraw] at h
  dsimp only at h
  cases fuel with
  | zero => cases h
  | succ fuel =>
    rw [findLast, if_pos rfl] at h
    dsimp only at h
    by_cases hused : (s.pages 0).pipUsed = s.pagesPerPIP
    · generalize hrest : (if (s.pages 0).pipUsed ≠ s.pagesPerPIP then _ else _) = rest at h
      rw [if_neg (not_not.2 hused)] at hrest
      cases rest with
      | none => cases h
      | some r =>
        obtain ⟨last, reads'⟩ := r
        have hread : [(0, s.bytesBitPIP - 1)] <+: reads' := by
          split_ifs at hrest with hbit hfirst
          · cases hrest
            exact List.prefix_rfl
          · exact reads_of_findLast hrest
          · exact reads_of_findLast hrest
        have hmem : (0, s.bytesBitPIP - 1) ∈ reads' := hread.subset List.mem_cons_self
        cases last with
        | none =>
          cases h
          exact not_inside_zero hmem
        | some last =>
          cases h
          exact not_inside_zero (List.mem_append_left _ hmem)
    · rw [if_pos hused] at h
      cases h
      exact not_inside_zero (List.mem_append_right _
        (List.mem_map_of_mem ((s.pages 0).mem_scanBits (s.pages 0).pipUsed)))

/-! ## The highest page -/

theorem used_iff {k bit : ℕ} (hbit : bit < s.pagesPerPIP) :
    s.Used n (k * s.pagesPerPIP + bit) ↔ k < n ∧ (s.pip k).free bit = false := by
  have hge := s.pagesPerPIP_ge
  have hdiv : (k * s.pagesPerPIP + bit) / s.pagesPerPIP = k := by
    rw [Nat.mul_comm, Nat.mul_add_div (by omega), Nat.div_eq_of_lt hbit, Nat.add_zero]
  have hmod : (k * s.pagesPerPIP + bit) % s.pagesPerPIP = bit := by
    rw [Nat.mul_comm, Nat.mul_add_mod, Nat.mod_eq_of_lt hbit]
  rw [Used, hdiv, hmod]

/-- A used page is not behind the last inventory page, nor behind what is used on this one. -/
theorem Used.lt {page k : ℕ} (h : s.Used n page)
    (hk : ∀ bit, k ≤ bit → bit < s.pagesPerPIP → (s.pip (n - 1)).free bit = true) :
    page < (n - 1) * s.pagesPerPIP + k := by
  have hge := s.pagesPerPIP_ge
  have hpage := Nat.div_add_mod page s.pagesPerPIP
  have hmod := Nat.mod_lt page (Nat.lt_of_lt_of_le (by decide) hge)
  obtain ⟨hlt, hused⟩ := h
  rw [Nat.mul_comm] at hpage
  obtain heq | hless := Nat.eq_or_lt_of_le (Nat.le_sub_one_of_lt hlt)
  · rw [heq] at hpage hused
    by_contra hcon
    rw [hk _ (by omega) hmod] at hused
    cases hused
  · have hmul := Nat.mul_le_mul_right s.pagesPerPIP (Nat.succ_le_of_lt hless)
    rw [Nat.succ_mul] at hmul
    omega

/-- With one inventory page only, the page behind the last used one is reported. With more, the last used
one is. -/
theorem Valid.isGreatest_iff (h : s.Valid n) (hused : (s.pip (n - 1)).pipUsed < s.pagesPerPIP) :
    let k := ((s.pip (n - 1)).scanBits ((s.pip (n - 1)).pipUsed + 1)).1
    IsGreatest {page | s.Used n page} (if s.pipPage (n - 1) = pipFirst then k else k + s.pipPage (n - 1)) ↔
      2 ≤ n := by
  obtain ⟨hle, hfree, hlast, -⟩ := (s.pip (n - 1)).scanBits_spec ((s.pip (n - 1)).pipUsed + 1)
  intro k
  have hn := h.nonempty
  have hge := s.pagesPerPIP_ge
  have hbehind : ∀ bit, k ≤ bit → bit < s.pagesPerPIP → (s.pip (n - 1)).free bit = true := by
    intro bit hbit hlt
    obtain hinside | houtside := Nat.lt_or_ge bit ((s.pip (n - 1)).pipUsed + 1)
    · exact hfree bit hbit hinside
    · exact h.behindUsed (n - 1) (by omega) bit (by omega) hlt
  have hkle : k ≤ (s.pip (n - 1)).pipUsed := by
    obtain hzero | hpos := Nat.eq_zero_or_pos k
    · omega
    · by_contra hcon
      have hk : k - 1 = (s.pip (n - 1)).pipUsed := by
        have hle' : k ≤ (s.pip (n - 1)).pipUsed + 1 := hle
        omega
      have hat := h.behindUsed (n - 1) (by omega) (k - 1) hk.ge (by omega)
      rw [hlast hpos] at hat
      cases hat
  constructor
  · rintro ⟨hmem, -⟩
    by_contra hone
    obtain rfl : n = 1 := by omega
    have hlt := Used.lt hmem hbehind
    have hfirst : s.pipPage (1 - 1) = pipFirst := rfl
    rw [if_pos hfirst] at hlt
    omega
  · intro htwo
    obtain ⟨m, rfl⟩ := Nat.exists_eq_add_of_le' htwo
    have hpage : s.pipPage (m + 2 - 1) = (m + 1) * s.pagesPerPIP - 1 := s.pipPage_succ m
    have hmul : s.pagesPerPIP ≤ (m + 1) * s.pagesPerPIP := Nat.le_mul_of_pos_left _ (Nat.succ_pos m)
    have hlt (page : ℕ) (hpage : s.Used (m + 2) page) : page < (m + 1) * s.pagesPerPIP + k :=
      Used.lt hpage hbehind
    rw [hpage, if_neg (by rw [pipFirst]; omega)]
    constructor
    · change s.Used (m + 2) _
      obtain hzero | hpos := Nat.eq_zero_or_pos k
      · -- the last inventory page itself is the last bit of the one before it
        have hown := (h.next m (by omega)).1 (by omega)
        have heq : k + ((m + 1) * s.pagesPerPIP - 1) = m * s.pagesPerPIP + (s.pagesPerPIP - 1) := by
          rw [hzero, Nat.add_mul, Nat.one_mul]
          omega
        rw [heq, used_iff (by omega)]
        exact ⟨by omega, hown⟩
      · have heq : k + ((m + 1) * s.pagesPerPIP - 1) = (m + 1) * s.pagesPerPIP + (k - 1) := by omega
        rw [heq, used_iff (by omega)]
        exact ⟨by omega, hlast hpos⟩
    · intro page hpage
      have hbelow := hlt page hpage
      omega

/-- The bits that are scanned are inside of the page, unless the scan begins behind the last one. -/
theorem Valid.inside_scan (h : s.Valid n) {reads : List (ℕ × ℕ)} (hreads : s.Inside n reads) :
    s.Inside n (reads ++ ((s.pip (n - 1)).scanBits ((s.pip (n - 1)).pipUsed + 1)).2.map
      fun byte => (s.pipPage (n - 1), byte)) ↔ (s.pip (n - 1)).pipUsed < s.pagesPerPIP := by
  have hn := h.nonempty
  rw [inside_append, and_iff_right hreads]
  constructor
  · intro hinside
    obtain ⟨-, hbyte⟩ := hinside _
      (List.mem_map_of_mem ((s.pip (n - 1)).mem_scanBits (s.pip (n - 1)).pipUsed))
    unfold pagesPerPIP
    dsimp only at hbyte
    omega
  · intro hused read hread
    obtain ⟨byte, hbyte, rfl⟩ := List.mem_map.1 hread
    have hle := ((s.pip (n - 1)).scanBits_spec ((s.pip (n - 1)).pipUsed + 1)).2.2.2 byte hbyte
    unfold pagesPerPIP at hused
    exact ⟨⟨n - 1, by omega, rfl⟩, by dsimp only; omega⟩

theorem Valid.lastUsedPage_iff (h : s.Valid n) (hfuel : n + s.maxAlloc < fuel) :
    (∃ page s' reads, s.lastUsedPage fuel = some (page, s', reads) ∧
      IsGreatest {page | s.Used n page} page ∧ s.Inside n reads) ↔
      2 ≤ n ∧ (s.pip (n - 1)).pipUsed < s.pagesPerPIP ∧
        (s.pipMaxKnown ≠ 0 ∨ s.onRawDevice = false) := by
  by_cases hstart : s.pipMaxKnown ≠ 0 ∨ s.onRawDevice = false
  · obtain ⟨reads, hreads, hfind⟩ := h.findLast_start hstart hfuel
    have hscan := h.inside_scan hreads
    rw [lastUsedPage, hfind]
    dsimp only
    constructor
    · rintro ⟨page, s', reads', heq, hgreatest, hinside⟩
      cases heq
      have hused := hscan.1 hinside
      exact ⟨(h.isGreatest_iff hused).1 hgreatest, hused, hstart⟩
    · rintro ⟨htwo, hused, -⟩
      exact ⟨_, _, _, rfl, (h.isGreatest_iff hused).2 htwo, hscan.2 hused⟩
  · rw [not_or, not_not, Bool.not_eq_false] at hstart
    refine iff_of_false ?_ ?_
    · rintro ⟨page, s', reads, heq, -, hinside⟩
      exact lastUsedPage_raw hstart.1 hstart.2 heq hinside
    · rintro ⟨-, -, hknown | hraw⟩
      · exact hknown hstart.1
      · rw [hstart.2] at hraw
        cases hraw

/-- What is remembered is the last inventory page. -/
theorem Valid.lastUsedPage_valid (h : s.Valid n) (hstart : s.pipMaxKnown ≠ 0 ∨ s.onRawDevice = false)
    (hfuel : n + s.maxAlloc < fuel) {page : ℕ} {s' : PageSpace} {reads : List (ℕ × ℕ)}
    (hlast : s.lastUsedPage fuel = some (page, s', reads)) : s'.Valid n := by
  obtain ⟨reads', -, hfind⟩ := h.findLast_start hstart hfuel
  rw [lastUsedPage, hfind] at hlast
  cases hlast
  have hn := h.nonempty
  exact ⟨h.nonempty, h.isPip, h.pipMin_le, h.belowMin, h.pipUsed_le, h.behindUsed, h.next, h.inFile,
    fun _ => ⟨n - 1, by omega, rfl⟩⟩

/-- `usedPages` and `lastUsedPage` are both right if and only if there are at least two inventory pages, the
last one is not allocated whole, no used page of it is behind the whole bytes that are allocated, and the
search does not begin with the header page. -/
theorem usedPages_lastUsedPage_iff (h : s.Valid n) (hfuel : n + s.maxAlloc < fuel) :
    ((∃ reads, s.usedPages fuel = some (s.usedCount n, reads) ∧ s.Inside n reads) ∧
      ∃ page s' reads, s.lastUsedPage fuel = some (page, s', reads) ∧
        IsGreatest {page | s.Used n page} page ∧ s.Inside n reads) ↔
      (∀ bit, (s.pip (n - 1)).counted ≤ bit → bit < s.pagesPerPIP → (s.pip (n - 1)).free bit = true) ∧
      2 ≤ n ∧ (s.pip (n - 1)).pipUsed < s.pagesPerPIP ∧
        (s.pipMaxKnown ≠ 0 ∨ s.onRawDevice = false) := by
  rw [h.usedPages_iff (by omega), h.lastUsedPage_iff hfuel]

/-- A new database with pages of 4096 bytes: the header page, the inventory page and an SCN page. -/
def newSpace : PageSpace where
  bytesBitPIP := 4068
  pos := by decide
  pages page :=
    if page = pipFirst then ⟨true, 3, 3, fun byte => if byte = 0 then 0xF8 else 0xFF⟩
    else ⟨false, 0, 0, fun _ => 0⟩
  maxAlloc := 3
  onRawDevice := false
  pipMaxKnown := 0

/-- Three pages are used, the last one of which is page 2. None is counted, and page 3 is reported. -/
theorem newSpace_reports :
    newSpace.usedPages 5 = some (0, []) ∧
    (newSpace.lastUsedPage 5).map Prod.fst = some 3 ∧
    (∀ page < 3, page / newSpace.pagesPerPIP = 0 ∧
      (newSpace.pip 0).free (page % newSpace.pagesPerPIP) = false) ∧
    (newSpace.pip 0).free 3 = true := by
  decide +kernel

/-- Two inventory pages for sixteen pages each, the second one with eight used pages. -/
def twoPips : PageSpace where
  bytesBitPIP := 2
  pos := by decide
  pages page :=
    if page = pipFirst then ⟨true, 16, 16, fun byte => if byte < 2 then 0 else 0xFF⟩
    else if page = 15 then ⟨true, 8, 8, fun byte => if byte = 0 then 0 else 0xFF⟩
    else ⟨false, 0, 0, fun _ => 0⟩
  maxAlloc := 24
  onRawDevice := false
  pipMaxKnown := 0

theorem usedPages_lastUsedPage_iff_twoPips :
    (∃ reads, twoPips.usedPages 30 = some (twoPips.usedCount 2, reads) ∧ twoPips.Inside 2 reads) ∧
      ∃ page s' reads, twoPips.lastUsedPage 30 = some (page, s', reads) ∧
        IsGreatest {page | twoPips.Used 2 page} page ∧ twoPips.Inside 2 reads := by
  have hvalid : twoPips.Valid 2 := by
    constructor
    · decide
    · intro i
      match i with
      | 0 => decide
      | 1 => decide
      | i + 2 =>
        have hpage : twoPips.pipPage (i + 2) = (i + 2) * 16 - 1 := rfl
        have hother : (twoPips.pip (i + 2)).isPip = false := by
          rw [pip, hpage, twoPips]
          dsimp only
          rw [if_neg (by rw [pipFirst]; omega), if_neg (by omega)]
        rw [hother]
        simp
    · decide
    · decide +kernel
    · decide
    · intro i hi bit hle hlt
      have hall : ∀ i < 2, ∀ bit < twoPips.pagesPerPIP, (twoPips.pip i).pipUsed ≤ bit →
          (twoPips.pip i).free bit = true := by decide +kernel
      exact hall i hi bit hlt hle
    · decide +kernel
    · decide
    · exact fun hknown => absurd rfl hknown
  refine (usedPages_lastUsedPage_iff hvalid (by decide)).2 ⟨?_, by decide, by decide, .inr rfl⟩
  intro bit hle hlt
  have hall : ∀ bit < twoPips.pagesPerPIP, (twoPips.pip 1).counted ≤ bit →
      (twoPips.pip 1).free bit = true := by decide +kernel
  exact hall bit hlt hle

end PageSpace

end FirebirdCore.Pag
