import FirebirdCore.Lib.LowerBound
import Mathlib.Data.List.Basic
import Mathlib.Tactic

/-!
# The cache of transaction inventory pages

A transaction inventory page holds two bits for each transaction. The cache keeps the pages that were
read, in order of the first transaction on them, and gives the state of a transaction.
-/
namespace FirebirdCore.Tra
open FirebirdCore.LowerBound

/-! ## States -/

/-- The first four states are found on the inventory pages. -/
inductive TraState where
  | active
  | limbo
  | dead
  | committed
  | us
  | precommitted
  deriving DecidableEq, Repr

namespace TraState

def toNat : TraState → ℕ
  | active => 0
  | limbo => 1
  | dead => 2
  | committed => 3
  | us => 4
  | precommitted => 5

/-- The state that two bits of a page stand for. -/
def ofBits : ℕ → TraState
  | 0 => active
  | 1 => limbo
  | 2 => dead
  | _ => committed

end TraState

/-- `TRANS_SHIFT`. -/
def transShift (number : ℕ) : ℕ := (number &&& 3) <<< 1

/-- `TRANS_OFFSET`. -/
def transOffset (number : ℕ) : ℕ := number >>> 2

/-- The state of a transaction in a vector that starts at `oldest`, if the byte that holds it is one of
the vector. The position of this byte has 32 bits. -/
def traState (bitVector : List UInt8) (oldest number : ℕ) : Option TraState :=
  let base := oldest - oldest % 4
  if number < base then none
  else
    bitVector[transOffset (number - base) % 2 ^ 32]?.map fun byte =>
      .ofBits (byte.toNat >>> transShift number &&& 3)

/-! ## Pages -/

/-- The bytes of an inventory page that hold states. -/
structure PageManager where
  tipBytes : ℕ
  pos : 0 < tipBytes
  fits : tipBytes < 2 ^ 16
  deriving DecidableEq, Repr

def PageManager.transPerTIP (m : PageManager) : ℕ := m.tipBytes * 4

theorem PageManager.transPerTIP_pos (m : PageManager) : 0 < m.transPerTIP :=
  Nat.mul_pos m.pos (by omega)

/-- The states on an inventory page. -/
structure TxInvPage (m : PageManager) where
  tipTransactions : List UInt8
  length_eq : tipTransactions.length = m.tipBytes
  deriving DecidableEq, Repr

/-- A page of the cache. -/
structure TxPage (m : PageManager) where
  base : ℕ
  page : TxInvPage m
  deriving DecidableEq, Repr

/-- What the cache reads of the database: the oldest interesting transaction that it knows, the header
page, the inventory pages and the vector of precommitted transactions. -/
structure Database (m : PageManager) where
  oldestTransaction : ℕ
  headerNext : ℕ
  headerOldest : ℕ
  tip : ℕ → Option (TxInvPage m)
  pcTransactions : Option (List ℕ)

variable {m : PageManager}

/-- `TRA_precommited` where it tests for a number. -/
def Database.precommitted (db : Database m) (number : ℕ) : Bool :=
  match db.pcTransactions with
  | none => false
  | some vector => vector.contains number && number != 0

/-! ## The cache -/

/-- The pages of the cache, which are in order. -/
structure TipCache (m : PageManager) where
  pages : List (TxPage m)
  deriving DecidableEq, Repr

namespace TipCache

def empty : TipCache m := ⟨[]⟩

/-- Whether there is a page with this base, and its position. -/
def find (cache : TipCache m) (base : ℕ) : Bool × ℕ :=
  findSorted TxPage.base cache.pages base

/-- A page has been read. Pages whose transactions are all older than the oldest one are released. -/
def updateCache (db : Database m) (tipPage : TxInvPage m) (sequence : ℕ) (cache : TipCache m) :
    TipCache m :=
  let firstTrans := sequence * m.transPerTIP
  let pages := cache.pages.dropWhile fun tip => db.oldestTransaction ≥ tip.base + m.transPerTIP
  ⟨putSorted TxPage.base ⟨firstTrans, tipPage⟩ pages⟩

/-- The pages from `sequence` to `last`. -/
def readPages (db : Database m) (sequence : ℕ) : ℕ → TipCache m → Option (TipCache m)
  | 0, cache => some cache
  | count + 1, cache =>
      match db.tip sequence with
      | none => none
      | some tip => readPages db (sequence + 1) count (cache.updateCache db tip sequence)

/-- `TRA_get_inventory` without a bit vector. Page sequences have 32 bits. If `last` is the greatest of
them, the loop does not end. -/
def getInventory (db : Database m) (base top : ℕ) (cache : TipCache m) : Option (TipCache m) :=
  let sequence := base / m.transPerTIP % 2 ^ 32
  let last := top / m.transPerTIP % 2 ^ 32
  if last = 2 ^ 32 - 1 then none
  else
    match db.tip sequence with
    | none => none
    | some tip =>
        let next := (sequence + 1) % 2 ^ 32
        readPages db next (last + 1 - next) (cache.updateCache db tip sequence)

def cacheTransactions (db : Database m) (oldest : ℕ) (cache : TipCache m) : Option (TipCache m) :=
  let top := db.headerNext
  let hdrOldest := db.headerOldest
  let oldest := max oldest hdrOldest
  (getInventory db oldest top cache).map fun cache =>
    ⟨cache.pages.dropWhile fun tip => tip.base + m.transPerTIP < hdrOldest⟩

/-- `MAX_TRA_NUMBER`. -/
def maxTraNumber : ℕ := 0x0000FFFFFFFFFFFF

def initializeTpc (db : Database m) (number : ℕ) (cache : TipCache m) : Option (TipCache m) :=
  match cache.pages.getLast? with
  | none => cacheTransactions db 0 cache
  | some tip =>
      if number < tip.base + m.transPerTIP then some cache
      else if (tip.base : ℤ) < maxTraNumber - m.transPerTIP then
        cacheTransactions db (tip.base + m.transPerTIP) cache
      else some cache

/-- A byte of a page is changed to hold another state. -/
def TxInvPage.write (page : TxInvPage m) (byte shift state : ℕ) : TxInvPage m :=
  ⟨page.tipTransactions.modify byte fun address =>
    (address &&& ~~~UInt8.ofNat (3 <<< shift)) ||| UInt8.ofNat (state <<< shift),
    by rw [List.length_modify, page.length_eq]⟩

def setState (number state : ℕ) (cache : TipCache m) : TipCache m :=
  let base := number - number % m.transPerTIP
  let byte := transOffset (number % m.transPerTIP)
  let shift := transShift number
  let (found, pos) := cache.find base
  if found then
    ⟨cache.pages.modify pos fun tip => { tip with page := TxInvPage.write tip.page byte shift state }⟩
  else cache

/-- The state of a transaction that is not precommitted. -/
def lookup (cache : TipCache m) (number : ℕ) : Option TraState :=
  match cache.pages.head? with
  | none => none
  | some front =>
      if number < front.base ∨ number = 0 then some .committed
      else
        let base := number - number % m.transPerTIP
        let (found, pos) := cache.find base
        if found then
          cache.pages[pos]?.bind fun tip => traState tip.page.tipTransactions tip.base number
        else some .active

def cacheState (db : Database m) (number : ℕ) (cache : TipCache m) : Option (TipCache m × TraState) :=
  if number ≠ 0 ∧ db.precommitted number then some (cache, .precommitted)
  else
    match if cache.pages.isEmpty then initializeTpc db number cache else some cache with
    | none => none
    | some cache => (cache.lookup number).map fun state => (cache, state)

/-! ## What the operations keep -/

/-- The pages are in order, and each begins where a page of the inventory does. -/
structure Valid (cache : TipCache m) : Prop where
  sorted : cache.pages.Pairwise fun x y => x.base < y.base
  aligned : ∀ tip ∈ cache.pages, m.transPerTIP ∣ tip.base

variable {cache : TipCache m} {db : Database m}

theorem Valid.dropWhile (h : cache.Valid) (p : TxPage m → Bool) :
    Valid ⟨cache.pages.dropWhile p⟩ where
  sorted := h.sorted.sublist (List.dropWhile_sublist p)
  aligned tip htip := h.aligned tip ((List.dropWhile_sublist p).subset htip)

/-- `find` cuts the cache in front of the first page that does not begin before `base`. -/
theorem Valid.find (h : cache.Valid) (base : ℕ) :
    ∃ front back, cache.pages = front ++ back ∧ (∀ tip ∈ front, tip.base < base) ∧
      (∀ tip ∈ back, base ≤ tip.base) ∧
      cache.find base = (back.head?.any fun tip => tip.base = base, front.length) := by
  obtain ⟨front, back, happend, hfront, hback⟩ := exists_cut h.sorted base
  refine ⟨front, back, happend, hfront, hback, ?_⟩
  rw [TipCache.find, happend]
  exact findSorted_append hfront hback

theorem Valid.updateCache (h : cache.Valid) (db : Database m) (tipPage : TxInvPage m)
    (sequence : ℕ) : (cache.updateCache db tipPage sequence).Valid := by
  have h' := h.dropWhile fun tip => db.oldestTransaction ≥ tip.base + m.transPerTIP
  refine ⟨putSorted_sorted h'.sorted _, fun tip htip => ?_⟩
  rcases mem_of_mem_putSorted h'.sorted htip with rfl | htip
  · exact Dvd.intro_left _ rfl
  · exact h'.aligned tip htip

/-- The bases of the pages stay. -/
theorem Valid.modify (h : cache.Valid) {pages : List (TxPage m)}
    (hbase : pages.map TxPage.base = cache.pages.map TxPage.base) : Valid ⟨pages⟩ where
  sorted := by
    have hsorted := List.pairwise_map.2 h.sorted
    rw [← hbase] at hsorted
    exact List.pairwise_map.1 hsorted
  aligned tip htip := by
    obtain ⟨tip', htip', heq⟩ := List.mem_map.1 (hbase ▸ List.mem_map_of_mem htip)
    exact heq ▸ h.aligned tip' htip'

theorem Valid.setState (h : cache.Valid) (number state : ℕ) : (cache.setState number state).Valid := by
  rw [TipCache.setState]
  dsimp only
  split
  · refine h.modify (List.ext_getElem? fun i => ?_)
    rw [List.getElem?_map, List.getElem?_map, List.getElem?_modify]
    cases cache.pages[i]? with
    | none => rfl
    | some tip => split <;> rfl
  · exact h

theorem Valid.readPages (h : cache.Valid) {sequence count : ℕ} {cache' : TipCache m}
    (hread : readPages db sequence count cache = some cache') : cache'.Valid := by
  induction count generalizing sequence cache with
  | zero =>
    cases hread
    exact h
  | succ count ih =>
    rw [TipCache.readPages] at hread
    cases htip : db.tip sequence with
    | none => simp only [htip, reduceCtorEq] at hread
    | some tip =>
      rw [htip] at hread
      exact ih (h.updateCache db tip sequence) hread

theorem Valid.getInventory (h : cache.Valid) {base top : ℕ} {cache' : TipCache m}
    (hread : getInventory db base top cache = some cache') : cache'.Valid := by
  rw [TipCache.getInventory] at hread
  dsimp only at hread
  split at hread
  · cases hread
  · split at hread
    · cases hread
    · exact (h.updateCache db _ _).readPages hread

theorem Valid.cacheTransactions (h : cache.Valid) {oldest : ℕ} {cache' : TipCache m}
    (hread : cacheTransactions db oldest cache = some cache') : cache'.Valid := by
  obtain ⟨read, hinventory, rfl⟩ := Option.map_eq_some_iff.1 hread
  exact (h.getInventory hinventory).dropWhile _

theorem Valid.initializeTpc (h : cache.Valid) {number : ℕ} {cache' : TipCache m}
    (hread : initializeTpc db number cache = some cache') : cache'.Valid := by
  rw [TipCache.initializeTpc] at hread
  split at hread
  · exact h.cacheTransactions hread
  · split_ifs at hread
    · cases hread
      exact h
    · exact h.cacheTransactions hread
    · cases hread
      exact h

/-! ## Where a number is found -/

/-- A number is on the page that begins at `base`. -/
def OnPage (m : PageManager) (base number : ℕ) : Prop := base ≤ number ∧ number < base + m.transPerTIP

theorem OnPage.base_eq {base number : ℕ} (h : OnPage m base number) (hbase : m.transPerTIP ∣ base) :
    number - number % m.transPerTIP = base := by
  obtain ⟨k, rfl⟩ := hbase
  obtain ⟨hle, hlt⟩ := h
  obtain ⟨d, rfl⟩ := Nat.exists_eq_add_of_le hle
  rw [Nat.mul_add_mod, Nat.mod_eq_of_lt (by omega)]
  omega

theorem onPage_base (m : PageManager) (number : ℕ) :
    OnPage m (number - number % m.transPerTIP) number := by
  have hlt := Nat.mod_lt number m.transPerTIP_pos
  have hle := Nat.mod_le number m.transPerTIP
  exact ⟨by omega, by omega⟩

/-- A page that begins behind another begins behind the last number of it. -/
theorem next_le {base next : ℕ} (hbase : m.transPerTIP ∣ base) (hnext : m.transPerTIP ∣ next)
    (hlt : base < next) : base + m.transPerTIP ≤ next := by
  obtain ⟨i, rfl⟩ := hbase
  obtain ⟨k, rfl⟩ := hnext
  have hik : i + 1 ≤ k := Nat.lt_of_mul_lt_mul_left hlt
  calc m.transPerTIP * i + m.transPerTIP = m.transPerTIP * (i + 1) := by ring
    _ ≤ m.transPerTIP * k := Nat.mul_le_mul_left _ hik

theorem Valid.find_page (h : cache.Valid) {front rest : List (TxPage m)} {tip : TxPage m}
    (hpages : cache.pages = front ++ tip :: rest) : cache.find tip.base = (true, front.length) := by
  have hsorted := h.sorted
  rw [hpages, List.pairwise_append] at hsorted
  rw [TipCache.find, hpages, findSorted_append (fun x hx => hsorted.2.2 x hx tip List.mem_cons_self)]
  · simp only [List.head?_cons, Option.any_some, decide_true]
  · exact List.forall_mem_cons.2 ⟨le_rfl, fun x hx => ((List.pairwise_cons.1 hsorted.2.1).1 x hx).le⟩

theorem Valid.find_none (h : cache.Valid) {base : ℕ} (hbase : ∀ tip ∈ cache.pages, tip.base ≠ base) :
    (cache.find base).1 = false := by
  obtain ⟨front, back, hpages, -, -, hfind⟩ := h.find base
  rw [hfind]
  cases back with
  | nil => rfl
  | cons tip back =>
    have hne := hbase tip (by rw [hpages]; exact List.mem_append_right _ List.mem_cons_self)
    simp only [List.head?_cons, Option.any_some, decide_eq_false_iff_not, hne, not_false_eq_true]

/-- The state of a number on a page can be read. -/
theorem Valid.traState_page (h : cache.Valid) {tip : TxPage m} (htip : tip ∈ cache.pages) {number : ℕ}
    (hon : OnPage m tip.base number) :
    ∃ state, traState tip.page.tipTransactions tip.base number = some state := by
  obtain ⟨k, hk⟩ := h.aligned tip htip
  have hmod : tip.base % 4 = 0 := by
    rw [hk, PageManager.transPerTIP, Nat.mul_right_comm]
    exact Nat.mul_mod_left ..
  have hlength := tip.page.length_eq
  have hfits := m.fits
  obtain ⟨hle, hlt⟩ := hon
  rw [PageManager.transPerTIP] at hlt
  have hbyte : transOffset (number - tip.base) < m.tipBytes := by
    rw [transOffset, Nat.shiftRight_eq_div_pow]
    omega
  rw [traState]
  simp only [hmod, Nat.sub_zero]
  rw [if_neg (by omega), Nat.mod_eq_of_lt (by omega), List.getElem?_eq_getElem (by omega)]
  exact ⟨_, rfl⟩

/-- `front` is the first page. -/
theorem Valid.front_le (h : cache.Valid) {front tip : TxPage m} (hfront : cache.pages.head? = some front)
    (htip : tip ∈ cache.pages) : front.base ≤ tip.base := by
  have hsorted := h.sorted
  obtain ⟨rest, hpages⟩ := List.head?_eq_some_iff.1 hfront
  rw [hpages] at htip hsorted
  rcases List.mem_cons.1 htip with rfl | htip
  · exact le_rfl
  · exact ((List.pairwise_cons.1 hsorted).1 tip htip).le

theorem Valid.lookup_page (h : cache.Valid) {tip : TxPage m} (htip : tip ∈ cache.pages) {number : ℕ}
    (hon : OnPage m tip.base number) (hzero : number ≠ 0) :
    cache.lookup number = traState tip.page.tipTransactions tip.base number := by
  obtain ⟨front, rest, hpages⟩ := List.append_of_mem htip
  have hfirst := List.head?_eq_some_head (List.ne_nil_of_mem htip)
  have hle := h.front_le hfirst htip
  have hbase := hon.base_eq (h.aligned tip htip)
  rw [lookup, hfirst]
  dsimp only
  rw [if_neg (by obtain ⟨hle', -⟩ := hon; omega), hbase, h.find_page hpages]
  simp only [if_true, hpages, List.getElem?_append_right le_rfl, Nat.sub_self,
    List.getElem?_cons_zero, Option.bind_some]

theorem lookup_old {front : TxPage m} (hfront : cache.pages.head? = some front) {number : ℕ}
    (hold : number < front.base ∨ number = 0) : cache.lookup number = some .committed := by
  rw [lookup, hfront]
  exact if_pos hold

/-- A number behind the first page and on no page counts as active. -/
theorem Valid.lookup_missing (h : cache.Valid) {front : TxPage m}
    (hfront : cache.pages.head? = some front) {number : ℕ} (hle : front.base ≤ number)
    (hzero : number ≠ 0) (hmissing : ∀ tip ∈ cache.pages, ¬ OnPage m tip.base number) :
    cache.lookup number = some .active := by
  have hfind : (cache.find (number - number % m.transPerTIP)).1 = false := by
    refine h.find_none fun tip htip heq => hmissing tip htip ?_
    rw [heq]
    exact onPage_base m number
  rw [lookup, hfront]
  dsimp only
  rw [if_neg (by omega), hfind]
  rfl

/-- With a page in the cache, every number has a state. -/
theorem Valid.lookup_isSome (h : cache.Valid) {front : TxPage m}
    (hfront : cache.pages.head? = some front) (number : ℕ) :
    ∃ state, cache.lookup number = some state := by
  by_cases hold : number < front.base ∨ number = 0
  · exact ⟨_, lookup_old hfront hold⟩
  · rw [not_or] at hold
    by_cases hpage : ∃ tip ∈ cache.pages, OnPage m tip.base number
    · obtain ⟨tip, htip, hon⟩ := hpage
      rw [h.lookup_page htip hon hold.2]
      exact h.traState_page htip hon
    · exact ⟨_, h.lookup_missing hfront (not_lt.1 hold.1) hold.2 fun tip htip hon =>
        hpage ⟨tip, htip, hon⟩⟩

/-- The caches that the operations reach, each with what it reads of the database then. -/
inductive Reached : TipCache m → Prop where
  | empty : Reached empty
  | updateCache {cache : TipCache m} (db : Database m) (tipPage : TxInvPage m) (sequence : ℕ)
      (h : Reached cache) : Reached (cache.updateCache db tipPage sequence)
  | setState {cache : TipCache m} (number state : ℕ) (h : Reached cache) :
      Reached (cache.setState number state)
  | cacheTransactions {cache cache' : TipCache m} (db : Database m) (oldest : ℕ) (h : Reached cache)
      (hread : cacheTransactions db oldest cache = some cache') : Reached cache'

theorem Reached.valid (h : cache.Reached) : cache.Valid := by
  induction h with
  | empty => exact ⟨List.Pairwise.nil, fun _ h => absurd h List.not_mem_nil⟩
  | updateCache db tipPage sequence _ ih => exact ih.updateCache db tipPage sequence
  | setState number state _ ih => exact ih.setState number state
  | cacheTransactions db oldest _ hread ih => exact ih.cacheTransactions hread

end TipCache

end FirebirdCore.Tra
