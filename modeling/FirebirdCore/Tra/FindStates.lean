import FirebirdCore.Tra.TipCache

/-!
# The search for transactions in some state

`findStates` walks the pages of the cache from the one of the first number that is asked for. It
answers as `cacheState` does, as long as nothing that counts lies where the walk does not look.
-/
namespace FirebirdCore.Tra

variable {m : PageManager}

/-- `check_state`. -/
def checkState (state : TraState) (mask : ℕ) : Bool := mask.testBit state.toNat

namespace TipCache

/-- One number on a page: nothing that is wanted, or its state. A number in front of the page is read
outside of it. -/
def look (db : Database m) (mask : ℕ) (checkPrecommitted : Bool) (tip : TxPage m) (number : ℕ) :
    Option (Option TraState) :=
  if checkPrecommitted && number != 0 && db.precommitted number then some (some .precommitted)
  else
    (traState tip.page.tipTransactions tip.base number).map fun txState =>
      if checkState txState mask then some txState else none

/-- The numbers of a page. -/
def scanPage (look : ℕ → Option (Option TraState)) (number : ℕ) : ℕ → Option (Option (ℕ × TraState))
  | 0 => some none
  | count + 1 =>
      match look number with
      | none => none
      | some (some state) => some (some (number, state))
      | some none => scanPage look (number + 1) count

/-- The pages from the one of `number` on. -/
def scanPages (look : TxPage m → ℕ → Option (Option TraState)) (maxNumber : ℕ) :
    ℕ → List (TxPage m) → Option (Option (ℕ × TraState))
  | _, [] => some none
  | number, tip :: pages =>
      if number < maxNumber then
        let bound := min (tip.base + m.transPerTIP) maxNumber
        match scanPage (look tip) number (bound - number) with
        | some none => scanPages look maxNumber (max number bound) pages
        | r => r
      else some none

/-- The number that is found and its state, or 0 and the state that the caller had. -/
def search (db : Database m) (minNumber maxNumber mask : ℕ) (state : TraState) (cache : TipCache m) :
    Option (ℕ × TraState) :=
  match cache.pages.head? with
  | none => none
  | some front =>
      if maxNumber < front.base then some (0, state)
      else if (minNumber < front.base ∨ minNumber = 0) ∧ checkState .committed mask then
        some (minNumber, .committed)
      else
        let minNumber := if minNumber < front.base ∨ minNumber = 0 then front.base else minNumber
        if checkState .precommitted mask && db.pcTransactions.isNone && mask == 1 <<< 5 then
          some (0, state)
        else
          let checkPrecommitted := checkState .precommitted mask && db.pcTransactions.isSome
          let base := minNumber - minNumber % m.transPerTIP
          let (found, pos) := cache.find base
          if found then
            (scanPages (look db mask checkPrecommitted) maxNumber minNumber
              (cache.pages.drop pos)).map fun r => r.getD (0, state)
          else some (0, state)

/-- The cache that it leaves, and the answer. -/
def findStates (db : Database m) (minNumber maxNumber mask : ℕ) (state : TraState)
    (cache : TipCache m) : Option (TipCache m × Option (ℕ × TraState)) :=
  (initializeTpc db maxNumber cache).map fun cache =>
    (cache, cache.search db minNumber maxNumber mask state)

/-! ## What is asked for -/

/-- The state that `cacheState` reports. -/
def reported (db : Database m) (cache : TipCache m) (number : ℕ) : Option TraState :=
  (cacheState db number cache).map Prod.snd

/-- The state of the number is one of the mask. -/
def Wanted (db : Database m) (cache : TipCache m) (mask number : ℕ) : Prop :=
  ∃ state, cache.reported db number = some state ∧ checkState state mask

/-- The answer is the first number with a state of the mask and its state, and 0 if there is none. -/
structure Finds (db : Database m) (cache : TipCache m) (minNumber maxNumber mask : ℕ)
    (answer : ℕ × TraState) : Prop where
  hit : answer.1 ≠ 0 → minNumber ≤ answer.1 ∧ answer.1 < maxNumber ∧
    cache.reported db answer.1 = some answer.2 ∧ checkState answer.2 mask ∧
    ∀ n, minNumber ≤ n → n < answer.1 → ¬ cache.Wanted db mask n
  none : answer.1 = 0 ↔ ∀ n, minNumber ≤ n → n < maxNumber → ¬ cache.Wanted db mask n

/-! ## Where the walk looks -/

/-- The first number from `number` on that is on no page. -/
def edge : ℕ → List (TxPage m) → ℕ
  | number, [] => number
  | number, tip :: pages =>
      if tip.base ≤ number then edge (max number (tip.base + m.transPerTIP)) pages else number

/-- The page of the number holds a state of the mask for it, though another one is reported: it is
number 0, which counts as committed, or it is precommitted. -/
def Misleads (db : Database m) (cache : TipCache m) (mask number : ℕ) : Prop :=
  (number = 0 ∨ db.precommitted number) ∧ ¬ cache.Wanted db mask number ∧
    ∃ tip ∈ cache.pages, OnPage m tip.base number ∧
      (traState tip.page.tipTransactions tip.base number).any (checkState · mask)

/-- From `number` on, no page misleads the walk before it finds something or before the pages end. In a
gap between pages it recognizes a precommitted number only, and behind the pages nothing. -/
def WalkSees (db : Database m) (cache : TipCache m) (number maxNumber mask : ℕ) : Prop :=
  let e := edge number cache.pages
  (∃ n, number ≤ n ∧ n < e ∧ n < maxNumber ∧ cache.Wanted db mask n ∧
    ∀ i, number ≤ i → i < n → ¬ cache.Misleads db mask i) ∨
  (∀ n, number ≤ n → n < e → n < maxNumber → ¬ cache.Misleads db mask n) ∧
    (maxNumber ≤ e ∨
      if number < e ∧ ∃ tip ∈ cache.pages, e < tip.base then
        checkState .precommitted mask ∧ db.precommitted e
      else ∀ n, e ≤ n → n < maxNumber → ¬ cache.Wanted db mask n) ∨
  number = 0 ∧ cache.Misleads db mask 0 ∧ ∀ n < maxNumber, ¬ cache.Wanted db mask n

/-- When the search sees what it is asked for. -/
def Sees (db : Database m) (cache : TipCache m) (minNumber maxNumber mask : ℕ) : Prop :=
  match cache.pages.head? with
  | none => False
  | some front =>
      if maxNumber < front.base then
        ∀ n, minNumber ≤ n → n < maxNumber → ¬ cache.Wanted db mask n
      else if (minNumber < front.base ∨ minNumber = 0) ∧ checkState .committed mask then
        minNumber ≠ 0 ∧ ¬ db.precommitted minNumber
      else if checkState .precommitted mask && db.pcTransactions.isNone && mask == 1 <<< 5 then True
      else
        let start := if minNumber < front.base ∨ minNumber = 0 then front.base else minNumber
        (checkState .precommitted mask → ∀ n, minNumber ≤ n → n < start → ¬ db.precommitted n) ∧
          WalkSees db cache start maxNumber mask

/-! ## The walk -/

/-- The first of `count` numbers with something that is wanted. -/
def firstHit (want : ℕ → Option TraState) (number : ℕ) : ℕ → Option (ℕ × TraState)
  | 0 => none
  | count + 1 =>
      match want number with
      | some state => some (number, state)
      | none => firstHit want (number + 1) count

theorem firstHit_spec (want : ℕ → Option TraState) (number count : ℕ) :
    (firstHit want number count = none ∧ ∀ n, number ≤ n → n < number + count → want n = none) ∨
      ∃ n state, firstHit want number count = some (n, state) ∧ number ≤ n ∧ n < number + count ∧
        want n = some state ∧ ∀ i, number ≤ i → i < n → want i = none := by
  induction count generalizing number with
  | zero => exact .inl ⟨rfl, fun n hle hlt => by omega⟩
  | succ count ih =>
    rw [firstHit]
    cases hwant : want number with
    | some state => exact .inr ⟨number, state, rfl, le_rfl, by omega, hwant, fun i hle hlt => by omega⟩
    | none =>
      have hhead (i : ℕ) (hle : number ≤ i) (hi : number + 1 ≤ i → want i = none) : want i = none := by
        rcases Nat.eq_or_lt_of_le hle with rfl | hlt
        · exact hwant
        · exact hi hlt
      rcases ih (number + 1) with ⟨hnone, hall⟩ | ⟨n, state, hsome, hle, hlt, hn, hbefore⟩
      · exact .inl ⟨hnone, fun n hle hlt => hhead n hle fun h => hall n h (by omega)⟩
      · exact .inr ⟨n, state, hsome, by omega, by omega, hn,
          fun i hle hlt => hhead i hle fun h => hbefore i h hlt⟩

theorem firstHit_add (want : ℕ → Option TraState) (number a b : ℕ) :
    firstHit want number (a + b) = (firstHit want number a).or (firstHit want (number + a) b) := by
  induction a generalizing number with
  | zero => rw [Nat.zero_add]; rfl
  | succ a ih =>
    rw [Nat.succ_add, firstHit, firstHit]
    cases want number with
    | some state => rfl
    | none => rw [ih, Nat.add_right_comm, Nat.add_assoc]

theorem scanPage_eq {look : ℕ → Option (Option TraState)} {want : ℕ → Option TraState}
    {number count : ℕ} (hlook : ∀ n, number ≤ n → n < number + count → look n = some (want n)) :
    scanPage look number count = some (firstHit want number count) := by
  induction count generalizing number with
  | zero => rfl
  | succ count ih =>
    rw [scanPage, firstHit, hlook number le_rfl (by omega)]
    cases want number with
    | some state => rfl
    | none => exact ih fun n hle hlt => hlook n (by omega) (by omega)

theorem le_edge (number : ℕ) (pages : List (TxPage m)) : number ≤ edge number pages := by
  induction pages generalizing number with
  | nil => exact le_rfl
  | cons tip pages ih =>
    rw [edge]
    split
    · exact (le_max_left ..).trans (ih _)
    · exact le_rfl

/-- What the walk answers, for pages that do not end before `number`. -/
theorem scanPages_eq {look : TxPage m → ℕ → Option (Option TraState)} {want : ℕ → Option TraState}
    (pre : ℕ → Bool) {maxNumber number : ℕ} {pages : List (TxPage m)}
    (hsorted : pages.Pairwise fun x y => x.base < y.base)
    (haligned : ∀ tip ∈ pages, m.transPerTIP ∣ tip.base)
    (hlook : ∀ tip ∈ pages, ∀ n, number ≤ n → OnPage m tip.base n → look tip n = some (want n))
    (hgap : ∀ tip ∈ pages, ∀ n < tip.base,
      look tip n = if pre n then some (some .precommitted) else none)
    (hstart : ∀ tip ∈ pages, number < tip.base + m.transPerTIP) :
    scanPages look maxNumber number pages =
      match firstHit want number (min (edge number pages) maxNumber - number) with
      | some r => some (some r)
      | none =>
          if maxNumber ≤ edge number pages ∨ ∀ tip ∈ pages, tip.base ≤ edge number pages then some none
          else if pre (edge number pages) then some (some (edge number pages, .precommitted))
          else none := by
  induction pages generalizing number with
  | nil =>
    rw [scanPages, edge, Nat.sub_eq_zero_of_le (min_le_left ..), firstHit]
    exact (if_pos (.inr fun _ h => absurd h List.not_mem_nil)).symm
  | cons tip pages ih =>
    obtain ⟨hnext, hsorted'⟩ := List.pairwise_cons.1 hsorted
    have hhead := hstart tip List.mem_cons_self
    have hedge := le_edge number (tip :: pages)
    rw [scanPages]
    by_cases hmax : number < maxNumber
    · rw [if_pos hmax]
      dsimp only
      by_cases hbase : tip.base ≤ number
      · -- the numbers that are left on this page, and then the next pages
        have hscan : scanPage (look tip) number (min (tip.base + m.transPerTIP) maxNumber - number) =
            some (firstHit want number (min (tip.base + m.transPerTIP) maxNumber - number)) :=
          scanPage_eq fun n hle hlt => hlook tip List.mem_cons_self n hle ⟨by omega, by omega⟩
        have hbound : max number (tip.base + m.transPerTIP) = tip.base + m.transPerTIP := by omega
        have hafter (x) (hx : x ∈ pages) : tip.base + m.transPerTIP ≤ x.base :=
          next_le (haligned tip List.mem_cons_self) (haligned x (List.mem_cons_of_mem _ hx)) (hnext x hx)
        have hedge' : edge number (tip :: pages) = edge (tip.base + m.transPerTIP) pages := by
          rw [edge, if_pos hbase, hbound]
        have hle := le_edge (tip.base + m.transPerTIP) pages
        rw [hscan, hedge']
        by_cases hlast : maxNumber ≤ tip.base + m.transPerTIP
        · have hcount : min (edge (tip.base + m.transPerTIP) pages) maxNumber - number =
              min (tip.base + m.transPerTIP) maxNumber - number := by omega
          rw [hcount]
          cases firstHit want number (min (tip.base + m.transPerTIP) maxNumber - number) with
          | some r => rfl
          | none =>
            dsimp only
            rw [if_pos (.inl (by omega))]
            cases pages with
            | nil => rfl
            | cons x pages => rw [scanPages, if_neg (by omega)]
        · have hcount : min (edge (tip.base + m.transPerTIP) pages) maxNumber - number =
              (min (tip.base + m.transPerTIP) maxNumber - number) +
                (min (edge (tip.base + m.transPerTIP) pages) maxNumber - (tip.base + m.transPerTIP)) := by
            omega
          have hat : number + (min (tip.base + m.transPerTIP) maxNumber - number) =
              tip.base + m.transPerTIP := by omega
          rw [hcount, firstHit_add, hat]
          cases firstHit want number (min (tip.base + m.transPerTIP) maxNumber - number) with
          | some r => rfl
          | none =>
            dsimp only
            rw [Option.none_or,
              show max number (min (tip.base + m.transPerTIP) maxNumber) = tip.base + m.transPerTIP by omega,
              ih hsorted' (fun x hx => haligned x (List.mem_cons_of_mem _ hx))
                (fun x hx n hn => hlook x (List.mem_cons_of_mem _ hx) n (by omega))
                (fun x hx => hgap x (List.mem_cons_of_mem _ hx))
                (fun x hx => (hafter x hx).trans_lt (Nat.lt_add_of_pos_right m.transPerTIP_pos))]
            have hcond : (∀ x ∈ tip :: pages, x.base ≤ edge (tip.base + m.transPerTIP) pages) ↔
                ∀ x ∈ pages, x.base ≤ edge (tip.base + m.transPerTIP) pages := by
              rw [List.forall_mem_cons]
              exact and_iff_right (by omega)
            simp only [hcond]
      · -- a gap in front of the page
        have hedge' : edge number (tip :: pages) = number := if_neg hbase
        have hpos : 0 < min (tip.base + m.transPerTIP) maxNumber - number := by omega
        obtain ⟨count, hcount⟩ := Nat.exists_eq_succ_of_ne_zero hpos.ne'
        have hcond : ¬ (maxNumber ≤ number ∨ ∀ x ∈ tip :: pages, x.base ≤ number) := by
          rw [not_or]
          exact ⟨by omega, fun h => hbase (h tip List.mem_cons_self)⟩
        rw [hedge', hcount, scanPage, hgap tip List.mem_cons_self number (by omega),
          Nat.sub_eq_zero_of_le (min_le_left ..), firstHit]
        simp only [if_neg hcond]
        cases pre number <;> rfl
    · rw [if_neg hmax, show min (edge number (tip :: pages)) maxNumber - number = 0 by omega, firstHit]
      exact (if_pos (.inl (by omega))).symm

theorem edge_covered {number n : ℕ} {pages : List (TxPage m)} (hle : number ≤ n)
    (hlt : n < edge number pages) : ∃ tip ∈ pages, OnPage m tip.base n := by
  induction pages generalizing number with
  | nil => exact absurd hlt (not_lt.2 hle)
  | cons tip pages ih =>
    rw [edge] at hlt
    split at hlt
    · rename_i hbase
      by_cases hpage : n < tip.base + m.transPerTIP
      · exact ⟨tip, List.mem_cons_self, hbase.trans hle, hpage⟩
      · obtain ⟨x, hx, hon⟩ := ih (by omega) hlt
        exact ⟨x, List.mem_cons_of_mem _ hx, hon⟩
    · exact absurd hlt (not_lt.2 hle)

theorem edge_missing {number : ℕ} {pages : List (TxPage m)}
    (hmissing : ∀ tip ∈ pages, ¬ OnPage m tip.base number) : edge number pages = number := by
  induction pages with
  | nil => rfl
  | cons tip pages ih =>
    have htip := hmissing tip List.mem_cons_self
    rw [edge]
    split
    · rename_i hbase
      rw [max_eq_left (not_lt.1 fun h => htip ⟨hbase, h⟩)]
      exact ih fun x hx => hmissing x (List.mem_cons_of_mem _ hx)
    · rfl

/-- The pages that end before `number` do not count. -/
theorem edge_append {number : ℕ} {front rest : List (TxPage m)}
    (hfront : ∀ tip ∈ front, tip.base + m.transPerTIP ≤ number) :
    edge number (front ++ rest) = edge number rest := by
  induction front with
  | nil => rfl
  | cons tip front ih =>
    have htip := hfront tip List.mem_cons_self
    rw [List.cons_append, edge, if_pos ((Nat.le_add_right ..).trans htip), max_eq_left htip]
    exact ih fun x hx => hfront x (List.mem_cons_of_mem _ hx)

/-! ## What is reported -/

variable {db : Database m} {cache : TipCache m} {mask : ℕ}

theorem reported_eq (hne : cache.pages ≠ []) (number : ℕ) :
    cache.reported db number =
      if db.precommitted number then some .precommitted else cache.lookup number := by
  have hzero : number ≠ 0 ∧ db.precommitted number ↔ db.precommitted number := by
    refine and_iff_right_of_imp fun h hnumber => ?_
    rw [Database.precommitted] at h
    split at h
    · cases h
    · rw [hnumber, bne_self_eq_false, Bool.and_false] at h
      cases h
  rw [reported, cacheState]
  simp only [hzero]
  split
  · rfl
  · rw [if_neg (by rwa [List.isEmpty_iff])]
    dsimp only
    rw [Option.map_map]
    exact Option.map_id' ..

/-- The state that the pages have for a number. Number 0 is on the first page, if it is on one. -/
def paged (cache : TipCache m) (number : ℕ) : Option TraState :=
  if number = 0 then
    cache.pages.head?.bind fun front => traState front.page.tipTransactions front.base 0
  else cache.lookup number

/-- What a look at a number on its page gives. -/
def seen (db : Database m) (cache : TipCache m) (mask number : ℕ) : Option TraState :=
  if checkState .precommitted mask && db.precommitted number then some .precommitted
  else (cache.paged number).filter fun state => checkState state mask

theorem Valid.paged_eq (h : cache.Valid) {tip : TxPage m} (htip : tip ∈ cache.pages) {number : ℕ}
    (hon : OnPage m tip.base number) :
    cache.paged number = traState tip.page.tipTransactions tip.base number := by
  rw [paged]
  split
  · rename_i hzero
    obtain ⟨hle, -⟩ := hon
    obtain ⟨front, rest, hpages⟩ := List.exists_cons_of_ne_nil (List.ne_nil_of_mem htip)
    have hfront : front = tip := by
      rw [hpages] at htip
      rcases List.mem_cons.1 htip with heq | hrest
      · exact heq.symm
      · have hlt := (List.pairwise_cons.1 (hpages ▸ h.sorted)).1 tip hrest
        omega
    rw [hpages, hfront, hzero]
    rfl
  · exact h.lookup_page htip hon ‹_›

theorem precommitted_zero (db : Database m) : db.precommitted 0 = false := by
  rw [Database.precommitted]
  cases db.pcTransactions with
  | none => rfl
  | some vector => exact Bool.and_false _

theorem isSome_of_precommitted {number : ℕ} (h : db.precommitted number) : db.pcTransactions.isSome := by
  rw [Database.precommitted] at h
  cases hpc : db.pcTransactions with
  | none => rw [hpc] at h; cases h
  | some vector => rfl

/-- The precommitted numbers that the walk recognizes. -/
theorem recognized_eq (number : ℕ) :
    (checkState .precommitted mask && db.pcTransactions.isSome && number != 0 && db.precommitted number)
      = (checkState .precommitted mask && db.precommitted number) := by
  cases hpre : db.precommitted number with
  | false => rw [Bool.and_false, Bool.and_false]
  | true =>
    have hne : number ≠ 0 := by
      rintro rfl
      rw [precommitted_zero] at hpre
      cases hpre
    rw [isSome_of_precommitted hpre, bne_iff_ne.2 hne, Bool.and_true, Bool.and_true]

theorem Valid.look_page (h : cache.Valid) {tip : TxPage m} (htip : tip ∈ cache.pages) {number : ℕ}
    (hon : OnPage m tip.base number) :
    look db mask (checkState .precommitted mask && db.pcTransactions.isSome) tip number =
      some (cache.seen db mask number) := by
  obtain ⟨state, hstate⟩ := h.traState_page htip hon
  rw [look, recognized_eq, seen, h.paged_eq htip hon, hstate]
  split
  · rfl
  · rw [Option.map_some, Option.filter_some]

theorem look_gap {tip : TxPage m} {number : ℕ} (h : cache.Valid) (htip : tip ∈ cache.pages)
    (hlt : number < tip.base) :
    look db mask (checkState .precommitted mask && db.pcTransactions.isSome) tip number =
      if checkState .precommitted mask && db.precommitted number then some (some .precommitted)
      else none := by
  obtain ⟨k, hk⟩ := h.aligned tip htip
  have hmod : tip.base % 4 = 0 := by
    rw [hk, PageManager.transPerTIP, Nat.mul_right_comm]
    exact Nat.mul_mod_left ..
  rw [look, recognized_eq, traState]
  simp only [hmod, Nat.sub_zero, if_pos hlt, Option.map_none]

/-- Behind number 0, the state that is found is the one that is reported, if a page does not mislead. -/
theorem seen_eq_some (hne : cache.pages ≠ []) {number : ℕ} {state : TraState}
    (h : cache.seen db mask number = some state) :
    checkState state mask ∧
      (number ≠ 0 → ¬ (checkState .precommitted mask = false ∧ db.precommitted number) →
        cache.reported db number = some state) := by
  rw [seen] at h
  rw [reported_eq hne]
  split at h
  · rename_i hpre
    rw [Bool.and_eq_true] at hpre
    cases h
    exact ⟨hpre.1, fun _ _ => if_pos hpre.2⟩
  · rename_i hpre
    rw [Option.filter_eq_some_iff] at h
    refine ⟨h.2, fun hzero hmask => ?_⟩
    rw [paged, if_neg hzero] at h
    rw [if_neg (fun hp => hmask ⟨by simpa [hp] using hpre, hp⟩)]
    exact h.1

/-- Number 0 is not asked for with the committed ones. -/
theorem not_wanted_zero {front : TxPage m} (hfront : cache.pages.head? = some front)
    (hmask : checkState .committed mask = false) : ¬ cache.Wanted db mask 0 := by
  rintro ⟨state, hstate, hcheck⟩
  have hne : cache.pages ≠ [] := fun h => by rw [h] at hfront; cases hfront
  rw [reported_eq hne, precommitted_zero, if_neg Bool.false_ne_true, lookup_old hfront (.inr rfl)] at hstate
  cases hstate
  rw [hmask] at hcheck
  cases hcheck

theorem wanted_of_seen (hne : cache.pages ≠ []) {number : ℕ} {state : TraState}
    (h : cache.seen db mask number = some state) (hzero : number ≠ 0)
    (hmask : ¬ (checkState .precommitted mask = false ∧ db.precommitted number)) :
    cache.Wanted db mask number :=
  ⟨state, (seen_eq_some hne h).2 hzero hmask, (seen_eq_some hne h).1⟩

theorem Valid.misleads_of_seen (h : cache.Valid) {tip : TxPage m} (htip : tip ∈ cache.pages)
    {number : ℕ} {state : TraState} (hon : OnPage m tip.base number)
    (hseen : cache.seen db mask number = some state) (hwanted : ¬ cache.Wanted db mask number) :
    cache.Misleads db mask number := by
  have hne := List.ne_nil_of_mem htip
  have hwhy : number = 0 ∨ checkState .precommitted mask = false ∧ db.precommitted number := by
    by_contra hcon
    rw [not_or] at hcon
    exact hwanted (wanted_of_seen hne hseen hcon.1 hcon.2)
  refine ⟨hwhy.imp_right And.right, hwanted, tip, htip, hon, ?_⟩
  have hpre : (checkState .precommitted mask && db.precommitted number) = false := by
    rcases hwhy with rfl | ⟨hmask, -⟩
    · rw [precommitted_zero, Bool.and_false]
    · rw [hmask, Bool.false_and]
  rw [seen, hpre, if_neg Bool.false_ne_true, Option.filter_eq_some_iff, h.paged_eq htip hon] at hseen
  rw [hseen.1]
  exact hseen.2

theorem Valid.seen_of_misleads (h : cache.Valid) {number : ℕ} (hmis : cache.Misleads db mask number) :
    cache.seen db mask number ≠ none := by
  obtain ⟨-, -, tip, htip, hon, hany⟩ := hmis
  obtain ⟨state, hstate, hcheck⟩ := (Option.any_eq_true ..).1 hany
  rw [seen]
  split
  · exact Option.some_ne_none _
  · rw [h.paged_eq htip hon, hstate, Option.filter_some, if_pos hcheck]
    exact Option.some_ne_none _

theorem seen_of_wanted (hne : cache.pages ≠ []) {number : ℕ} (hzero : number ≠ 0)
    (hwanted : cache.Wanted db mask number) : cache.seen db mask number ≠ none := by
  obtain ⟨state, hstate, hcheck⟩ := hwanted
  rw [reported_eq hne] at hstate
  rw [seen, paged, if_neg hzero]
  split at hstate
  · rename_i hpre
    cases hstate
    rw [hcheck, hpre]
    exact Option.some_ne_none _
  · rename_i hpre
    rw [hstate, Option.filter_some, if_pos hcheck]
    split <;> exact Option.some_ne_none _

/-! ## The walk over the cache -/

/-- The walk from a number that is on a page. -/
theorem Valid.scanPages_eq (h : cache.Valid) {front rest : List (TxPage m)} {tip : TxPage m}
    (hpages : cache.pages = front ++ tip :: rest) {number : ℕ} (hon : OnPage m tip.base number)
    (maxNumber : ℕ) :
    scanPages (look db mask (checkState .precommitted mask && db.pcTransactions.isSome)) maxNumber
        number (tip :: rest) =
      match firstHit (cache.seen db mask) number
        (min (edge number cache.pages) maxNumber - number) with
      | some r => some (some r)
      | none =>
          if maxNumber ≤ edge number cache.pages ∨
              ∀ tip ∈ cache.pages, tip.base ≤ edge number cache.pages then some none
          else if checkState .precommitted mask && db.precommitted (edge number cache.pages) then
            some (some (edge number cache.pages, .precommitted))
          else none := by
  have hsorted := h.sorted
  have haligned := h.aligned
  rw [hpages] at hsorted haligned
  have hsub (x) (hx : x ∈ tip :: rest) : x ∈ cache.pages := hpages ▸ List.mem_append_right _ hx
  have hfront (x) (hx : x ∈ front) : x.base + m.transPerTIP ≤ number := by
    have hlt := (List.pairwise_append.1 hsorted).2.2 x hx tip List.mem_cons_self
    exact (next_le (haligned x (List.mem_append_left _ hx))
      (haligned tip (List.mem_append_right _ List.mem_cons_self)) hlt).trans hon.1
  have hedge : edge number cache.pages = edge number (tip :: rest) := by
    rw [hpages, edge_append hfront]
  have hall : (∀ x ∈ cache.pages, x.base ≤ edge number (tip :: rest)) ↔
      ∀ x ∈ tip :: rest, x.base ≤ edge number (tip :: rest) := by
    refine ⟨fun hx x hmem => hx x (hsub x hmem), fun hx x hmem => ?_⟩
    rw [hpages, List.mem_append] at hmem
    rcases hmem with hmem | hmem
    · have hle := hfront x hmem
      have hle' := le_edge number (tip :: rest)
      omega
    · exact hx x hmem
  rw [hedge]
  simp only [hall]
  refine TipCache.scanPages_eq (fun n => checkState .precommitted mask && db.precommitted n)
    (List.pairwise_append.1 hsorted).2.1
    (fun x hx => haligned x (List.mem_append_right _ hx))
    (fun x hx n _ hn => h.look_page (hsub x hx) hn) (fun x hx n hn => look_gap h (hsub x hx) hn)
    (fun x hx => ?_)
  rcases List.mem_cons.1 hx with rfl | hx
  · exact hon.2
  · have hlt := (List.pairwise_cons.1 (List.pairwise_append.1 hsorted).2.1).1 x hx
    exact hon.2.trans_le (by omega)

theorem lt_edge {front rest : List (TxPage m)} {tip : TxPage m}
    (hfront : ∀ x ∈ front, x.base + m.transPerTIP ≤ tip.base) {number : ℕ}
    (hon : OnPage m tip.base number) : number < edge number (front ++ tip :: rest) := by
  have hle := le_edge (max number (tip.base + m.transPerTIP)) rest
  rw [edge_append fun x hx => (hfront x hx).trans hon.1, edge, if_pos hon.1]
  exact hon.2.trans_le ((le_max_right ..).trans hle)

theorem finds_zero_iff {minNumber maxNumber : ℕ} {state : TraState} :
    Finds db cache minNumber maxNumber mask (0, state) ↔
      ∀ n, minNumber ≤ n → n < maxNumber → ¬ cache.Wanted db mask n :=
  ⟨fun h => h.none.1 rfl, fun h => ⟨fun hne => absurd rfl hne, fun _ => h, fun _ => rfl⟩⟩

/-- The first number that is wanted, with the state that is reported. -/
theorem finds_first {minNumber maxNumber number : ℕ} {state : TraState} (hzero : number ≠ 0)
    (hmin : minNumber ≤ number) (hmax : number < maxNumber)
    (hstate : cache.reported db number = some state) (hcheck : checkState state mask)
    (hbefore : ∀ n, minNumber ≤ n → n < number → ¬ cache.Wanted db mask n) :
    Finds db cache minNumber maxNumber mask (number, state) where
  hit _ := ⟨hmin, hmax, hstate, hcheck, hbefore⟩
  none := ⟨fun h => absurd h hzero, fun h => absurd ⟨state, hstate, hcheck⟩ (h number hmin hmax)⟩

theorem walkSees_of_quiet {number maxNumber : ℕ}
    (hquiet : ∀ n, number ≤ n → n < edge number cache.pages → n < maxNumber →
      ¬ cache.Wanted db mask n ∧ ¬ cache.Misleads db mask n)
    (hlt : number < edge number cache.pages) (hmax : number < maxNumber) :
    WalkSees db cache number maxNumber mask ↔
      maxNumber ≤ edge number cache.pages ∨
        if ∃ tip ∈ cache.pages, edge number cache.pages < tip.base then
          checkState .precommitted mask ∧ db.precommitted (edge number cache.pages)
        else ∀ n, edge number cache.pages ≤ n → n < maxNumber → ¬ cache.Wanted db mask n := by
  rw [WalkSees]
  simp only [hlt, true_and]
  constructor
  · rintro (⟨n, hle, hn, hnmax, hwanted, -⟩ | ⟨-, hend⟩ | ⟨rfl, hmis, -⟩)
    · exact absurd hwanted (hquiet n hle hn hnmax).1
    · exact hend
    · exact absurd hmis (hquiet 0 le_rfl hlt hmax).2
  · exact fun h => .inr (.inl ⟨fun n hle hn hnmax => (hquiet n hle hn hnmax).2, h⟩)

/-- A page misleads the walk at the first number at which it stops. -/
theorem walkSees_of_misleads {number maxNumber n : ℕ} (hle : number ≤ n)
    (hn : n < edge number cache.pages) (hmax : n < maxNumber) (hmis : cache.Misleads db mask n)
    (hbefore : ∀ i, number ≤ i → i < n → ¬ cache.Wanted db mask i ∧ ¬ cache.Misleads db mask i) :
    WalkSees db cache number maxNumber mask ↔
      n = 0 ∧ ∀ i < maxNumber, ¬ cache.Wanted db mask i := by
  constructor
  · rintro (⟨k, hk, -, -, hwanted, hclear⟩ | ⟨hclear, -⟩ | ⟨rfl, hzero, hnone⟩)
    · rcases lt_trichotomy k n with hlt | rfl | hgt
      · exact absurd hwanted (hbefore k hk hlt).1
      · exact absurd hwanted hmis.2.1
      · exact absurd hmis (hclear n hle hgt)
    · exact absurd hmis (hclear n hle hn hmax)
    · refine ⟨?_, hnone⟩
      by_contra hne
      exact (hbefore 0 le_rfl (Nat.pos_of_ne_zero hne)).2 hzero
  · rintro ⟨rfl, hnone⟩
    exact .inr (.inr ⟨Nat.le_zero.1 hle, hmis, hnone⟩)

theorem Valid.walk_finds_iff (h : cache.Valid) {first : TxPage m}
    (hfirst : cache.pages.head? = some first) {front rest : List (TxPage m)} {tip : TxPage m}
    (hpages : cache.pages = front ++ tip :: rest) {minNumber number maxNumber : ℕ}
    (hmask : number = 0 → checkState .committed mask = false) (hon : OnPage m tip.base number) (hmin : minNumber ≤ number)
    (hmax : number < maxNumber)
    (hbelow : ∀ n, minNumber ≤ n → n < number → ¬ cache.Wanted db mask n) (state : TraState) :
    (∃ answer, (scanPages (look db mask (checkState .precommitted mask && db.pcTransactions.isSome))
        maxNumber number (tip :: rest)).map (fun r => r.getD (0, state)) = some answer ∧
        Finds db cache minNumber maxNumber mask answer) ↔
      WalkSees db cache number maxNumber mask := by
  have hne : cache.pages ≠ [] := fun h => by rw [h] at hfirst; cases hfirst
  have hlt : number < edge number cache.pages := by
    have hsorted := h.sorted
    have haligned := h.aligned
    rw [hpages] at hsorted haligned ⊢
    exact lt_edge (fun x hx => next_le (haligned x (List.mem_append_left _ hx))
      (haligned tip (List.mem_append_right _ List.mem_cons_self))
      ((List.pairwise_append.1 hsorted).2.2 x hx tip List.mem_cons_self)) hon
  have hnonzero (n) (hle : number ≤ n) (hwanted : cache.Wanted db mask n) : n ≠ 0 := by
    rintro rfl
    exact not_wanted_zero hfirst (hmask (Nat.le_zero.1 hle)) hwanted
  have hquiet (n) (hle : number ≤ n) (hseen : cache.seen db mask n = none) :
      ¬ cache.Wanted db mask n ∧ ¬ cache.Misleads db mask n :=
    ⟨fun hwanted => seen_of_wanted hne (hnonzero n hle hwanted) hwanted hseen,
      fun hmis => h.seen_of_misleads hmis hseen⟩
  rw [h.scanPages_eq hpages hon]
  rcases firstHit_spec (cache.seen db mask) number (min (edge number cache.pages) maxNumber - number)
    with ⟨hnone, hall⟩ | ⟨n, found, hsome, hle, hn, hseen, hbefore⟩
  · have hall' : ∀ n, number ≤ n → n < edge number cache.pages → n < maxNumber →
        ¬ cache.Wanted db mask n ∧ ¬ cache.Misleads db mask n :=
      fun n hle hn hnmax => hquiet n hle (hall n hle (by omega))
    have hfrom : (∀ n, minNumber ≤ n → n < maxNumber → ¬ cache.Wanted db mask n) ↔
        ∀ n, edge number cache.pages ≤ n → n < maxNumber → ¬ cache.Wanted db mask n := by
      refine ⟨fun hno n hn hnmax => hno n (by omega) hnmax, fun hno n hn hnmax => ?_⟩
      by_cases hnumber : n < number
      · exact hbelow n hn hnumber
      · by_cases hedge : n < edge number cache.pages
        · exact (hall' n (by omega) hedge hnmax).1
        · exact hno n (by omega) hnmax
    rw [walkSees_of_quiet hall' hlt hmax, hnone]
    dsimp only
    by_cases hend : maxNumber ≤ edge number cache.pages ∨
        ∀ x ∈ cache.pages, x.base ≤ edge number cache.pages
    · rw [if_pos hend]
      simp only [Option.map_some, Option.getD_none, Option.some.injEq, exists_eq_left',
        finds_zero_iff, hfrom]
      rcases hend with hend | hend
      · exact ⟨fun _ => .inl hend, fun _ n hn hnmax => by omega⟩
      · have hlast : ¬ ∃ x ∈ cache.pages, edge number cache.pages < x.base :=
          fun ⟨x, hx, hxlt⟩ => absurd (hend x hx) (by omega)
        rw [if_neg hlast]
        refine ⟨.inr, ?_⟩
        rintro (hend | hno)
        · exact fun n hn hnmax => by omega
        · exact hno
    · rw [if_neg hend]
      rw [not_or] at hend
      have hgap : ∃ x ∈ cache.pages, edge number cache.pages < x.base := by
        by_contra hcon
        exact hend.2 fun x hx => not_lt.1 fun hlt => hcon ⟨x, hx, hlt⟩
      rw [if_pos hgap, or_iff_right hend.1]
      by_cases hpre : checkState .precommitted mask && db.precommitted (edge number cache.pages)
      · have hpre' := hpre
        rw [Bool.and_eq_true] at hpre'
        rw [if_pos hpre]
        simp only [Option.map_some, Option.getD_some, Option.some.injEq, exists_eq_left']
        refine iff_of_true (finds_first (by omega) (by omega) (by omega) ?_ hpre'.1 fun n hn hnlt => ?_)
          hpre'
        · rw [reported_eq hne, if_pos hpre'.2]
        · by_cases hnumber : n < number
          · exact hbelow n hn hnumber
          · exact (hall' n (by omega) hnlt (by omega)).1
      · rw [if_neg hpre]
        rw [Bool.and_eq_true] at hpre
        exact iff_of_false (fun ⟨_, hans, _⟩ => by cases hans) hpre
  · have hnedge : n < edge number cache.pages := by omega
    have hnmax : n < maxNumber := by omega
    have hbefore' (i) (hi : minNumber ≤ i) (hin : i < n) : ¬ cache.Wanted db mask i := by
      by_cases hnumber : i < number
      · exact hbelow i hi hnumber
      · exact (hquiet i (by omega) (hbefore i (by omega) hin)).1
    obtain ⟨page, hpage, hnon⟩ := edge_covered hle hnedge
    rw [hsome]
    simp only [Option.map_some, Option.getD_some, Option.some.injEq, exists_eq_left']
    by_cases hwanted : cache.Wanted db mask n
    · have hzero := hnonzero n hle hwanted
      have hreported : cache.reported db n = some found := by
        refine (seen_eq_some hne hseen).2 hzero fun ⟨hpc, hpre⟩ => ?_
        obtain ⟨s, hs, hcheck⟩ := hwanted
        rw [reported_eq hne, if_pos hpre] at hs
        cases hs
        rw [hpc] at hcheck
        cases hcheck
      refine iff_of_true (finds_first hzero (by omega) hnmax hreported (seen_eq_some hne hseen).1 hbefore')
        (.inl ⟨n, hle, hnedge, hnmax, hwanted, fun i hi hin => ?_⟩)
      exact (hquiet i hi (hbefore i hi hin)).2
    · have hmis := h.misleads_of_seen hpage hnon hseen hwanted
      rw [walkSees_of_misleads hle hnedge hnmax hmis fun i hi hin => hquiet i hi (hbefore i hi hin)]
      by_cases hzero : n = 0
      · subst hzero
        rw [finds_zero_iff, Nat.le_zero.1 (hmin.trans hle)]
        simp only [Nat.zero_le, true_implies, true_and]
      · refine iff_of_false (fun hfinds => hwanted ?_) fun h => hzero h.1
        obtain ⟨-, -, hstate, hcheck, -⟩ := hfinds.hit hzero
        exact ⟨found, hstate, hcheck⟩

/-! ## The search -/

/-- The page of a number is found, or the number is on no page. -/
theorem Valid.find_number (h : cache.Valid) (number : ℕ) :
    (∃ front tip rest, cache.pages = front ++ tip :: rest ∧ OnPage m tip.base number ∧
      cache.find (number - number % m.transPerTIP) = (true, front.length)) ∨
      (cache.find (number - number % m.transPerTIP)).1 = false ∧
        ∀ tip ∈ cache.pages, ¬ OnPage m tip.base number := by
  by_cases hpage : ∃ tip ∈ cache.pages, OnPage m tip.base number
  · obtain ⟨tip, htip, hon⟩ := hpage
    obtain ⟨front, rest, hpages⟩ := List.append_of_mem htip
    refine .inl ⟨front, tip, rest, hpages, hon, ?_⟩
    rw [hon.base_eq (h.aligned tip htip), h.find_page hpages]
  · have hmissing : ∀ tip ∈ cache.pages, ¬ OnPage m tip.base number :=
      fun tip htip hon => hpage ⟨tip, htip, hon⟩
    refine .inr ⟨h.find_none fun tip htip heq => hmissing tip htip ?_, hmissing⟩
    rw [heq]
    exact onPage_base m number

/-- Nothing is looked at if the first number is on no page. -/
theorem walkSees_of_missing {number maxNumber : ℕ}
    (hmissing : ∀ tip ∈ cache.pages, ¬ OnPage m tip.base number) :
    WalkSees db cache number maxNumber mask ↔
      ∀ n, number ≤ n → n < maxNumber → ¬ cache.Wanted db mask n := by
  rw [WalkSees]
  simp only [edge_missing hmissing, lt_irrefl, false_and, if_false]
  constructor
  · rintro (⟨n, hle, hlt, -⟩ | ⟨-, hmax | hno⟩ | ⟨rfl, ⟨-, -, tip, htip, hon, -⟩, -⟩)
    · omega
    · exact fun n hle hlt => by omega
    · exact hno
    · exact absurd hon (hmissing tip htip)
  · exact fun hno => .inr (.inl ⟨fun n hle hlt => by omega, .inr hno⟩)

/-- No page holds one of the two states that are not found on pages. -/
theorem lookup_ne_precommitted (number : ℕ) : cache.lookup number ≠ some .precommitted := by
  have hbits (bitVector : List UInt8) (oldest : ℕ) :
      traState bitVector oldest number ≠ some .precommitted := by
    rw [traState]
    split
    · intro h
      cases h
    · rw [Ne, Option.map_eq_some_iff]
      rintro ⟨byte, -, hof⟩
      rw [TraState.ofBits.eq_def] at hof
      split at hof <;> cases hof
  rw [lookup]
  split
  · intro h
    cases h
  · split
    · intro h
      cases h
    · dsimp only
      split
      · rw [Ne, Option.bind_eq_some_iff]
        rintro ⟨tip, -, htip⟩
        exact hbits _ _ htip
      · intro h
        cases h

/-- Only precommitted transactions are wanted, and there are none. -/
theorem not_wanted_of_only (hne : cache.pages ≠ [])
    (honly : (checkState .precommitted mask && db.pcTransactions.isNone && mask == 1 <<< 5) = true)
    (number : ℕ) : ¬ cache.Wanted db mask number := by
  rintro ⟨state, hstate, hcheck⟩
  rw [Bool.and_eq_true, Bool.and_eq_true, beq_iff_eq] at honly
  obtain ⟨⟨-, hnone⟩, rfl⟩ := honly
  have hpre : ¬ db.precommitted number := fun hp => by
    have hsome := isSome_of_precommitted hp
    rw [Option.isNone_iff_eq_none] at hnone
    rw [hnone] at hsome
    cases hsome
  rw [reported_eq hne, if_neg hpre] at hstate
  have hstate' : state ≠ .precommitted := fun h => lookup_ne_precommitted number (h ▸ hstate)
  clear hstate
  cases state with
  | precommitted => exact hstate' rfl
  | _ => exact absurd hcheck (by decide)

/-- The committed ones are wanted, and the first number is older than the cache. -/
theorem finds_committed_iff {front : TxPage m} (hfront : cache.pages.head? = some front)
    (hmask : checkState .committed mask) {minNumber maxNumber : ℕ}
    (hold : minNumber < front.base ∨ minNumber = 0) (hlt : minNumber < maxNumber) :
    Finds db cache minNumber maxNumber mask (minNumber, .committed) ↔
      minNumber ≠ 0 ∧ ¬ db.precommitted minNumber := by
  have hne : cache.pages ≠ [] := fun h => by rw [h] at hfront; cases hfront
  have hlookup := lookup_old hfront hold
  constructor
  · intro hfinds
    have hzero : minNumber ≠ 0 := by
      rintro rfl
      refine hfinds.none.1 rfl 0 le_rfl hlt ⟨.committed, ?_, hmask⟩
      rw [reported_eq hne, precommitted_zero, if_neg Bool.false_ne_true, hlookup]
    refine ⟨hzero, fun hpre => ?_⟩
    have hstate := (hfinds.hit hzero).2.2.1
    rw [reported_eq hne, if_pos hpre] at hstate
    cases hstate
  · rintro ⟨hzero, hpre⟩
    refine finds_first hzero le_rfl hlt ?_ hmask fun n hle hn => by omega
    rw [reported_eq hne, if_neg hpre, hlookup]

/-- The numbers that are older than the cache, if the committed ones are not wanted. -/
theorem wanted_old_iff {front : TxPage m} (hfront : cache.pages.head? = some front)
    (hmask : checkState .committed mask = false) {number : ℕ} (hold : number < front.base) :
    cache.Wanted db mask number ↔ checkState .precommitted mask ∧ db.precommitted number := by
  have hne : cache.pages ≠ [] := fun h => by rw [h] at hfront; cases hfront
  rw [Wanted, reported_eq hne]
  by_cases hpre : db.precommitted number
  · rw [if_pos hpre]
    simp only [Option.some.injEq, exists_eq_left', hpre, and_true]
  · rw [if_neg hpre, lookup_old hfront (.inl hold)]
    simp only [Option.some.injEq, exists_eq_left', hmask, hpre, and_false, Bool.false_eq_true]

/-- What the search does from `start` on, where the walk begins. -/
theorem Valid.walk_from_iff (h : cache.Valid) {front : TxPage m}
    (hfront : cache.pages.head? = some front) {minNumber start maxNumber : ℕ} (hmin : minNumber ≤ start)
    (hmask : start = 0 → checkState .committed mask = false)
    (hbelow : ∀ n, minNumber ≤ n → n < start → ¬ cache.Wanted db mask n) (state : TraState) :
    (∃ answer, (if (cache.find (start - start % m.transPerTIP)).1 then
        (scanPages (look db mask (checkState .precommitted mask && db.pcTransactions.isSome)) maxNumber
          start (cache.pages.drop (cache.find (start - start % m.transPerTIP)).2)).map
            fun r => r.getD (0, state)
        else some (0, state)) = some answer ∧ Finds db cache minNumber maxNumber mask answer) ↔
      WalkSees db cache start maxNumber mask := by
  rcases h.find_number start with ⟨before, tip, rest, hpages, hon, hfind⟩ | ⟨hfind, hmissing⟩
  · rw [hfind]
    dsimp only
    rw [if_pos rfl]
    by_cases hmax : start < maxNumber
    · rw [show cache.pages.drop before.length = tip :: rest by rw [hpages, List.drop_left]]
      exact h.walk_finds_iff hfront hpages hmask hon hmin hmax hbelow state
    · have hle := le_edge start cache.pages
      refine iff_of_true ⟨(0, state), ?_, ?_⟩ (.inr (.inl ⟨fun n hn _ hnmax => by omega, .inl (by omega)⟩))
      · rw [show cache.pages.drop before.length = tip :: rest by rw [hpages, List.drop_left], scanPages,
          if_neg hmax]
        rfl
      · exact finds_zero_iff.2 fun n hn hnmax => hbelow n hn (by omega)
  · rw [hfind, if_neg Bool.false_ne_true, walkSees_of_missing hmissing]
    simp only [Option.some.injEq, exists_eq_left', finds_zero_iff]
    refine ⟨fun hno n hn => hno n (by omega), fun hno n hn hnmax => ?_⟩
    by_cases hstart : n < start
    · exact hbelow n hn hstart
    · exact hno n (by omega) hnmax

/-- The walk finds nothing in front of `start`. -/
theorem scanPages_ge {look : TxPage m → ℕ → Option (Option TraState)} {maxNumber number : ℕ}
    {pages : List (TxPage m)} {answer : ℕ × TraState}
    (hscan : scanPages look maxNumber number pages = some (some answer)) : number ≤ answer.1 := by
  have hpage {look : ℕ → Option (Option TraState)} {number count : ℕ}
      (hscan : scanPage look number count = some (some answer)) : number ≤ answer.1 := by
    induction count generalizing number with
    | zero => cases hscan
    | succ count ih =>
      rw [scanPage] at hscan
      split at hscan
      · cases hscan
      · cases hscan
        exact le_rfl
      · exact (Nat.le_succ _).trans (ih hscan)
  induction pages generalizing number with
  | nil => cases hscan
  | cons tip pages ih =>
    rw [scanPages] at hscan
    split at hscan
    · dsimp only at hscan
      split at hscan
      · exact (le_max_left ..).trans (ih hscan)
      · exact hpage hscan
    · cases hscan

theorem Valid.search_finds_iff (h : cache.Valid) {minNumber maxNumber : ℕ}
    (hlt : minNumber < maxNumber) (state : TraState) :
    (∃ answer, cache.search db minNumber maxNumber mask state = some answer ∧
        Finds db cache minNumber maxNumber mask answer) ↔
      Sees db cache minNumber maxNumber mask := by
  rw [search, Sees]
  cases hfront : cache.pages.head? with
  | none => exact iff_of_false (fun ⟨_, hans, _⟩ => by cases hans) not_false
  | some front =>
    have hne : cache.pages ≠ [] := fun h => by rw [h] at hfront; cases hfront
    dsimp only
    by_cases hold : maxNumber < front.base
    · rw [if_pos hold, if_pos hold]
      simp only [Option.some.injEq, exists_eq_left', finds_zero_iff]
    · rw [if_neg hold, if_neg hold]
      by_cases hcommitted : (minNumber < front.base ∨ minNumber = 0) ∧ checkState .committed mask
      · rw [if_pos hcommitted, if_pos hcommitted]
        simp only [Option.some.injEq, exists_eq_left',
          finds_committed_iff hfront hcommitted.2 hcommitted.1 hlt]
      · rw [if_neg hcommitted, if_neg hcommitted]
        by_cases honly : (checkState .precommitted mask && db.pcTransactions.isNone &&
            mask == 1 <<< 5) = true
        · rw [if_pos honly, if_pos honly]
          simp only [Option.some.injEq, exists_eq_left', finds_zero_iff, iff_true]
          exact fun n _ _ => not_wanted_of_only hne honly n
        · rw [if_neg honly, if_neg honly]
          by_cases hold : minNumber < front.base ∨ minNumber = 0
          · have hmask : checkState .committed mask = false := by
              simpa [hold] using hcommitted
            have hmin : minNumber ≤ front.base := by omega
            rw [if_pos hold]
            by_cases hbelow : checkState .precommitted mask →
                ∀ n, minNumber ≤ n → n < front.base → ¬ db.precommitted n
            · rw [h.walk_from_iff hfront hmin (fun _ => hmask)
                (fun n hle hn hwanted => ?_) state, and_iff_right hbelow]
              rw [wanted_old_iff hfront hmask hn] at hwanted
              exact hbelow hwanted.1 n hle hn hwanted.2
            · -- a precommitted number that is older than the cache is passed over
              refine iff_of_false (fun ⟨answer, hans, hfinds⟩ => hbelow fun hmask' n hle hn hpre => ?_)
                (fun hsees => hbelow hsees.1)
              have hwanted := (wanted_old_iff hfront hmask hn).2 ⟨hmask', hpre⟩
              by_cases hzero : answer.1 = 0
              · exact hfinds.none.1 hzero n hle (by omega) hwanted
              · have hge : front.base ≤ answer.1 := by
                  split at hans
                  · obtain ⟨r, hscan, rfl⟩ := Option.map_eq_some_iff.1 hans
                    cases r with
                    | none => exact absurd rfl hzero
                    | some r => exact scanPages_ge hscan
                  · cases hans
                    exact absurd rfl hzero
                exact (hfinds.hit hzero).2.2.2.2 n hle (by omega) hwanted
          · rw [if_neg hold]
            rw [not_or] at hold
            rw [h.walk_from_iff hfront le_rfl (fun hzero => absurd hzero hold.2)
              (fun n hle hn => by omega) state]
            exact (and_iff_right fun _ n hle hn => by omega).symm

/-- Every cache that the operations reach: `findStates` answers with the first number in the bounds
whose reported state is one of the mask, and with 0 if there is none, exactly if the pages that the
cache is extended by can be read and the search then sees what it is asked for. -/
theorem findStates_finds_iff (db : Database m) (h : cache.Reached) {minNumber maxNumber : ℕ}
    (mask : ℕ) (hlt : minNumber < maxNumber) (state : TraState) :
    (∃ cache' answer, findStates db minNumber maxNumber mask state cache = some (cache', some answer) ∧
        Finds db cache' minNumber maxNumber mask answer) ↔
      ∃ cache', initializeTpc db maxNumber cache = some cache' ∧
        Sees db cache' minNumber maxNumber mask := by
  constructor
  · rintro ⟨cache', answer, hans, hfinds⟩
    obtain ⟨read, hread, heq⟩ := Option.map_eq_some_iff.1 hans
    rw [Prod.mk.injEq] at heq
    obtain ⟨rfl, hsearch⟩ := heq
    have hvalid := h.valid.initializeTpc hread
    exact ⟨read, hread, (hvalid.search_finds_iff hlt state).1 ⟨answer, hsearch, hfinds⟩⟩
  · rintro ⟨cache', hread, hsees⟩
    obtain ⟨answer, hans, hfinds⟩ := ((h.valid.initializeTpc hread).search_finds_iff hlt state).2 hsees
    refine ⟨cache', answer, ?_, hfinds⟩
    rw [findStates, hread, Option.map_some, hans]

/-- The inventory pages of a database with pages of 4096 bytes. -/
def smallPages : PageManager := ⟨4076, by decide, by decide⟩

/-- A page on which all transactions have the same two bits. -/
def uniformPage (byte : UInt8) : TxInvPage smallPages :=
  ⟨List.replicate 4076 byte, List.length_replicate⟩

/-- All transactions of the first page are committed, all others are active. -/
def smallDatabase : Database smallPages :=
  { oldestTransaction := 0
    headerNext := 40000
    headerOldest := 1
    tip := fun sequence => some (uniformPage (if sequence = 0 then 255 else 0))
    pcTransactions := none }

/-- The cache has read the first page and the third one. -/
def gapCache : TipCache smallPages :=
  (empty.updateCache smallDatabase (uniformPage 255) 0).updateCache smallDatabase (uniformPage 0) 2

theorem smallDatabase_finds :
    (∃ cache' answer, findStates smallDatabase 1 16305 (1 <<< 0) .committed
        (empty.updateCache smallDatabase (uniformPage 255) 0) = some (cache', some answer) ∧
        Finds smallDatabase cache' 1 16305 (1 <<< 0) answer) ↔
      ∃ cache', initializeTpc smallDatabase 16305
        (empty.updateCache smallDatabase (uniformPage 255) 0) = some cache' ∧
        Sees smallDatabase cache' 1 16305 (1 <<< 0) :=
  findStates_finds_iff smallDatabase (.updateCache smallDatabase (uniformPage 255) 0 .empty) (1 <<< 0)
    (by decide) .committed

/-- The first number is on the page that has not been read. It is reported as active, but the search for
active transactions finds none. -/
theorem gapCache_not_finds : gapCache.Reached ∧
    ¬ ∃ cache' answer, findStates smallDatabase 16304 32610 (1 <<< 0) .committed gapCache =
        some (cache', some answer) ∧ Finds smallDatabase cache' 16304 32610 (1 <<< 0) answer := by
  refine ⟨.updateCache _ _ _ (.updateCache _ _ _ .empty), ?_⟩
  rintro ⟨cache', answer, hans, hfinds⟩
  have hread : initializeTpc smallDatabase 32610 gapCache = some gapCache := rfl
  have hsearch : gapCache.search smallDatabase 16304 32610 (1 <<< 0) .committed = some (0, .committed) :=
    rfl
  rw [findStates, hread, Option.map_some, hsearch] at hans
  cases hans
  exact finds_zero_iff.1 hfinds 16304 le_rfl (by decide) ⟨.active, rfl, rfl⟩

end TipCache

end FirebirdCore.Tra
