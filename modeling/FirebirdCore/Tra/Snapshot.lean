import FirebirdCore.Tra.TipCache

/-!
# Snapshots

A transaction that is not read committed copies the states of all transactions between the oldest
interesting one and itself from the inventory pages when it starts. What it sees later it decides with
this copy.
-/
namespace FirebirdCore.Tra

/-! ## The inventory -/

inductive StartError where
  | nextOlderThanActive
  | nextOlderThanOldest
  | numbersExhausted
  | noTipPage
  | writesOutside
  | endless
  deriving DecidableEq, Repr

/-- `memcpy` to the position `p` of a vector. Behind its end is memory of others. An empty vector is
`NULL`, and nothing is copied. -/
def copyTo (vector : List UInt8) (p : ℕ) (bytes : List UInt8) : Except StartError (List UInt8) :=
  if vector.isEmpty then .ok vector
  else if p + bytes.length ≤ vector.length then
    .ok (vector.take p ++ bytes ++ vector.drop (p + bytes.length))
  else .error .writesOutside

variable {m : PageManager}

namespace TipCache

/-- Move successive pages into the bit vector. -/
def copyPages (db : Database m) (top : ℕ) :
    ℕ → ℕ → ℕ → List UInt8 → TipCache m → Except StartError (List UInt8 × TipCache m)
  | _, 0, _, vector, cache => .ok (vector, cache)
  | sequence, count + 1, p, vector, cache =>
      let base := sequence * m.transPerTIP
      match db.tip sequence with
      | none => .error .noTipPage
      | some tip =>
          let l := transOffset (min (top + 3 + 1 - base) m.transPerTIP)
          match copyTo vector p (tip.tipTransactions.take l) with
          | .error e => .error e
          | .ok vector =>
              copyPages db top (sequence + 1) count (p + l) vector (cache.updateCache db tip sequence)

/-- `TRA_get_inventory` with a bit vector. -/
def fillInventory (db : Database m) (vector : List UInt8) (base top : ℕ) (cache : TipCache m) :
    Except StartError (List UInt8 × TipCache m) :=
  let sequence := base / m.transPerTIP % 2 ^ 32
  let last := top / m.transPerTIP % 2 ^ 32
  if last = 2 ^ 32 - 1 then .error .endless
  else
    match db.tip sequence with
    | none => .error .noTipPage
    | some tip =>
        let l := base % m.transPerTIP
        let q := transOffset l
        let l := transOffset (min (top + 3 + 1 - base) (m.transPerTIP - l))
        match copyTo vector 0 ((tip.tipTransactions.drop q).take l) with
        | .error e => .error e
        | .ok vector =>
            let next := (sequence + 1) % 2 ^ 32
            copyPages db top next (last + 1 - next) l vector (cache.updateCache db tip sequence)

end TipCache

/-! ## Starting a transaction -/

/-- What a start reads of the database besides: whether it can be written, the oldest active transaction
of the header page, the next transaction as the server knows it, and the number it would get in a
database that is read only. -/
structure StartDatabase (m : PageManager) extends Database m where
  readOnly : Bool
  headerOldestActive : ℕ
  nextTransaction : ℕ
  generated : ℕ

structure Transaction where
  number : ℕ
  top : ℕ
  oldest : ℕ
  transactions : List UInt8
  commitSubTrans : List ℕ
  deriving DecidableEq, Repr

def emptyTip (m : PageManager) : TxInvPage m := ⟨List.replicate m.tipBytes 0, List.length_replicate⟩

/-- Allocate a number on the header page, and the inventory page that it is the first of. -/
def bumpTransactionId (db : StartDatabase m) : Except StartError (StartDatabase m) :=
  let next := db.headerNext
  if next ≠ 0 ∧ db.headerOldestActive > next then .error .nextOlderThanActive
  else if next ≠ 0 ∧ db.headerOldest > next then .error .nextOlderThanOldest
  else if next ≥ TipCache.maxTraNumber - 1 then .error .numbersExhausted
  else
    let number := next + 1
    .ok { db with
      headerNext := number
      nextTransaction := number
      headerOldest := max db.headerOldest db.oldestTransaction
      tip :=
        if number % m.transPerTIP = 0 then
          Function.update db.tip (number / m.transPerTIP % 2 ^ 32) (some (emptyTip m))
        else db.tip }

/-- The length of the vector. `top` has 32 bits, the base has 64 and a sign, the length 32 again. -/
def vectorLength (top base : ℕ) : ℕ :=
  ((((top + 1) % 2 ^ 32 : ℕ) - (base : ℤ) + 3).tdiv 4 % 2 ^ 32).toNat

/-- The inventory that `transaction_start` takes. -/
def takeInventory (db : Database m) (number oldest top : ℕ) (cache : TipCache m) :
    Except StartError (Transaction × TipCache m) :=
  let base := oldest - oldest % 4
  let vector := if top ≥ oldest then List.replicate (vectorLength top base) 0 else []
  if top > base then
    match TipCache.fillInventory db vector base top cache with
    | .error e => .error e
    | .ok (vector, cache) => .ok (⟨number, top, oldest, vector, []⟩, cache)
  else .ok (⟨number, top, oldest, vector, []⟩, cache)

/-- `transaction_start` as far as the inventory, for a transaction that is not read committed. -/
def transactionStart (db : StartDatabase m) (cache : TipCache m) :
    Except StartError (StartDatabase m × Transaction × TipCache m) :=
  if db.readOnly then
    let top := db.nextTransaction % 2 ^ 32
    match takeInventory db.toDatabase (db.nextTransaction + db.generated) db.oldestTransaction top cache with
    | .error e => .error e
    | .ok started => .ok (db, started)
  else
    match bumpTransactionId db with
    | .error e => .error e
    | .ok db =>
        let top := db.headerNext % 2 ^ 32
        match takeInventory db.toDatabase db.headerNext db.headerOldest top cache with
        | .error e => .error e
        | .ok started => .ok (db, started)

/-- `TRA_snapshot_state` for a transaction that is not read committed and not the system's. -/
def snapshotState (db : StartDatabase m) (trans : Transaction) (number : ℕ) : Option TraState :=
  if number ≠ 0 ∧ db.precommitted number then some .precommitted
  else if number = trans.number then some .us
  else if number < trans.oldest then some .committed
  else if number = 0 then some .committed
  else if db.readOnly ∧ number > trans.top then some .committed
  else if trans.commitSubTrans.contains number then some .committed
  else if number > trans.top then some .active
  else traState trans.transactions trans.oldest number

/-! ## What a snapshot is for -/

/-- The state of a transaction on the inventory pages, `TRA_fetch_state`. -/
def Database.recorded (db : Database m) (number : ℕ) : Option TraState :=
  (db.tip (number / m.transPerTIP)).bind fun page =>
    page.tipTransactions[transOffset (number % m.transPerTIP)]?.map fun byte =>
      .ofBits (byte.toNat >>> transShift number &&& 3)

/-- The snapshot shows the states that were recorded, up to the number of the transaction. -/
structure Transaction.Shows (trans : Transaction) (db : StartDatabase m) : Prop where
  top : trans.top = trans.number
  states : ∀ n, trans.oldest - trans.oldest % 4 ≤ n → n ≤ trans.top →
    traState trans.transactions trans.oldest n = db.recorded n
  committed : ∀ retained n, n ≠ 0 → n ≠ trans.number → db.precommitted n = false →
    (snapshotState db { trans with commitSubTrans := retained } n = some .committed ↔
      n ∈ retained ∨ n < trans.oldest ∨ (n ≤ trans.top ∧ db.recorded n = some .committed))

/-! ## Copying pages -/

theorem copyTo_ok {vector bytes : List UInt8} {p : ℕ} (h : p + bytes.length ≤ vector.length) :
    ∃ vector', copyTo vector p bytes = .ok vector' ∧ vector'.length = vector.length ∧
      (∀ i < p, vector'[i]? = vector[i]?) ∧
        ∀ i < bytes.length, vector'[p + i]? = bytes[i]? := by
  by_cases hempty : vector.isEmpty
  · have hlength : vector.length = 0 := List.length_eq_zero_iff.2 (List.isEmpty_iff.1 hempty)
    exact ⟨vector, if_pos hempty, rfl, fun _ _ => rfl, fun i hi => absurd hi (by omega)⟩
  refine ⟨_, (if_neg hempty).trans (if_pos h), ?_, fun i hi => ?_, fun i hi => ?_⟩
  · simp only [List.length_append, List.length_take, List.length_drop]
    omega
  · rw [List.append_assoc, List.getElem?_append_left (by rw [List.length_take]; omega),
      List.getElem?_take_of_lt hi]
  · rw [List.append_assoc, List.getElem?_append_right (by rw [List.length_take]; omega),
      List.getElem?_append_left (by rw [List.length_take]; omega), List.length_take]
    congr 1
    omega

/-- A byte of the inventory, counted from the first page. -/
def Database.tipByte (db : Database m) (k : ℕ) : Option UInt8 :=
  (db.tip (k / m.tipBytes)).bind fun page => page.tipTransactions[k % m.tipBytes]?

theorem tipByte_page {db : Database m} {sequence : ℕ} {tip : TxInvPage m}
    (htip : db.tip sequence = some tip) {i : ℕ} (hi : i < m.tipBytes) :
    db.tipByte (sequence * m.tipBytes + i) = tip.tipTransactions[i]? := by
  rw [Database.tipByte, Nat.mul_comm, Nat.mul_add_div m.pos, Nat.div_eq_of_lt hi, Nat.add_zero, htip,
    Nat.mul_add_mod, Nat.mod_eq_of_lt hi]
  rfl

theorem recorded_eq (db : Database m) (number : ℕ) :
    db.recorded number = (db.tipByte (number / 4)).map fun byte =>
      .ofBits (byte.toNat >>> transShift number &&& 3) := by
  have hpage : number / m.transPerTIP = number / 4 / m.tipBytes := by
    rw [PageManager.transPerTIP, Nat.mul_comm, Nat.div_div_eq_div_mul]
  have hbyte : transOffset (number % m.transPerTIP) = number / 4 % m.tipBytes := by
    rw [transOffset, Nat.shiftRight_eq_div_pow, PageManager.transPerTIP, Nat.mul_comm,
      show 2 ^ 2 = 4 from rfl, Nat.mod_mul_right_div_self]
  rw [Database.recorded, Database.tipByte, hpage, hbyte]
  cases db.tip (number / 4 / m.tipBytes) with
  | none => rfl
  | some page => rfl

/-- The bytes of the states from the byte `b` on that a vector has to hold. -/
def Holds (db : Database m) (b count : ℕ) (vector : List UInt8) : Prop :=
  ∀ i < count, vector[i]? = db.tipByte (b + i)

theorem Holds.copy {db : Database m} {b p l off sequence : ℕ} {vector : List UInt8} {tip : TxInvPage m}
    (h : Holds db b p vector) (htip : db.tip sequence = some tip)
    (hp : b + p = sequence * m.tipBytes + off) (hl : off + l ≤ m.tipBytes)
    (hlength : p + l ≤ vector.length) :
    ∃ vector', copyTo vector p ((tip.tipTransactions.drop off).take l) = .ok vector' ∧
      vector'.length = vector.length ∧ Holds db b (p + l) vector' := by
  have htipLength := tip.length_eq
  have hbytes : ((tip.tipTransactions.drop off).take l).length = l := by
    rw [List.length_take, List.length_drop]
    omega
  have hfits : p + ((tip.tipTransactions.drop off).take l).length ≤ vector.length := by
    rw [hbytes]
    exact hlength
  obtain ⟨vector', hcopy, hlength', hfront, hcopied⟩ := copyTo_ok hfits
  refine ⟨vector', hcopy, hlength', fun i hi => ?_⟩
  by_cases hip : i < p
  · rw [hfront i hip, h i hip]
  · obtain ⟨j, rfl⟩ := Nat.exists_eq_add_of_le (not_lt.1 hip)
    have hj : j < l := by omega
    rw [hcopied j (by rw [hbytes]; exact hj), List.getElem?_take_of_lt hj, List.getElem?_drop,
      ← tipByte_page htip (by omega), ← Nat.add_assoc b, hp, Nat.add_assoc]

namespace TipCache

theorem copyPages_holds {db : Database m} {top b sequence count p : ℕ} {vector : List UInt8}
    {cache : TipCache m} (hpages : ∀ s ≤ top / m.transPerTIP, (db.tip s).isSome)
    (hcount : sequence + count = top / m.transPerTIP + 1)
    (hp : b + p = min (sequence * m.tipBytes) (top / 4 + 1))
    (hlength : top / 4 + 1 - b ≤ vector.length) (hholds : Holds db b p vector) :
    ∃ vector' cache', copyPages db top sequence count p vector cache = .ok (vector', cache') ∧
      Holds db b (top / 4 + 1 - b) vector' := by
  have hlast : top / m.transPerTIP = top / 4 / m.tipBytes := by
    rw [PageManager.transPerTIP, Nat.mul_comm, Nat.div_div_eq_div_mul]
  induction count generalizing sequence p vector cache with
  | zero =>
    have hend : top / 4 < sequence * m.tipBytes := by
      rw [← Nat.div_lt_iff_lt_mul m.pos, ← hlast]
      omega
    obtain rfl : p = top / 4 + 1 - b := by omega
    exact ⟨vector, cache, rfl, hholds⟩
  | succ count ih =>
    have hle : sequence ≤ top / m.transPerTIP := by omega
    have hmul : sequence * m.tipBytes ≤ top / 4 := by
      rw [← Nat.le_div_iff_mul_le m.pos, ← hlast]
      exact hle
    obtain ⟨tip, htip⟩ := Option.isSome_iff_exists.1 (hpages sequence hle)
    have hl : transOffset (min (top + 3 + 1 - sequence * m.transPerTIP) m.transPerTIP) =
        min (top / 4 + 1 - sequence * m.tipBytes) m.tipBytes := by
      rw [transOffset, Nat.shiftRight_eq_div_pow, PageManager.transPerTIP, ← Nat.mul_assoc]
      omega
    rw [copyPages]
    dsimp only
    rw [htip, hl]
    generalize hlen : min (top / 4 + 1 - sequence * m.tipBytes) m.tipBytes = l
    obtain ⟨vector', hcopy, hlength', hholds'⟩ := hholds.copy (l := l) htip
      (show b + p = sequence * m.tipBytes + 0 by omega) (by omega) (by omega)
    rw [List.drop_zero] at hcopy
    simp only [hcopy]
    have hnext : (sequence + 1) * m.tipBytes = sequence * m.tipBytes + m.tipBytes := Nat.succ_mul ..
    exact ih (by omega) (by omega) (by omega) hholds'

/-- The vector gets the states on the pages if it is long enough. -/
theorem fillInventory_holds {db : Database m} {base top : ℕ} {vector : List UInt8} (cache : TipCache m)
    (hpages : ∀ s ≤ top / m.transPerTIP, (db.tip s).isSome) (hbase : base % 4 = 0) (hle : base ≤ top)
    (htop : top < 2 ^ 32) (hlength : top / 4 + 1 - base / 4 ≤ vector.length) :
    ∃ vector' cache', fillInventory db vector base top cache = .ok (vector', cache') ∧
      Holds db (base / 4) (top / 4 + 1 - base / 4) vector' := by
  have hpos := m.transPerTIP_pos
  have hlt : top / m.transPerTIP < 2 ^ 32 - 1 := by
    rw [PageManager.transPerTIP, Nat.mul_comm, ← Nat.div_div_eq_div_mul]
    exact (Nat.div_le_self _ _).trans_lt (by omega)
  have hfirst : base / m.transPerTIP ≤ top / m.transPerTIP := Nat.div_le_div_right hle
  have hsequence : base / m.transPerTIP = base / 4 / m.tipBytes := by
    rw [PageManager.transPerTIP, Nat.mul_comm, Nat.div_div_eq_div_mul]
  have hoff : base % m.transPerTIP = base / 4 % m.tipBytes * 4 := by
    have hmod : base % m.transPerTIP / 4 = base / 4 % m.tipBytes := by
      rw [PageManager.transPerTIP, Nat.mul_comm, Nat.mod_mul_right_div_self]
    have hmod' : base % m.transPerTIP % 4 = 0 := by
      rw [PageManager.transPerTIP, Nat.mod_mod_of_dvd _ (Dvd.intro_left _ rfl), hbase]
    omega
  have hoffLt : base / 4 % m.tipBytes < m.tipBytes := Nat.mod_lt _ m.pos
  have hdecompose : base / 4 / m.tipBytes * m.tipBytes + base / 4 % m.tipBytes = base / 4 := by
    rw [Nat.mul_comm]
    exact Nat.div_add_mod ..
  obtain ⟨tip, htip⟩ := Option.isSome_iff_exists.1 (hpages _ hfirst)
  rw [fillInventory]
  dsimp only
  rw [Nat.mod_eq_of_lt (by omega : base / m.transPerTIP < 2 ^ 32),
    Nat.mod_eq_of_lt (by omega : top / m.transPerTIP < 2 ^ 32), if_neg (by omega), htip]
  dsimp only
  have hq : transOffset (base % m.transPerTIP) = base / 4 % m.tipBytes := by
    rw [transOffset, Nat.shiftRight_eq_div_pow, hoff]
    omega
  have hl : transOffset (min (top + 3 + 1 - base) (m.transPerTIP - base % m.transPerTIP)) =
      min (top / 4 + 1 - base / 4) (m.tipBytes - base / 4 % m.tipBytes) := by
    rw [transOffset, Nat.shiftRight_eq_div_pow, hoff, PageManager.transPerTIP]
    omega
  rw [hq, hl]
  generalize hlen : min (top / 4 + 1 - base / 4) (m.tipBytes - base / 4 % m.tipBytes) = l
  have hzero : Holds db (base / 4) 0 vector := fun i hi => absurd hi (Nat.not_lt_zero i)
  obtain ⟨vector', hcopy, hlength', hholds⟩ := hzero.copy (l := l) htip
    (show base / 4 + 0 = base / m.transPerTIP * m.tipBytes + base / 4 % m.tipBytes by
      rw [hsequence, hdecompose, Nat.add_zero]) (by omega) (by omega)
  simp only [hcopy]
  have hnext : (base / m.transPerTIP + 1) * m.tipBytes =
      base / 4 / m.tipBytes * m.tipBytes + m.tipBytes := by
    rw [hsequence, Nat.succ_mul]
  rw [Nat.mod_eq_of_lt (by omega : base / m.transPerTIP + 1 < 2 ^ 32)]
  rw [Nat.zero_add] at hholds
  exact copyPages_holds hpages (by omega) (by rw [hnext]; omega) (by omega) hholds

theorem copyPages_nil {db : Database m} {top sequence count p : ℕ} {vector : List UInt8}
    {cache cache' : TipCache m} (h : copyPages db top sequence count p [] cache = .ok (vector, cache')) :
    vector = [] := by
  induction count generalizing sequence p cache with
  | zero => exact (Prod.mk.inj (Except.ok.inj h)).1.symm
  | succ count ih =>
    rw [copyPages] at h
    dsimp only at h
    cases htip : db.tip sequence with
    | none => simp [htip] at h
    | some tip =>
      rw [htip] at h
      exact ih h

theorem fillInventory_nil {db : Database m} {base top : ℕ} {vector : List UInt8}
    {cache cache' : TipCache m} (h : fillInventory db [] base top cache = .ok (vector, cache')) :
    vector = [] := by
  rw [fillInventory] at h
  dsimp only at h
  split_ifs at h
  cases htip : db.tip (base / m.transPerTIP % 2 ^ 32) with
  | none =>
    rw [htip] at h
    cases h
  | some tip =>
    rw [htip] at h
    exact copyPages_nil h

end TipCache

/-! ## Starts -/

theorem traState_eq {db : Database m} {vector : List UInt8} {oldest top n : ℕ} (htop : top < 2 ^ 32)
    (h : Holds db ((oldest - oldest % 4) / 4) (top / 4 + 1 - (oldest - oldest % 4) / 4) vector)
    (hle : oldest - oldest % 4 ≤ n) (hn : n ≤ top) : traState vector oldest n = db.recorded n := by
  have hbyte : transOffset (n - (oldest - oldest % 4)) = n / 4 - (oldest - oldest % 4) / 4 := by
    rw [transOffset, Nat.shiftRight_eq_div_pow]
    omega
  rw [traState, recorded_eq, if_neg (by omega), hbyte, Nat.mod_eq_of_lt (by omega), h _ (by omega)]
  congr 2
  omega

/-- A vector that shows the states decides what the transaction sees. -/
theorem Transaction.shows_of_states {trans : Transaction} {db : StartDatabase m}
    (hwrite : db.readOnly = false) (htop : trans.top = trans.number)
    (hstates : ∀ n, trans.oldest - trans.oldest % 4 ≤ n → n ≤ trans.top →
      traState trans.transactions trans.oldest n = db.recorded n) : trans.Shows db := by
  refine ⟨htop, hstates, fun retained n hzero hnumber hprecommitted => ?_⟩
  rw [snapshotState]
  dsimp only
  rw [if_neg (by simp [hprecommitted]), if_neg hnumber]
  by_cases hold : n < trans.oldest
  · simp [hold]
  · rw [if_neg hold, if_neg hzero, if_neg (by simp [hwrite])]
    by_cases hretained : n ∈ retained
    · simp [hretained]
    · rw [if_neg (by simpa using hretained)]
      by_cases hyounger : n > trans.top
      · simp [hold, hretained, Nat.not_le.2 hyounger, hyounger]
      · have hstate := hstates n (by omega) (not_lt.1 hyounger)
        simp [hyounger, hold, hretained, not_lt.1 hyounger, hstate]

theorem vectorLength_eq {top base : ℕ} (htop : top < 2 ^ 32 - 1) (hle : base ≤ top)
    (hbase : base % 4 = 0) : vectorLength top base = top / 4 + 1 - base / 4 := by
  have hsum : (((top + 1) % 2 ^ 32 : ℕ) - (base : ℤ) + 3) = ((top + 4 - base : ℕ) : ℤ) := by
    rw [Nat.mod_eq_of_lt (by omega)]
    omega
  rw [vectorLength, hsum, Int.tdiv_eq_ediv_of_nonneg (by omega)]
  omega

/-- With the last number of 32 bits the length wraps around. -/
theorem vectorLength_last {base : ℕ} (hle : base < 2 ^ 32) (hbase : base % 4 = 0) :
    vectorLength (2 ^ 32 - 1) base = if base < 8 then 0 else 2 ^ 32 + 1 - base / 4 := by
  have hsum : (((2 ^ 32 - 1 + 1) % 2 ^ 32 : ℕ) - (base : ℤ) + 3) = 3 - base := by
    norm_num
    ring
  rw [vectorLength, hsum]
  split_ifs with hsmall
  · have hdiv : (3 - (base : ℤ)).tdiv 4 = 0 := by
      obtain rfl | rfl : base = 0 ∨ base = 4 := by omega
      · rfl
      · rfl
    rw [hdiv]
    rfl
  · have hneg : (3 - (base : ℤ)).tdiv 4 = -((base / 4 - 1 : ℕ) : ℤ) := by
      rw [show (3 - (base : ℤ)) = -((base - 3 : ℕ) : ℤ) by omega, Int.neg_tdiv,
        Int.tdiv_eq_ediv_of_nonneg (by omega)]
      omega
    rw [hneg]
    omega

/-- A database in which a transaction can start: the header page is in order, there are numbers and
inventory pages left, and the numbers of a database that is read only are new. -/
structure StartDatabase.Ready (db : StartDatabase m) : Prop where
  oldest : max db.headerOldest db.oldestTransaction ≤ max db.headerNext 1
  headerOldest : db.headerNext ≠ 0 → db.headerOldest ≤ db.headerNext
  active : db.headerNext ≠ 0 → db.headerOldestActive ≤ db.headerNext
  room : db.headerNext < TipCache.maxTraNumber - 1
  tip : ∀ s ≤ db.headerNext / m.transPerTIP, (db.tip s).isSome
  generated : 0 < db.generated

section
variable {db : StartDatabase m} {cache : TipCache m}

theorem bump_ok (h : db.Ready) : ∃ db', bumpTransactionId db = .ok db' ∧
    db'.headerNext = db.headerNext + 1 ∧ db'.headerOldest = max db.headerOldest db.oldestTransaction ∧
      db'.readOnly = db.readOnly ∧ (db.headerNext + 1 < 2 ^ 32 →
        ∀ s ≤ (db.headerNext + 1) / m.transPerTIP, (db'.tip s).isSome) := by
  have hactive : ¬ (db.headerNext ≠ 0 ∧ db.headerOldestActive > db.headerNext) :=
    fun hlt => absurd (h.active hlt.1) (Nat.not_le.2 hlt.2)
  have hoverrun : ¬ (db.headerNext ≠ 0 ∧ db.headerOldest > db.headerNext) :=
    fun hlt => absurd (h.headerOldest hlt.1) (Nat.not_le.2 hlt.2)
  rw [bumpTransactionId]
  dsimp only
  rw [if_neg hactive, if_neg hoverrun, if_neg (Nat.not_le.2 h.room)]
  refine ⟨_, rfl, rfl, rfl, rfl, fun hlt s hs => ?_⟩
  dsimp only
  by_cases hnew : (db.headerNext + 1) % m.transPerTIP = 0
  · rw [if_pos hnew, Nat.mod_eq_of_lt ((Nat.div_le_self _ _).trans_lt hlt)]
    by_cases hlast : s = (db.headerNext + 1) / m.transPerTIP
    · rw [hlast, Function.update_self]
      rfl
    · rw [Function.update_of_ne hlast]
      refine h.tip s ?_
      rw [Nat.succ_div] at hs hlast
      split_ifs at hs hlast <;> omega
  · rw [if_neg hnew]
    refine h.tip s ?_
    rwa [Nat.succ_div, if_neg fun hdvd => hnew (Nat.mod_eq_zero_of_dvd hdvd), Nat.add_zero] at hs

theorem takeInventory_fields {db : Database m} {number oldest top : ℕ} {trans : Transaction}
    {cache' : TipCache m} (h : takeInventory db number oldest top cache = .ok (trans, cache')) :
    trans.number = number ∧ trans.top = top ∧ trans.oldest = oldest := by
  rw [takeInventory] at h
  split_ifs at h
  all_goals
    first
    | (split at h
       · cases h
       · obtain ⟨rfl, -⟩ := Prod.mk.inj (Except.ok.inj h)
         exact ⟨rfl, rfl, rfl⟩)
    | (obtain ⟨rfl, -⟩ := Prod.mk.inj (Except.ok.inj h)
       exact ⟨rfl, rfl, rfl⟩)

/-- The start of a transaction whose vector has the length that it needs. -/
theorem takeInventory_holds {db : Database m} {oldest top : ℕ} (number : ℕ) (cache : TipCache m)
    (hpages : ∀ s ≤ top / m.transPerTIP, (db.tip s).isSome) (htop : top < 2 ^ 32) (hle : oldest ≤ top)
    (hlt : oldest - oldest % 4 < top)
    (hlength : top / 4 + 1 - (oldest - oldest % 4) / 4 ≤ vectorLength top (oldest - oldest % 4)) :
    ∃ vector cache', takeInventory db number oldest top cache =
        .ok (⟨number, top, oldest, vector, []⟩, cache') ∧
      Holds db ((oldest - oldest % 4) / 4) (top / 4 + 1 - (oldest - oldest % 4) / 4) vector := by
  have hfits : top / 4 + 1 - (oldest - oldest % 4) / 4 ≤
      (List.replicate (vectorLength top (oldest - oldest % 4)) (0 : UInt8)).length := by
    rw [List.length_replicate]
    exact hlength
  obtain ⟨vector, cache', hfill, hholds⟩ := TipCache.fillInventory_holds cache hpages
    (show (oldest - oldest % 4) % 4 = 0 by omega) hlt.le htop hfits
  refine ⟨vector, cache', ?_, hholds⟩
  rw [takeInventory, if_pos hlt, if_pos hle, hfill]

theorem recorded_isSome {db : Database m} {n : ℕ} (h : (db.tip (n / m.transPerTIP)).isSome) :
    (db.recorded n).isSome := by
  obtain ⟨page, hpage⟩ := Option.isSome_iff_exists.1 h
  have hlength := page.length_eq
  have hlt : transOffset (n % m.transPerTIP) < page.tipTransactions.length := by
    have hmod := Nat.mod_lt n m.transPerTIP_pos
    rw [transOffset, Nat.shiftRight_eq_div_pow, hlength]
    rw [PageManager.transPerTIP] at hmod ⊢
    omega
  rw [Database.recorded, hpage]
  simp [hlt]

/-- An empty vector shows nothing. -/
theorem not_shows_nil {db : StartDatabase m} {trans : Transaction} (htransactions : trans.transactions = [])
    (hbase : trans.oldest - trans.oldest % 4 ≤ trans.number)
    (hpage : (db.tip (trans.number / m.transPerTIP)).isSome) : ¬ trans.Shows db := by
  intro hshows
  obtain ⟨state, hstate⟩ := Option.isSome_iff_exists.1 (recorded_isSome hpage)
  have hnone := hshows.states trans.number hbase hshows.top.ge
  rw [hstate, traState, htransactions] at hnone
  split_ifs at hnone
  simp at hnone

theorem takeInventory_nil {db : Database m} {number oldest top : ℕ} {trans : Transaction}
    {cache' : TipCache m} (hlength : vectorLength top (oldest - oldest % 4) = 0)
    (h : takeInventory db number oldest top cache = .ok (trans, cache')) : trans.transactions = [] := by
  rw [takeInventory, hlength, List.replicate_zero, ite_self] at h
  split_ifs at h
  · cases hfill : TipCache.fillInventory db [] (oldest - oldest % 4) top cache with
    | error e => simp [hfill] at h
    | ok filled =>
      rw [hfill] at h
      obtain ⟨rfl, -⟩ := Prod.mk.inj (Except.ok.inj h)
      exact TipCache.fillInventory_nil hfill
  · obtain ⟨rfl, -⟩ := Prod.mk.inj (Except.ok.inj h)
    rfl

theorem start_readOnly {db' : StartDatabase m} {trans : Transaction} {cache' : TipCache m}
    (hread : db.readOnly) (hstart : transactionStart db cache = .ok (db', trans, cache')) :
    trans.number = db.nextTransaction + db.generated ∧ trans.top = db.nextTransaction % 2 ^ 32 := by
  rw [transactionStart, if_pos hread] at hstart
  dsimp only at hstart
  split at hstart
  · cases hstart
  · rename_i started htake
    obtain ⟨rfl, rfl⟩ := Prod.mk.inj (Except.ok.inj hstart)
    obtain ⟨hnumber, htop, -⟩ := takeInventory_fields htake
    exact ⟨hnumber, htop⟩

theorem start_write {db' : StartDatabase m} {trans : Transaction} {cache' : TipCache m} (h : db.Ready)
    (hwrite : db.readOnly = false) (hstart : transactionStart db cache = .ok (db', trans, cache')) :
    takeInventory db'.toDatabase (db.headerNext + 1) (max db.headerOldest db.oldestTransaction)
        ((db.headerNext + 1) % 2 ^ 32) cache = .ok (trans, cache') ∧
      (db.headerNext + 1 < 2 ^ 32 → ∀ s ≤ (db.headerNext + 1) / m.transPerTIP, (db'.tip s).isSome) := by
  obtain ⟨db₁, hbump, hnext, holdest, -, hpages⟩ := bump_ok h
  rw [transactionStart, if_neg (by rw [hwrite]; exact Bool.false_ne_true), hbump] at hstart
  dsimp only at hstart
  split at hstart
  · cases hstart
  · rename_i started htake
    obtain ⟨rfl, rfl⟩ := Prod.mk.inj (Except.ok.inj hstart)
    rw [hnext, holdest] at htake
    exact ⟨htake, hpages⟩

/-- The snapshot of a start shows what was recorded just if the database can be written and the number
is below the last one of 32 bits, or is that and the oldest transaction is not one of the first eight. -/
theorem transactionStart_shows_iff (db : StartDatabase m) (h : db.Ready) (cache : TipCache m) :
    (∃ db' trans cache', transactionStart db cache = .ok (db', trans, cache') ∧ trans.Shows db') ↔
      db.readOnly = false ∧ (db.headerNext + 1 < 2 ^ 32 - 1 ∨
        db.headerNext + 1 = 2 ^ 32 - 1 ∧ 8 ≤ max db.headerOldest db.oldestTransaction) := by
  have hle := h.oldest
  constructor
  · rintro ⟨db', trans, cache', hstart, hshows⟩
    by_cases hread : db.readOnly
    · -- the number is not one of the inventory, and `top` is below it
      obtain ⟨hnumber, htop⟩ := start_readOnly hread hstart
      have heq := hshows.top
      rw [hnumber, htop] at heq
      have hmod := Nat.mod_le db.nextTransaction (2 ^ 32)
      have hgenerated := h.generated
      omega
    · have hwrite := Bool.eq_false_of_not_eq_true hread
      obtain ⟨htake, hpages⟩ := start_write h hwrite hstart
      obtain ⟨hnumber, htop, htransOldest⟩ := takeInventory_fields htake
      have heq := hshows.top
      rw [hnumber, htop] at heq
      have hlt : db.headerNext + 1 < 2 ^ 32 := heq ▸ Nat.mod_lt _ (by decide)
      refine ⟨hwrite, ?_⟩
      by_cases hlast : db.headerNext + 1 = 2 ^ 32 - 1
      · refine .inr ⟨hlast, ?_⟩
        by_contra hsmall
        refine not_shows_nil (takeInventory_nil ?_ htake) ?_ ?_ hshows
        · rw [hlast, Nat.mod_eq_of_lt (by decide), vectorLength_last (by omega) (by omega),
            if_pos (by omega)]
        · rw [hnumber, htransOldest]
          omega
        · rw [hnumber]
          exact hpages hlt _ le_rfl
      · exact .inl (by omega)
  · rintro ⟨hwrite, hsmall⟩
    obtain ⟨db₁, hbump, hnext, holdest, hreadOnly, hpages⟩ := bump_ok h
    have hlt : db.headerNext + 1 < 2 ^ 32 := by omega
    have hlength : (db.headerNext + 1) / 4 + 1 -
        (max db.headerOldest db.oldestTransaction - max db.headerOldest db.oldestTransaction % 4) / 4 ≤
        vectorLength (db.headerNext + 1)
          (max db.headerOldest db.oldestTransaction - max db.headerOldest db.oldestTransaction % 4) := by
      rcases hsmall with hsmall | ⟨hlast, height⟩
      · rw [vectorLength_eq hsmall (by omega) (by omega)]
      · rw [hlast, vectorLength_last (by omega) (by omega), if_neg (by omega)]
        omega
    obtain ⟨vector, cache', htake, hholds⟩ := takeInventory_holds (db.headerNext + 1) cache (hpages hlt) hlt
      (by omega) (by omega) hlength
    refine ⟨db₁, ⟨db.headerNext + 1, db.headerNext + 1, max db.headerOldest db.oldestTransaction, vector,
      []⟩, cache', ?_, Transaction.shows_of_states (hreadOnly.trans hwrite) rfl fun n hbase hn => ?_⟩
    · rw [transactionStart, if_neg (by rw [hwrite]; exact Bool.false_ne_true), hbump]
      dsimp only
      rw [hnext, holdest, Nat.mod_eq_of_lt hlt, htake]
    · exact traState_eq hlt hholds hbase hn

end

theorem widePages_pos : 0 < 4076 := by
  decide

theorem widePages_fits : 4076 < 2 ^ 16 := by
  decide

def widePages : PageManager := ⟨4076, widePages_pos, widePages_fits⟩

/-- A database in which the transaction `next` is the last one, all states are active and nothing has
been released. -/
def busyDatabase (next : ℕ) : StartDatabase widePages where
  oldestTransaction := 1
  headerNext := next
  headerOldest := 1
  tip := fun _ => some (emptyTip widePages)
  pcTransactions := none
  readOnly := false
  headerOldestActive := 1
  nextTransaction := next
  generated := 1

theorem busyDatabase_ready {next : ℕ} (hpos : 0 < next) (hroom : next < TipCache.maxTraNumber - 1) :
    (busyDatabase next).Ready :=
  ⟨le_max_right .., fun _ => hpos, fun _ => hpos, hroom, fun _ _ => rfl, Nat.one_pos⟩

theorem transactionStart_shows_witness :
    ∃ db' trans cache', transactionStart (busyDatabase 40000) .empty = .ok (db', trans, cache') ∧
      trans.Shows db' :=
  (transactionStart_shows_iff (busyDatabase 40000) (busyDatabase_ready (by decide) (by decide)) .empty).2
    ⟨rfl, .inl (by decide)⟩

/-- The number does not fit into the 32 bits of `top`. -/
theorem transactionStart_not_shows :
    ¬ ∃ db' trans cache', transactionStart (busyDatabase (2 ^ 32 - 1)) .empty = .ok (db', trans, cache') ∧
      trans.Shows db' := by
  rintro ⟨db', trans, cache', hstart, hshows⟩
  obtain ⟨htake, -⟩ := start_write (busyDatabase_ready (by decide) (by decide)) rfl hstart
  obtain ⟨hnumber, htop, -⟩ := takeInventory_fields htake
  have heq := hshows.top
  rw [hnumber, htop] at heq
  exact absurd heq (by decide)

end FirebirdCore.Tra
