import FirebirdCore.Btr.Page
import FirebirdCore.Lib.TupleKey
import Mathlib.Data.List.DropRight

/-!
# Index keys

`compress` turns a value into the bytes of a segment and `btrKey` joins the segments of a record.
The bytes of a segment are stored in groups of `stuffCount`, each behind a byte that counts the
segments from the end; the joined keys compare as the tuples of segments do, and those of a
descending index, which are complemented, in the opposite order.
-/
namespace FirebirdCore.Btr
open FirebirdCore.KeyOrder FirebirdCore.TupleKey

/-- `STUFF_COUNT`: bytes of a segment behind each segment number. -/
def stuffCount : ℕ := 4

/-- `sizeof(key_data)`. -/
def keyDataSize : ℕ := maxKey + 1

/-- `MAX_INDEX_SEGMENTS`. -/
def maxIndexSegments : ℕ := 16

/-- The outcomes of building a key that the code itself decides. -/
inductive IdxE where
  | keytoobig
  deriving DecidableEq, Repr

/-- A segment value as `compress` receives it after conversion: a string, a byte array or
collation key, or the byte image of a number, date or boolean, most significant byte first and
with its sign adjusted. -/
inductive SegmentValue where
  | null
  | string (bytes : List UInt8)
  | byteArray (bytes : List UInt8)
  | number (image : List UInt8)
  deriving DecidableEq, Repr

def descEndValuePrefix : UInt8 := 0x01
def descEndValueCheck : UInt8 := 0x00

/-- A descending value that starts like this is set apart from a null. -/
def isDescEndValue (b : UInt8) : Bool := b == descEndValuePrefix || b == descEndValueCheck

/-- Chop off trailing pad bytes; one byte always stays. -/
def chopTrailing (pad : UInt8) : List UInt8 → List UInt8
  | [] => []
  | b :: q => b :: q.rdropWhile (· == pad)

def compressText (pad : UInt8) (descending : Bool) (bytes : List UInt8) : List UInt8 :=
  match bytes with
  | [] => chopTrailing pad
      ((if descending && isDescEndValue pad then [descEndValuePrefix] else []) ++ [pad])
  | b :: _ =>
      if descending && isDescEndValue b then
        chopTrailing pad (descEndValuePrefix :: bytes.take (keyDataSize - 1))
      else chopTrailing pad (bytes.take keyDataSize)

def compressNumber (descending : Bool) (image : List UInt8) : List UInt8 :=
  let key := chopTrailing 0 image
  if descending && key.head?.any isDescEndValue then descEndValuePrefix :: key else key

/-- Compress a data value into an index key. A null of a descending index is one byte, one of an
ascending index has no data. -/
def compress (descending : Bool) : SegmentValue → Key
  | .null => if descending then [0] else []
  | .string bytes => compressText 0x20 descending bytes
  | .byteArray bytes => compressText 0 descending bytes
  | .number image => compressNumber descending image

/-- `compress` leaves the flag `key_empty` set for an empty string only. -/
def leavesKeyEmpty : SegmentValue → Bool
  | .string bytes => bytes.isEmpty
  | .byteArray bytes => bytes.isEmpty
  | _ => false

/-- `*p++ = b` with the check of the key length behind it. -/
def putByte (maxKeyLength : ℕ) (key : Key) (b : UInt8) : Except IdxE Key :=
  if (key ++ [b]).length ≥ maxKeyLength then .error .keytoobig else .ok (key ++ [b])

/-- Fill up the last group of the segment before. -/
def padBytes (maxKeyLength : ℕ) : ℕ → Key → Except IdxE Key
  | 0, key => .ok key
  | k + 1, key => do
      let key ← putByte maxKeyLength key 0
      padBytes maxKeyLength k key

/-- Append the bytes of a segment; `k` bytes of the current group are free. -/
def stuffBytes (maxKeyLength : ℕ) (marker : UInt8) : List UInt8 → Key → ℕ → Except IdxE (Key × ℕ)
  | [], key, k => .ok (key, k)
  | b :: q, key, 0 => do
      let key ← putByte maxKeyLength key marker
      let key ← putByte maxKeyLength key b
      stuffBytes maxKeyLength marker q key (stuffCount - 1)
  | b :: q, key, k + 1 => do
      let key ← putByte maxKeyLength key b
      stuffBytes maxKeyLength marker q key k

/-- The segment number stored before the bytes of segment `n`. -/
def segmentMarker (idxCount n : ℕ) : UInt8 := UInt8.ofNat (idxCount - n)

/-- The loop of `BTR_key` over the segments from number `n` on. -/
def btrKeyLoop (maxKeyLength idxCount : ℕ) : ℕ → List Key → Key → ℕ → Except IdxE Key
  | _, [], key, _ => .ok key
  | n, temp :: temps, key, k => do
      let key ← padBytes maxKeyLength k key
      let (key, k) ← stuffBytes maxKeyLength (segmentMarker idxCount n) temp key 0
      btrKeyLoop maxKeyLength idxCount (n + 1) temps key k

/-- The bits of the null segments from number `n` on. -/
def nullBits : ℕ → List SegmentValue → ℕ
  | _, [] => 0
  | n, v :: vs => (if v = .null then 2 ^ n else 0) + nullBits (n + 1) vs

/-- `BTR_complement_key`. -/
def complementKey (key : Key) : Key := key.map (255 - ·)

/-- The key before it is complemented; an index of one segment has no segment numbers. -/
def collectKey (maxKeyLength : ℕ) (idx : IndexDesc) (values : List SegmentValue) (count : ℕ) :
    Except IdxE TemporaryKey :=
  let count := if count = 0 then idx.idxCount else count
  if idx.idxCount = 1 then
    let value := values.headD .null
    .ok ⟨compress idx.idxDescending value, if value = .null then 1 else 0, leavesKeyEmpty value⟩
  else
    let values := values.take count
    (btrKeyLoop maxKeyLength idx.idxCount 0 (values.map (compress idx.idxDescending)) [] 0).map
      fun data => ⟨data, nullBits 0 values, values.all leavesKeyEmpty⟩

/-- Compute a key from the segment values of a record. -/
def btrKey (maxKeyLength : ℕ) (idx : IndexDesc) (values : List SegmentValue) (count : ℕ) :
    Except IdxE TemporaryKey :=
  match collectKey maxKeyLength idx values count with
  | .error e => .error e
  | .ok key =>
      if key.keyData.length ≥ maxKeyLength then .error .keytoobig
      else if idx.idxDescending then .ok { key with keyData := complementKey key.keyData }
      else .ok key

/-! ## The joined key -/

theorem putByte_ok {maxKeyLength : ℕ} {key key' : Key} {b : UInt8}
    (h : putByte maxKeyLength key b = .ok key') : key' = key ++ [b] := by
  unfold putByte at h
  split at h
  · cases h
  · cases h
    rfl

theorem padBytes_ok {maxKeyLength k : ℕ} {key key' : Key}
    (h : padBytes maxKeyLength k key = .ok key') : key' = key ++ List.replicate k 0 := by
  induction k generalizing key with
  | zero =>
    cases h
    simp
  | succ k ih =>
    obtain ⟨key₁, h₁, h⟩ := bind_ok h
    rw [ih h, putByte_ok h₁]
    simp [List.replicate_succ]

theorem stuffBytes_ok {maxKeyLength k k' : ℕ} {marker : UInt8} {q key key' : Key}
    (h : stuffBytes maxKeyLength marker q key k = .ok (key', k')) :
    key' = key ++ stuff stuffCount marker k q ∧ k' = room stuffCount k q := by
  induction q generalizing key k with
  | nil =>
    obtain ⟨rfl, rfl⟩ := Prod.mk.inj (Except.ok.inj h)
    cases k <;> simp [stuff, room]
  | cons b q ih =>
    cases k with
    | zero =>
      obtain ⟨key₁, h₁, h⟩ := bind_ok h
      obtain ⟨key₂, h₂, h⟩ := bind_ok h
      obtain ⟨hk, hr⟩ := ih h
      rw [hk, hr, putByte_ok h₂, putByte_ok h₁]
      simp [stuff, room]
    | succ k =>
      obtain ⟨key₁, h₁, h⟩ := bind_ok h
      obtain ⟨hk, hr⟩ := ih h
      rw [hk, hr, putByte_ok h₁]
      simp [stuff, room]

/-- The loop stores the tuple of the segments. -/
theorem btrKeyLoop_ok {maxKeyLength idxCount n k : ℕ} {temps : List Key} {key key' : Key}
    (hne : temps ≠ []) (h : btrKeyLoop maxKeyLength idxCount n temps key k = .ok key') :
    key' = key ++ List.replicate k 0 ++
      encodeTuple stuffCount 0 (segmentMarker idxCount) n temps := by
  induction temps generalizing n key k with
  | nil => exact absurd rfl hne
  | cons temp temps ih =>
    obtain ⟨key₁, h₁, h⟩ := bind_ok h
    obtain ⟨⟨key₂, k₂⟩, h₂, h⟩ := bind_ok h
    obtain ⟨hk₂, hr₂⟩ := stuffBytes_ok h₂
    rw [padBytes_ok h₁] at hk₂
    cases temps with
    | nil =>
      cases h
      rw [hk₂]
      rfl
    | cons t ts =>
      rw [ih (by simp) h, hk₂, hr₂, encodeTuple]
      simp only [List.append_assoc]

theorem segmentMarker_lt {idxCount i j : ℕ} (hc : idxCount ≤ 255) (hij : i < j) (hj : j < idxCount) :
    segmentMarker idxCount j < segmentMarker idxCount i := by
  unfold segmentMarker
  rw [UInt8.lt_iff_toNat_lt, UInt8.toNat_ofNat', UInt8.toNat_ofNat']
  omega

theorem complement_strictAnti : StrictAnti fun b : UInt8 => 255 - b := by
  intro a b h
  simp only [UInt8.lt_iff_toNat_lt] at h ⊢
  have ha := a.toNat_lt
  have hb := b.toNat_lt
  rw [UInt8.toNat_sub_of_le _ _ (by rw [UInt8.le_iff_toNat_le]; simp; omega),
    UInt8.toNat_sub_of_le _ _ (by rw [UInt8.le_iff_toNat_le]; simp; omega)]
  simp
  omega

/-- Complementing turns the ascending rule into the descending one, the other way round. -/
theorem before_complementKey (a b : Key) :
    Before true (complementKey b) (complementKey a) ↔ Before false a b :=
  before_map_strictAnti complement_strictAnti false a b

/-- The bytes of all segments of a key, before they are complemented. -/
def joinSegments (idxCount : ℕ) (segments : List Key) : Key :=
  if idxCount = 1 then segments.headD []
  else encodeTuple stuffCount 0 (segmentMarker idxCount) 0 segments

theorem collectKey_ok {maxKeyLength : ℕ} {idx : IndexDesc} {values : List SegmentValue}
    {key : TemporaryKey} (hlen : values.length = idx.idxCount)
    (h : collectKey maxKeyLength idx values 0 = .ok key) :
    key.keyData = joinSegments idx.idxCount (values.map (compress idx.idxDescending)) := by
  unfold collectKey at h
  unfold joinSegments
  by_cases hc : idx.idxCount = 1
  · obtain ⟨v, rfl⟩ := List.length_eq_one_iff.1 (hlen.trans hc)
    rw [if_pos hc] at h ⊢
    cases h
    rfl
  · simp only [if_neg hc, if_true] at h ⊢
    rw [← hlen, List.take_length, hlen] at h
    cases hd : btrKeyLoop maxKeyLength idx.idxCount 0 (values.map (compress idx.idxDescending)) [] 0 with
    | error e =>
      rw [hd] at h
      cases h
    | ok data =>
      rw [hd] at h
      cases h
      cases values with
      | nil =>
        cases hd
        rfl
      | cons v vs => simpa using btrKeyLoop_ok (by simp) hd

theorem btrKey_ok {maxKeyLength : ℕ} {idx : IndexDesc} {values : List SegmentValue}
    {key : TemporaryKey} (hlen : values.length = idx.idxCount)
    (h : btrKey maxKeyLength idx values 0 = .ok key) :
    let joined := joinSegments idx.idxCount (values.map (compress idx.idxDescending))
    key.keyData = if idx.idxDescending then complementKey joined else joined := by
  unfold btrKey at h
  cases hk : collectKey maxKeyLength idx values 0 with
  | error e =>
    rw [hk] at h
    cases h
  | ok key₀ =>
    have hjoin := collectKey_ok hlen hk
    rw [hk] at h
    dsimp only at h ⊢
    split_ifs at h ⊢
    · cases h
      exact congrArg complementKey hjoin
    · cases h
      exact hjoin

theorem joinSegments_before_iff {idxCount : ℕ} {ss ts : List Key} (hc : idxCount ≤ maxIndexSegments)
    (hs : ss.length = idxCount) (ht : ts.length = idxCount) (hss : ∀ s ∈ ss, Trimmed 0 s)
    (hts : ∀ t ∈ ts, Trimmed 0 t) :
    Before false (joinSegments idxCount ss) (joinSegments idxCount ts) ↔ TupleBefore ss ts := by
  unfold joinSegments
  split_ifs with h
  · obtain ⟨s, rfl⟩ := List.length_eq_one_iff.1 (hs.trans h)
    obtain ⟨t, rfl⟩ := List.length_eq_one_iff.1 (ht.trans h)
    simp [TupleBefore]
  · refine encodeTuple_before_iff (fun a => ?_) ?_ (hs.trans ht.symm) hss hts
    · rw [UInt8.le_iff_toNat_le]
      exact Nat.zero_le _
    · intro i j hij hj
      unfold maxIndexSegments at hc
      exact segmentMarker_lt (by omega) hij (by omega)

/-- The keys of an ascending index compare as the tuples of their segments; those of a descending
index compare in the opposite order under the rule that the end of a key is above any byte. -/
theorem btrKey_order {maxKeyLength : ℕ} {idx : IndexDesc} {vs ws : List SegmentValue}
    {a b : TemporaryKey} (hc : idx.idxCount ≤ maxIndexSegments)
    (hv : vs.length = idx.idxCount) (hw : ws.length = idx.idxCount)
    (htv : ∀ v ∈ vs, Trimmed 0 (compress idx.idxDescending v))
    (htw : ∀ w ∈ ws, Trimmed 0 (compress idx.idxDescending w))
    (ha : btrKey maxKeyLength idx vs 0 = .ok a) (hb : btrKey maxKeyLength idx ws 0 = .ok b) :
    let ss := vs.map (compress idx.idxDescending)
    let ts := ws.map (compress idx.idxDescending)
    (idx.idxDescending = false → (Before false a.keyData b.keyData ↔ TupleBefore ss ts)) ∧
      (idx.idxDescending = true → (Before true a.keyData b.keyData ↔ TupleBefore ts ss)) ∧
      (a.keyData = b.keyData ↔ ss = ts) := by
  intro ss ts
  have hss : ∀ s ∈ ss, Trimmed 0 s := by simpa [ss] using htv
  have hts : ∀ t ∈ ts, Trimmed 0 t := by simpa [ts] using htw
  have hls : ss.length = idx.idxCount := by simpa [ss] using hv
  have hlt : ts.length = idx.idxCount := by simpa [ts] using hw
  have hka := btrKey_ok hv ha
  have hkb := btrKey_ok hw hb
  have hlt₁ := joinSegments_before_iff hc hls hlt hss hts
  have hlt₂ := joinSegments_before_iff hc hlt hls hts hss
  dsimp only at hka hkb
  have heq : joinSegments idx.idxCount ss = joinSegments idx.idxCount ts ↔ ss = ts := by
    refine ⟨fun h => ?_, fun h => congrArg _ h⟩
    rcases tupleBefore_trichotomy (hls.trans hlt.symm) with h' | h' | h'
    · exact absurd h (hlt₁.2 h').ne
    · exact h'
    · exact absurd h.symm (hlt₂.2 h').ne
  cases hd : idx.idxDescending with
  | false =>
    rw [hd, if_neg Bool.false_ne_true] at hka hkb
    rw [hka, hkb]
    refine ⟨fun _ => ?_, nofun, ?_⟩
    · simpa [ss, ts, hd] using hlt₁
    · simpa [ss, ts, hd] using heq
  | true =>
    rw [hd, if_pos rfl] at hka hkb
    rw [hka, hkb]
    refine ⟨nofun, fun _ => ?_, ?_⟩
    · rw [before_complementKey]
      simpa [ss, ts, hd] using hlt₂
    · rw [complementKey, complementKey, List.map_inj_right
        fun x y h => complement_strictAnti.injective h]
      simpa [ss, ts, hd] using heq

/-- A filled group compares with the bytes of a longer segment. -/
theorem btrKey_order_witness :
    Before false ([2, 65, 66, 0, 0, 1, 7] : Key) [2, 65, 66, 67, 0] ↔
      TupleBefore ([.string [65, 66], .number [7, 0]].map (compress false))
        ([.string [65, 66, 67], .null].map (compress false)) :=
  (@btrKey_order 1024 ⟨2, false, false, false⟩ [.string [65, 66], .number [7, 0]]
    [.string [65, 66, 67], .null] ⟨[2, 65, 66, 0, 0, 1, 7], 0, false⟩ ⟨[2, 65, 66, 67, 0], 2, false⟩
    (by decide) rfl rfl (by decide) (by decide) (by decide) (by decide)).1 rfl

end FirebirdCore.Btr
