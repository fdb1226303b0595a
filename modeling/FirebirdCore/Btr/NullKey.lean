import FirebirdCore.Btr.SegmentGroups

/-!
# Search keys and the key of nulls

`BTR_make_key` builds a key from expressions and `BTR_make_null_key` the key whose segments are all
null. Both repeat the loop of `BTR_key`, so they give the bytes that `BTR_key` gives for the same
values, and a stored key is the key of nulls just when all of its segments are null.
-/
namespace FirebirdCore.Btr
open FirebirdCore.KeyOrder FirebirdCore.TupleKey FirebirdCore.Blocks

/-- The loop of `BTR_make_key` over the segments from number `n` on; also the length in front of the
last segment. -/
def makeKeyLoop (maxKeyLength : ℕ) (idx : IndexDesc) :
    ℕ → List SegmentValue → Key → ℕ → ℕ → Except IdxE (Key × ℕ × ℕ)
  | _, [], key, k, priorLength => .ok (key, k, priorLength)
  | n, v :: vs, key, k, _ => do
      let key ← padBytes maxKeyLength k key
      let priorLength := key.length
      let (key, k) ← stuffBytes maxKeyLength (segmentMarker idx.idxCount n)
        (compress idx.idxDescending v) key 0
      makeKeyLoop maxKeyLength idx (n + 1) vs key k priorLength

/-- The key of `BTR_make_key` before it is complemented. -/
def collectSearchKey (maxKeyLength : ℕ) (idx : IndexDesc) (values : List SegmentValue)
    (count : ℕ) (fuzzy : Bool) : Except IdxE TemporaryKey :=
  if idx.idxCount = 1 then
    let value := values.headD .null
    let keyEmpty := leavesKeyEmpty value
    .ok ⟨if fuzzy && keyEmpty then [] else compress idx.idxDescending value,
      if value = .null then 1 else 0, keyEmpty⟩
  else do
    let values := values.take count
    let (key, k, priorLength) ← makeKeyLoop maxKeyLength idx 0 values [] 0 0
    let key ← if !fuzzy && count != idx.idxCount then padBytes maxKeyLength k key else .ok key
    -- a search that is fuzzy skips an empty last segment
    let key := if fuzzy && values.getLast?.all leavesKeyEmpty then key.take priorLength else key
    let keyEmpty := values.all leavesKeyEmpty
    .ok ⟨if fuzzy && keyEmpty then [] else key, nullBits 0 values, keyEmpty⟩

/-- Construct a search key from the values of expressions. -/
def makeKey (maxKeyLength : ℕ) (idx : IndexDesc) (values : List SegmentValue) (count : ℕ)
    (fuzzy : Bool) : Except IdxE TemporaryKey :=
  match collectSearchKey maxKeyLength idx values count fuzzy with
  | .error e => .error e
  | .ok key =>
      if key.keyData.length ≥ maxKeyLength then .error .keytoobig
      else if idx.idxDescending then .ok { key with keyData := complementKey key.keyData }
      else .ok key

/-- The copy loop of `BTR_make_null_key`, which does not check the length. -/
def stuffUnchecked (marker : UInt8) : List UInt8 → Key → ℕ → Key × ℕ
  | [], key, k => (key, k)
  | b :: q, key, 0 => stuffUnchecked marker q (key ++ [marker] ++ [b]) (stuffCount - 1)
  | b :: q, key, k + 1 => stuffUnchecked marker q (key ++ [b]) k

/-- The loop of `BTR_make_null_key` from segment `n` on, with so many turns left. -/
def nullKeyLoop (idx : IndexDesc) : ℕ → ℕ → Key → ℕ → Key
  | 0, _, key, _ => key
  | turns + 1, n, key, k =>
      let r := stuffUnchecked (segmentMarker idx.idxCount n) (compress idx.idxDescending .null)
        (key ++ List.replicate k 0) 0
      nullKeyLoop idx turns (n + 1) r.1 r.2

/-- Construct the key of all null values; `expression` is the flag `idx_expressn`. -/
def makeNullKey (idx : IndexDesc) (expression : Bool) : TemporaryKey :=
  let data :=
    if idx.idxCount = 1 ∨ expression then compress idx.idxDescending .null
    else nullKeyLoop idx idx.idxCount 0 [] 0
  ⟨if idx.idxDescending then complementKey data else data, 2 ^ idx.idxCount - 1, false⟩

/-! ## The three loops -/

/-- The bytes of the loop of `BTR_make_key` are those of the loop of `BTR_key`. -/
theorem makeKeyLoop_map (maxKeyLength : ℕ) (idx : IndexDesc) (n : ℕ) (vs : List SegmentValue)
    (key : Key) (k priorLength : ℕ) :
    (makeKeyLoop maxKeyLength idx n vs key k priorLength).map (·.1) =
      btrKeyLoop maxKeyLength idx.idxCount n (vs.map (compress idx.idxDescending)) key k := by
  induction vs generalizing n key k priorLength with
  | nil => rfl
  | cons v vs ih =>
    rw [List.map_cons, makeKeyLoop, btrKeyLoop]
    cases padBytes maxKeyLength k key with
    | error e => rfl
    | ok key₁ =>
      change Except.map _ (stuffBytes _ _ _ key₁ 0 >>= _) = (stuffBytes _ _ _ key₁ 0 >>= _)
      cases stuffBytes maxKeyLength (segmentMarker idx.idxCount n) (compress idx.idxDescending v)
          key₁ 0 with
      | error e => rfl
      | ok r => exact ih (n + 1) r.1 r.2 key₁.length

/-- A search that is not fuzzy and gives all segments finds the bytes that are stored. -/
theorem makeKey_map_keyData (maxKeyLength : ℕ) (idx : IndexDesc) (values : List SegmentValue)
    (hlen : values.length = idx.idxCount) :
    (makeKey maxKeyLength idx values idx.idxCount false).map (·.keyData) =
      (btrKey maxKeyLength idx values 0).map (·.keyData) := by
  have hcollect : (collectSearchKey maxKeyLength idx values idx.idxCount false).map (·.keyData) =
      (collectKey maxKeyLength idx values 0).map (·.keyData) := by
    unfold collectSearchKey collectKey
    by_cases hc : idx.idxCount = 1
    · rw [if_pos hc]
      simp [hc, Except.map]
    · rw [if_neg hc]
      simp only [if_true, if_neg hc]
      have hloop := makeKeyLoop_map maxKeyLength idx 0 values [] 0 0
      rw [← hlen] at hloop
      rw [← hlen, List.take_length, ← hloop]
      cases makeKeyLoop maxKeyLength idx 0 values [] 0 0 with
      | error e => rfl
      | ok r => simp [Except.map, bind, Except.bind]
  unfold makeKey btrKey
  cases hs : collectSearchKey maxKeyLength idx values idx.idxCount false with
  | error e =>
    cases hk : collectKey maxKeyLength idx values 0 with
    | error e' => rfl
    | ok key =>
      rw [hs, hk] at hcollect
      cases hcollect
  | ok skey =>
    cases hk : collectKey maxKeyLength idx values 0 with
    | error e' =>
      rw [hs, hk] at hcollect
      cases hcollect
    | ok key =>
      rw [hs, hk] at hcollect
      have hdata : skey.keyData = key.keyData := Except.ok.inj hcollect
      dsimp only
      rw [hdata]
      split_ifs <;> simp [Except.map, hdata]

theorem stuffUnchecked_eq (marker : UInt8) (q key : Key) (k : ℕ) :
    stuffUnchecked marker q key k = (key ++ stuff stuffCount marker k q, room stuffCount k q) := by
  induction q generalizing key k with
  | nil => cases k <;> simp [stuffUnchecked, stuff, room]
  | cons b q ih =>
    cases k with
    | zero => simp [stuffUnchecked, ih, stuff, room]
    | succ k => simp [stuffUnchecked, ih, stuff, room]

theorem nullKeyLoop_eq (idx : IndexDesc) (turns n : ℕ) (key : Key) (k : ℕ) :
    nullKeyLoop idx (turns + 1) n key k = key ++ List.replicate k 0 ++
      encodeTuple stuffCount 0 (segmentMarker idx.idxCount) n
        (List.replicate (turns + 1) (compress idx.idxDescending .null)) := by
  induction turns generalizing n key k with
  | zero => simp [nullKeyLoop, stuffUnchecked_eq, encodeTuple]
  | succ turns ih =>
    rw [nullKeyLoop, stuffUnchecked_eq]
    dsimp only
    rw [ih, List.replicate_succ (n := turns + 1), List.replicate_succ (n := turns), encodeTuple,
      ← List.replicate_succ]
    simp only [List.append_assoc]

/-- The segments of the key of nulls. -/
def nullSegments (idx : IndexDesc) : List Key :=
  List.replicate idx.idxCount (compress idx.idxDescending .null)

theorem makeNullKey_keyData {idx : IndexDesc} {expression : Bool} (hcount : 0 < idx.idxCount)
    (hexpr : expression = true → idx.idxCount = 1) :
    (makeNullKey idx expression).keyData =
      directed idx.idxDescending (joinSegments idx.idxCount (nullSegments idx)) := by
  have hdata : (if idx.idxCount = 1 ∨ expression = true then compress idx.idxDescending .null
      else nullKeyLoop idx idx.idxCount 0 [] 0) = joinSegments idx.idxCount (nullSegments idx) := by
    unfold joinSegments
    by_cases hc : idx.idxCount = 1
    · rw [if_pos (Or.inl hc), if_pos hc, nullSegments, hc]
      rfl
    · rw [if_neg (not_or.2 ⟨hc, mt hexpr hc⟩), if_neg hc, nullSegments]
      obtain ⟨turns, hturns⟩ := Nat.exists_eq_add_one_of_ne_zero hcount.ne'
      rw [hturns, nullKeyLoop_eq, hturns]
      rfl
  rw [makeNullKey, directed]
  dsimp only
  rw [hdata]

/-! ## Telling a null from a value -/

/-- What the conversion of a value gives: the image of a number, date or boolean has bytes. -/
def SegmentValue.Converted : SegmentValue → Prop
  | .number image => image ≠ []
  | _ => True

instance (v : SegmentValue) : Decidable v.Converted := by
  cases v <;> unfold SegmentValue.Converted <;> infer_instance

theorem chopTrailing_cons (pad b : UInt8) (q : List UInt8) :
    chopTrailing pad (b :: q) = b :: q.rdropWhile (· == pad) := rfl

theorem isDescEndValue_of_zero : isDescEndValue 0 = true := rfl

/-- A value has a first byte, which is not that of a null of a descending index. -/
theorem compress_value {d : Bool} {v : SegmentValue} (hv : v.Converted) (hne : v ≠ .null) :
    ∃ b q, compress d v = b :: q ∧ (d = true → b ≠ 0) := by
  have text : ∀ (pad : UInt8) (bytes : List UInt8), ∃ b q, compressText pad d bytes = b :: q ∧
      (d = true → b ≠ 0) := by
    intro pad bytes
    cases bytes with
    | nil =>
      by_cases hp : d = true ∧ isDescEndValue pad = true
      · simp only [compressText, hp.1, hp.2, Bool.and_self, if_true, List.singleton_append,
          chopTrailing_cons]
        exact ⟨_, _, rfl, fun _ => by decide⟩
      · have hfalse : (d && isDescEndValue pad) = false := by
          rw [Bool.eq_false_iff]
          simpa using hp
        simp only [compressText, hfalse, Bool.false_eq_true, if_false, List.nil_append,
          chopTrailing_cons]
        refine ⟨_, _, rfl, ?_⟩
        rintro hd rfl
        exact hp ⟨hd, rfl⟩
    | cons b q =>
      by_cases hp : d = true ∧ isDescEndValue b = true
      · simp only [compressText, hp.1, hp.2, Bool.and_self, if_true, chopTrailing_cons]
        exact ⟨_, _, rfl, fun _ => by decide⟩
      · have hfalse : (d && isDescEndValue b) = false := by
          rw [Bool.eq_false_iff]
          simpa using hp
        have htake : (b :: q).take keyDataSize = b :: q.take maxKey := rfl
        simp only [compressText, hfalse, Bool.false_eq_true, if_false, htake, chopTrailing_cons]
        refine ⟨_, _, rfl, ?_⟩
        rintro hd rfl
        exact hp ⟨hd, rfl⟩
  cases v with
  | null => exact absurd rfl hne
  | string bytes => exact text 0x20 bytes
  | byteArray bytes => exact text 0 bytes
  | number image =>
    obtain ⟨b, q, rfl⟩ := List.exists_cons_of_ne_nil hv
    by_cases hp : d = true ∧ isDescEndValue b = true
    · refine ⟨descEndValuePrefix, chopTrailing 0 (b :: q), ?_, fun _ => by decide⟩
      simp [compress, compressNumber, chopTrailing_cons, hp.1, hp.2]
    · refine ⟨b, q.rdropWhile (· == 0), ?_, ?_⟩
      · have hfalse : (d && isDescEndValue b) = false := by
          rw [Bool.eq_false_iff]
          simpa using hp
        simp [compress, compressNumber, chopTrailing_cons, hfalse]
      · rintro hd rfl
        exact hp ⟨hd, rfl⟩

theorem compress_head_eq_iff {d : Bool} {v : SegmentValue} (hv : v.Converted) :
    (compress d v).head? = (compress d .null).head? ↔ v = .null := by
  constructor
  · intro h
    by_contra hne
    obtain ⟨b, q, hb, hzero⟩ := compress_value (d := d) hv hne
    rw [hb] at h
    cases d with
    | false => simp [compress] at h
    | true => exact hzero rfl (by simpa [compress] using h)
  · rintro rfl
    rfl

theorem head_fillUp (s : Key) : (fillUp s).head? = s.head? := by
  cases s <;> simp [fillUp, room]

/-- A segment keeps its first byte as it is stored. -/
theorem map_head_storedTuple (ss : List Key) :
    (storedTuple ss).map List.head? = ss.map List.head? := by
  fun_induction storedTuple ss with
  | case1 => rfl
  | case2 => rfl
  | case3 s t ss ih =>
    rw [List.map_cons, ih, head_fillUp]
    rfl

/-- The entry of an index that has these segment values. -/
def CompoundKey.ofValues (d : Bool) (values : List SegmentValue) (hv : ∀ v ∈ values, v.Converted) :
    CompoundKey d values.length where
  tuple := values.map (compress d)
  length_eq := List.length_map _
  ne_nil := by
    rintro rfl s hs
    obtain ⟨v, hmem, rfl⟩ := List.mem_map.1 hs
    by_cases hn : v = .null
    · simp [hn, compress]
    · obtain ⟨b, q, hb, -⟩ := compress_value (d := true) (hv v hmem) hn
      simp [hb]

theorem CompoundKey.stored_eq_of_key_eq {d : Bool} {n : ℕ} {x y : CompoundKey d n} (hn : n ≠ 1)
    (hc : n ≤ 255) (h : x.key = y.key) : storedTuple x.tuple = storedTuple y.tuple := by
  have hsame := (x.sameSegments_iff y hc le_rfl).2 (by rw [partNumber_of_key_eq hn h, Nat.add_zero])
  rw [SameSegments] at hsame
  rwa [List.take_of_length_le (stored_length x).le, List.take_of_length_le (stored_length y).le] at hsame

/-- The joined bytes are those of nulls only if all values are nulls. -/
theorem joinSegments_eq_null_iff {d : Bool} {values : List SegmentValue} (hpos : values ≠ [])
    (hmax : values.length ≤ maxIndexSegments) (hv : ∀ v ∈ values, v.Converted) :
    directed d (joinSegments values.length (values.map (compress d))) =
        directed d (joinSegments values.length (List.replicate values.length (compress d .null))) ↔
      ∀ v ∈ values, v = .null := by
  have hnulls : List.replicate values.length (compress d .null) =
      (List.replicate values.length SegmentValue.null).map (compress d) := by simp
  constructor
  · intro h
    have hheads : (values.map (compress d)).map List.head? =
        (List.replicate values.length (compress d .null)).map List.head? := by
      by_cases hone : values.length = 1
      · obtain ⟨v, rfl⟩ := List.length_eq_one_iff.1 hone
        have hval := directed_injective d h
        simp only [joinSegments, List.length_singleton, if_true, List.map_cons, List.map_nil,
          List.headD_cons, List.replicate_one] at hval ⊢
        rw [hval]
      · have hv' : ∀ v ∈ List.replicate values.length SegmentValue.null, v.Converted := by
          intro v hmem
          rw [List.eq_of_mem_replicate hmem]
          trivial
        let x := CompoundKey.ofValues d values hv
        let y : CompoundKey d values.length :=
          ⟨List.replicate values.length (compress d .null), List.length_replicate, by
            rintro rfl s hs
            rw [List.eq_of_mem_replicate hs]
            simp [compress]⟩
        have hstored := CompoundKey.stored_eq_of_key_eq (x := x) (y := y) hone
          (hmax.trans (by decide)) h
        rw [← map_head_storedTuple, ← map_head_storedTuple (List.replicate _ _)]
        exact congrArg (List.map List.head?) hstored
    rw [List.map_map, List.map_replicate, List.map_eq_replicate_iff] at hheads
    intro v hmem
    exact (compress_head_eq_iff (hv v hmem)).1 (hheads v hmem)
  · intro h
    rw [List.eq_replicate_of_mem h]
    simp

/-! ## Enough room for nulls -/

theorem putByte_of_lt {maxKeyLength : ℕ} {key : Key} {b : UInt8} (h : key.length + 1 < maxKeyLength) :
    putByte maxKeyLength key b = .ok (key ++ [b]) := by
  rw [putByte, if_neg]
  rw [List.length_append, List.length_singleton]
  omega

theorem padBytes_of_lt {maxKeyLength k : ℕ} {key : Key} (h : key.length + k < maxKeyLength) :
    padBytes maxKeyLength k key = .ok (key ++ List.replicate k 0) := by
  induction k generalizing key with
  | zero => simp [padBytes]
  | succ k ih =>
    rw [padBytes, putByte_of_lt (by omega)]
    change padBytes maxKeyLength k (key ++ [0]) = _
    rw [ih (by rw [List.length_append, List.length_singleton]; omega)]
    simp [List.replicate_succ]

theorem stuffBytes_of_lt {maxKeyLength k : ℕ} {marker : UInt8} {q key : Key}
    (h : (key ++ stuff stuffCount marker k q).length < maxKeyLength) :
    stuffBytes maxKeyLength marker q key k =
      .ok (key ++ stuff stuffCount marker k q, room stuffCount k q) := by
  induction q generalizing key k with
  | nil => cases k <;> simp [stuffBytes, stuff, room]
  | cons b q ih =>
    cases k with
    | zero =>
      rw [stuff, List.length_append, List.length_cons, List.length_cons] at h
      have h₂ : (key ++ [marker]).length + 1 < maxKeyLength := by
        rw [List.length_append, List.length_singleton]
        omega
      rw [stuffBytes, putByte_of_lt (by omega)]
      change (putByte maxKeyLength (key ++ [marker]) b >>= _) = _
      rw [putByte_of_lt h₂]
      change stuffBytes maxKeyLength marker q (key ++ [marker] ++ [b]) (stuffCount - 1) = _
      rw [ih (by simp only [List.length_append, List.length_singleton]; omega)]
      simp [stuff, room]
    | succ k =>
      rw [stuff, List.length_append, List.length_cons] at h
      rw [stuffBytes, putByte_of_lt (by omega)]
      change stuffBytes maxKeyLength marker q (key ++ [b]) k = _
      rw [ih (by simp only [List.length_append, List.length_singleton]; omega)]
      simp [stuff, room]

/-- The loop of `BTR_key` succeeds when there is room for the key. -/
theorem btrKeyLoop_of_lt {maxKeyLength idxCount n k : ℕ} {temps : List Key} {key : Key}
    (hne : temps ≠ [])
    (h : (key ++ List.replicate k 0 ++
      encodeTuple stuffCount 0 (segmentMarker idxCount) n temps).length < maxKeyLength) :
    ∃ data, btrKeyLoop maxKeyLength idxCount n temps key k = .ok data := by
  induction temps generalizing n key k with
  | nil => exact absurd rfl hne
  | cons temp temps ih =>
    have hprefix : (key ++ List.replicate k 0 ++
        stuff stuffCount (segmentMarker idxCount n) 0 temp).length < maxKeyLength := by
      apply Nat.lt_of_le_of_lt _ h
      cases temps with
      | nil => simp [encodeTuple]
      | cons t ts =>
        rw [encodeTuple]
        simp only [List.length_append]
        omega
    have hpad : key.length + k < maxKeyLength := by
      rw [List.length_append, List.length_append, List.length_replicate] at hprefix
      omega
    rw [btrKeyLoop, padBytes_of_lt hpad]
    change ∃ data, (stuffBytes maxKeyLength (segmentMarker idxCount n) temp
      (key ++ List.replicate k 0) 0 >>= _) = .ok data
    rw [stuffBytes_of_lt hprefix]
    change ∃ data, btrKeyLoop maxKeyLength idxCount (n + 1) temps _ _ = .ok data
    cases temps with
    | nil => exact ⟨_, rfl⟩
    | cons t ts =>
      apply ih (by simp)
      rw [encodeTuple] at h
      simpa only [List.append_assoc] using h

theorem length_encodeTuple_replicate_le (idxCount n count : ℕ) {s : Key} (hs : s.length ≤ 1) :
    (encodeTuple stuffCount 0 (segmentMarker idxCount) n (List.replicate count s)).length ≤
      5 * count := by
  have hstuff : ∀ m : UInt8, (stuff stuffCount m 0 s).length ≤ 2 ∧ room stuffCount 0 s ≤ 3 := by
    intro m
    cases s with
    | nil => simp [stuff, room]
    | cons b s =>
      obtain rfl := List.length_eq_zero_iff.1 (Nat.le_zero.1 (Nat.le_of_succ_le_succ hs))
      simp [stuff, room, stuffCount]
  induction count generalizing n with
  | zero => simp [encodeTuple]
  | succ count ih =>
    have h := hstuff (segmentMarker idxCount n)
    cases count with
    | zero =>
      rw [List.replicate_one, encodeTuple]
      omega
    | succ count =>
      have hrest := ih (n + 1)
      rw [List.replicate_succ] at hrest
      rw [List.replicate_succ, List.replicate_succ, encodeTuple]
      simp only [List.length_append, List.length_replicate]
      omega

/-- A key of nulls fits into the smallest page. -/
theorem btrKey_nulls {maxKeyLength : ℕ} {idx : IndexDesc} (hcount : 0 < idx.idxCount)
    (hmax : idx.idxCount ≤ maxIndexSegments) (hroom : minPageSize / 4 ≤ maxKeyLength) :
    ∃ key, btrKey maxKeyLength idx (List.replicate idx.idxCount .null) 0 = .ok key := by
  have hlen : (compress idx.idxDescending .null).length ≤ 1 := by
    cases idx.idxDescending <;> decide
  have hbytes := length_encodeTuple_replicate_le idx.idxCount 0 idx.idxCount hlen
  have hsmall : 5 * idx.idxCount < maxKeyLength := by
    unfold maxIndexSegments at hmax
    unfold minPageSize at hroom
    omega
  have hcollect : ∃ key, collectKey maxKeyLength idx (List.replicate idx.idxCount .null) 0 = .ok key := by
    unfold collectKey
    by_cases hone : idx.idxCount = 1
    · exact ⟨⟨compress idx.idxDescending .null, 1, false⟩, by simp [hone, leavesKeyEmpty]⟩
    · have hdata : ∃ data, btrKeyLoop maxKeyLength idx.idxCount 0
          (List.replicate idx.idxCount (compress idx.idxDescending .null)) [] 0 = .ok data := by
        apply btrKeyLoop_of_lt
        · simpa using hcount.ne'
        · simpa using Nat.lt_of_le_of_lt hbytes hsmall
      obtain ⟨data, hdata⟩ := hdata
      refine ⟨⟨data, nullBits 0 (List.replicate idx.idxCount .null),
        (List.replicate idx.idxCount SegmentValue.null).all leavesKeyEmpty⟩, ?_⟩
      simp [hone, hdata, Except.map]
  obtain ⟨key, hkey⟩ := hcollect
  have hjoin := collectKey_ok (by simp) hkey
  have hshort : key.keyData.length < maxKeyLength := by
    rw [hjoin, joinSegments]
    apply Nat.lt_of_le_of_lt _ hsmall
    split_ifs with hone
    · rw [hone]
      simp only [List.replicate_one, List.map_cons, List.headD_cons]
      omega
    · rwa [List.map_replicate]
  unfold btrKey
  rw [hkey]
  dsimp only
  rw [if_neg (by omega)]
  split_ifs
  · exact ⟨_, rfl⟩
  · exact ⟨_, rfl⟩

/-! ## The three keys -/

/-- `BTR_make_key` gives the bytes `BTR_key` gives, `BTR_make_null_key` those of a record whose
segments are all null, and no record with a value has those. -/
theorem btrKey_eq_makeKey {maxKeyLength : ℕ} {idx : IndexDesc} {values : List SegmentValue}
    {expression : Bool} (hcount : 0 < idx.idxCount) (hmax : idx.idxCount ≤ maxIndexSegments)
    (hroom : minPageSize / 4 ≤ maxKeyLength) (hexpr : expression = true → idx.idxCount = 1)
    (hlen : values.length = idx.idxCount) (hv : ∀ v ∈ values, v.Converted) :
    (makeKey maxKeyLength idx values idx.idxCount false).map (·.keyData) =
        (btrKey maxKeyLength idx values 0).map (·.keyData) ∧
      ((∀ v ∈ values, v = .null) → (btrKey maxKeyLength idx values 0).map (·.keyData) =
        .ok (makeNullKey idx expression).keyData) ∧
      ∀ key, btrKey maxKeyLength idx values 0 = .ok key →
        (key.keyData = (makeNullKey idx expression).keyData ↔ ∀ v ∈ values, v = .null) := by
  have hiff : ∀ key, btrKey maxKeyLength idx values 0 = .ok key →
      (key.keyData = (makeNullKey idx expression).keyData ↔ ∀ v ∈ values, v = .null) := by
    intro key hkey
    have hdata : key.keyData = directed idx.idxDescending
        (joinSegments idx.idxCount (values.map (compress idx.idxDescending))) := btrKey_ok hlen hkey
    have hne : values ≠ [] := by
      rintro rfl
      exact hcount.ne hlen
    rw [hdata, makeNullKey_keyData hcount hexpr, nullSegments, ← hlen]
    exact joinSegments_eq_null_iff hne (hlen ▸ hmax) hv
  refine ⟨makeKey_map_keyData maxKeyLength idx values hlen, ?_, hiff⟩
  intro hnull
  have hvals : values = List.replicate idx.idxCount .null := by
    rw [← hlen]
    exact List.eq_replicate_of_mem hnull
  obtain ⟨key, hkey⟩ := btrKey_nulls hcount hmax hroom
  rw [← hvals] at hkey
  rw [hkey]
  exact congrArg Except.ok ((hiff key hkey).2 hnull)

/-- In a descending index a string that starts with a zero byte is set apart from a null. -/
theorem btrKey_eq_makeKey_zero :
    (makeKey 1024 ⟨2, true, false, false⟩ [.null, .string [0, 65]] 2 false).map (·.keyData) =
        (btrKey 1024 ⟨2, true, false, false⟩ [.null, .string [0, 65]] 0).map (·.keyData) ∧
      ((∀ v ∈ [SegmentValue.null, .string [0, 65]], v = .null) →
        (btrKey 1024 ⟨2, true, false, false⟩ [.null, .string [0, 65]] 0).map (·.keyData) =
          .ok (makeNullKey ⟨2, true, false, false⟩ false).keyData) ∧
      ∀ key, btrKey 1024 ⟨2, true, false, false⟩ [.null, .string [0, 65]] 0 = .ok key →
        (key.keyData = (makeNullKey ⟨2, true, false, false⟩ false).keyData ↔
          ∀ v ∈ [SegmentValue.null, .string [0, 65]], v = .null) :=
  btrKey_eq_makeKey (by decide) (by decide) (by decide) (by decide) rfl (by decide)

end FirebirdCore.Btr
