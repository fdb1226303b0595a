import FirebirdCore.Sqz.Compressor

/-!
# Compressed records in backups

`compress` writes stretches of literals and runs of one byte, and `decompress` reads them back. A positive
count stands for so many literals, a negative one for a run.
-/
namespace FirebirdCore.Burp

open Sqz (signedChar signedChar_ofNat signedChar_neg)

def USHORT (n : ℕ) : ℕ := n % 2 ^ 16

/-! ## Compressing -/

/-- The bytes in front of the first three that are equal, or all of them. -/
def stretch : List UInt8 → ℕ
  | a :: b :: c :: data => if a ≠ b ∨ b ≠ c then stretch (b :: c :: data) + 1 else 0
  | data => data.length

/-- How many bytes are equal to the first. -/
def equals (data : List UInt8) : ℕ := (data.takeWhile (· = data.headD 0)).length

/-- So many literals with their counts, and what follows them. -/
def putLiterals (run : ℕ) (data : List UInt8) : List UInt8 × List UInt8 :=
  if run > 127 then
    let r := putLiterals (run - 127) (data.drop 127)
    (127 :: (data.take 127 ++ r.1), r.2)
  else if run ≠ 0 then (UInt8.ofNat run :: data.take run, data.drop run)
  else ([], data)
termination_by run

def putRun (run : ℕ) (c : UInt8) : List UInt8 :=
  if run > 127 then UInt8.ofNat (256 - 127) :: c :: putRun (run - 127) c
  else if run ≠ 0 then [UInt8.ofNat (256 - run), c]
  else []
termination_by run

/-- The loop over the data. A run is left behind only where its 16-bit length is not zero. -/
def compress : ℕ → List UInt8 → Option (List UInt8)
  | 0, _ => none
  | fuel + 1, data =>
      if data = [] then some []
      else
        let literals := putLiterals (USHORT (stretch data)) data
        let run := equals literals.2
        if USHORT run ≠ 0 then
          (compress fuel (literals.2.drop run)).map
            (literals.1 ++ putRun (USHORT run) (literals.2.headD 0) ++ ·)
        else (compress fuel literals.2).map (literals.1 ++ ·)

/-! ## Decompressing -/

/-- The bytes that are stored in a buffer with so much room, and what is left of the stream, which may be
exhausted. Counts that are too large are adjusted. -/
def decompressLoop (room : ℕ) (stream : List UInt8) : List UInt8 × Option (List UInt8) :=
  if room = 0 then ([], some stream)
  else
    match stream with
    | [] => ([], none)
    | c :: stream =>
        let count := signedChar c
        if count > 0 then
          let n := min room count.toNat
          if stream.length < n then (stream, none)
          else
            let r := decompressLoop (room - n) (stream.drop n)
            (stream.take n ++ r.1, r.2)
        else if count < 0 then
          let n := min room (-count).toNat
          match stream with
          | [] => ([], none)
          | c :: stream =>
              let r := decompressLoop (room - n) stream
              (List.replicate n c ++ r.1, r.2)
        else decompressLoop room stream
termination_by stream.length

def decompress (length : ℕ) (stream : List UInt8) : List UInt8 × Option (List UInt8) :=
  decompressLoop (USHORT length) stream

/-- No byte behind the buffer is stored, whatever the stream. -/
theorem decompressLoop_length_le (room : ℕ) (stream : List UInt8) :
    (decompressLoop room stream).1.length ≤ room := by
  fun_induction decompressLoop room stream with
  | case1 stream => simp
  | case2 room hroom => simp
  | case3 room hroom c stream count hcount n hshort =>
    have hn : n ≤ room := Nat.min_le_left _ _
    exact hshort.le.trans hn
  | case4 room hroom c stream count hcount n hshort r ih =>
    have hn : n ≤ room := Nat.min_le_left _ _
    have hr : r.1.length ≤ room - n := ih
    rw [List.length_append, List.length_take]
    omega
  | case5 room hroom c count hcount hneg => simp
  | case6 room hroom c count hcount hneg n c' stream r ih =>
    have hn : n ≤ room := Nat.min_le_left _ _
    have hr : r.1.length ≤ room - n := ih
    rw [List.length_append, List.length_replicate]
    omega
  | case7 room hroom c stream count hcount hneg ih => exact ih

/-! ## Back again -/

variable {room n : ℕ} {c : UInt8} {bs bytes bytes' data data' : List UInt8}

/-- The bytes of the stream stand for the data, whatever follows them. -/
def Decodes (bytes data : List UInt8) : Prop :=
  ∀ room rest, decompressLoop (data.length + room) (bytes ++ rest) =
    (data ++ (decompressLoop room rest).1, (decompressLoop room rest).2)

theorem Decodes.append (h : Decodes bytes data) (h' : Decodes bytes' data') :
    Decodes (bytes ++ bytes') (data ++ data') := by
  intro room rest
  rw [List.length_append, Nat.add_assoc, List.append_assoc, h, h', List.append_assoc]

theorem decodes_nil : Decodes [] [] := by
  intro room rest
  simp

theorem decodes_literals (hpos : 0 < bs.length) (hmax : bs.length ≤ 127) :
    Decodes (UInt8.ofNat bs.length :: bs) bs := by
  intro room rest
  have hchar := signedChar_ofNat (n := bs.length) (by omega)
  have hmin : min (bs.length + room) bs.length = bs.length := by omega
  rw [List.cons_append, decompressLoop, if_neg (by omega)]
  simp only [hchar, Int.toNat_natCast, hmin]
  rw [if_pos (by omega), if_neg (by simp), List.take_left, List.drop_left, Nat.add_sub_cancel_left]

theorem decodes_run (hpos : 0 < n) (hmax : n ≤ 127) :
    Decodes [UInt8.ofNat (256 - n), c] (List.replicate n c) := by
  intro room rest
  have hchar := signedChar_neg (n := n) hpos (by omega)
  rw [List.cons_append, decompressLoop, if_neg (by simp; omega)]
  simp only [hchar, neg_neg, Int.toNat_natCast, List.length_replicate]
  rw [if_neg (by omega), if_pos (by omega)]
  simp

theorem take_split {k n : ℕ} (data : List UInt8) (h : k ≤ n) :
    data.take n = data.take k ++ (data.drop k).take (n - k) := by
  rw [← List.take_add, Nat.add_sub_cancel' h]

theorem drop_split {k n : ℕ} (data : List UInt8) (h : k ≤ n) :
    (data.drop k).drop (n - k) = data.drop n := by
  rw [List.drop_drop, Nat.add_sub_cancel' h]

theorem replicate_split {k n : ℕ} (c : UInt8) (h : k ≤ n) :
    List.replicate n c = List.replicate k c ++ List.replicate (n - k) c := by
  rw [← List.replicate_add, Nat.add_sub_cancel' h]

theorem putLiterals_decodes (hle : n ≤ data.length) :
    Decodes (putLiterals n data).1 (data.take n) ∧ (putLiterals n data).2 = data.drop n := by
  fun_induction putLiterals n data with
  | case1 n data hlong r ih =>
    obtain ⟨hdecodes, hrest⟩ := ih (by rw [List.length_drop]; omega)
    have hlength : (data.take 127).length = 127 := List.length_take_of_le (by omega)
    have hfirst : Decodes (127 :: data.take 127) (data.take 127) := by
      have h := @decodes_literals (data.take 127) (by omega) (by omega)
      rw [hlength] at h
      exact h
    rw [take_split data hlong.le]
    constructor
    · exact hfirst.append hdecodes
    · exact hrest.trans (drop_split data hlong.le)
  | case2 n data hlong hne =>
    have hlength : (data.take n).length = n := List.length_take_of_le hle
    have h := @decodes_literals (data.take n) (by omega) (by omega)
    rw [hlength] at h
    exact ⟨h, rfl⟩
  | case3 n data hlong hne =>
    obtain rfl : n = 0 := by omega
    exact ⟨decodes_nil, rfl⟩

theorem putRun_decodes (n : ℕ) (c : UInt8) : Decodes (putRun n c) (List.replicate n c) := by
  fun_induction putRun n c with
  | case1 n hlong ih =>
    rw [replicate_split c hlong.le]
    exact (decodes_run (by omega) le_rfl).append ih
  | case2 n hlong hne => exact decodes_run (by omega) (by omega)
  | case3 n hlong hne =>
    obtain rfl : n = 0 := by omega
    exact decodes_nil

/-! ## Records -/

theorem stretch_le (data : List UInt8) : stretch data ≤ data.length := by
  fun_induction stretch data with
  | case1 a b c data h ih => simpa using ih
  | case2 a b c data h => exact Nat.zero_le _
  | case3 data h => exact le_rfl

theorem equals_le (data : List UInt8) : equals data ≤ data.length :=
  (List.takeWhile_sublist _).length_le

theorem equals_pos {data : List UInt8} (h : data ≠ []) : 0 < equals data := by
  cases data with
  | nil => exact absurd rfl h
  | cons c data => simp [equals]

theorem take_equals (data : List UInt8) :
    data.take (equals data) = List.replicate (equals data) (data.headD 0) := by
  have hfront : data.takeWhile (· = data.headD 0) <+: data := List.takeWhile_prefix _
  rw [equals, ← List.prefix_iff_eq_take.1 hfront]
  apply List.eq_replicate_of_mem
  intro b hb
  simpa using List.mem_takeWhile_imp hb

theorem USHORT_of_lt (h : n < 2 ^ 16) : USHORT n = n := Nat.mod_eq_of_lt h

theorem compress_decodes {fuel : ℕ} (hlength : data.length < 2 ^ 16) (hfuel : data.length < fuel) :
    ∃ bytes, compress fuel data = some bytes ∧ Decodes bytes data := by
  induction fuel generalizing data with
  | zero => omega
  | succ fuel ih =>
    rw [compress]
    split_ifs with hempty
    · subst hempty
      exact ⟨[], rfl, decodes_nil⟩
    · have hstretch := stretch_le data
      rw [USHORT_of_lt (by omega : stretch data < 2 ^ 16)]
      obtain ⟨hliterals, hrest⟩ := putLiterals_decodes hstretch
      dsimp only
      rw [hrest]
      have hdrop : (data.drop (stretch data)).length = data.length - stretch data := List.length_drop
      have hequals := equals_le (data.drop (stretch data))
      rw [USHORT_of_lt (by omega : equals (data.drop (stretch data)) < 2 ^ 16)]
      split_ifs with hrun
      · obtain ⟨bytes, hcompress, hdecodes⟩ :=
          @ih ((data.drop (stretch data)).drop (equals (data.drop (stretch data))))
            (by rw [List.length_drop]; omega) (by rw [List.length_drop]; omega)
        rw [hcompress]
        refine ⟨_, rfl, ?_⟩
        have hall := hliterals.append ((putRun_decodes (equals (data.drop (stretch data)))
          ((data.drop (stretch data)).headD 0)).append hdecodes)
        rw [← take_equals, List.take_append_drop, List.take_append_drop, ← List.append_assoc] at hall
        exact hall
      · have hend : data.drop (stretch data) = [] := by
          by_contra hne
          exact hrun (Nat.ne_of_gt (equals_pos hne))
        have hpos := List.length_pos_iff.2 hempty
        rw [hend] at hdrop ⊢
        obtain ⟨bytes, hcompress, hdecodes⟩ := @ih [] (by simp) (by simp at hdrop ⊢; omega)
        rw [hcompress]
        refine ⟨_, rfl, ?_⟩
        have hall := hliterals.append hdecodes
        rw [List.append_nil, List.take_of_length_le (by simp at hdrop; omega)] at hall
        exact hall

/-- What `compress` writes, `decompress` reads back as the data, and it reads no more. -/
def RoundTrips (data : List UInt8) : Prop :=
  ∃ fuel bytes, compress fuel data = some bytes ∧
    ∀ rest, decompress data.length (bytes ++ rest) = (data, some rest)

theorem roundTrips_of_lt (h : data.length < 2 ^ 16) : RoundTrips data := by
  obtain ⟨bytes, hcompress, hdecodes⟩ := compress_decodes h (Nat.lt_succ_self _)
  refine ⟨_, bytes, hcompress, ?_⟩
  intro rest
  have hall := hdecodes 0 rest
  rw [decompress, USHORT_of_lt h]
  rw [Nat.add_zero, decompressLoop.eq_def 0, if_pos rfl, List.append_nil] at hall
  exact hall

/-- The length that `decompress` is given has 16 bits. -/
theorem RoundTrips.length_lt (h : RoundTrips data) : data.length < 2 ^ 16 := by
  obtain ⟨fuel, bytes, -, hdecompress⟩ := h
  have hle := decompressLoop_length_le (USHORT data.length) (bytes ++ [])
  rw [← decompress, hdecompress []] at hle
  exact hle.trans_lt (Nat.mod_lt _ (by norm_num))

/-- Records of less than 2^16 bytes are restored, and no others. Nothing is stored behind a buffer. -/
theorem decompress_compress_iff (data : List UInt8) :
    (∀ length stream, (decompress length stream).1.length ≤ length) ∧ RoundTrips data ↔
      data.length < 2 ^ 16 := by
  have hbounded (length : ℕ) (stream : List UInt8) : (decompress length stream).1.length ≤ length :=
    (decompressLoop_length_le _ stream).trans (Nat.mod_le _ _)
  constructor
  · intro h
    exact h.2.length_lt
  · intro h
    exact ⟨hbounded, roundTrips_of_lt h⟩

/-- A run whose length has the 16 bits zero is never left behind. -/
theorem compress_replicate_none (fuel : ℕ) (c : UInt8) : compress fuel (List.replicate (2 ^ 16) c) = none := by
  obtain ⟨m, hm⟩ : ∃ m, 2 ^ 16 = m + 3 := ⟨2 ^ 16 - 3, by norm_num⟩
  have hstretch : stretch (List.replicate (2 ^ 16) c) = 0 := by
    rw [hm]
    simp [List.replicate_succ, stretch]
  have hhead : (List.replicate (2 ^ 16) c).headD 0 = c := by
    rw [hm]
    rfl
  have hequals : equals (List.replicate (2 ^ 16) c) = 2 ^ 16 := by
    rw [equals, hhead, List.takeWhile_eq_self_iff.2, List.length_replicate]
    intro b hb
    simp [List.eq_of_mem_replicate hb]
  have hne : List.replicate (2 ^ 16) c ≠ [] := by
    rw [hm]
    simp
  have hliterals : putLiterals 0 (List.replicate (2 ^ 16) c) = ([], List.replicate (2 ^ 16) c) := by
    rw [putLiterals]
    rfl
  have hzero : USHORT (2 ^ 16) = 0 := by decide
  induction fuel with
  | zero => rfl
  | succ fuel ih =>
    rw [compress, if_neg hne, hstretch]
    have hzero' : USHORT 0 = 0 := rfl
    simp only [hzero', hliterals, hequals, hzero, ne_eq, not_true_eq_false, if_false, ih]
    rfl

/-- A record of 2^16 zeros is not restored. -/
theorem not_roundTrips_zeros : ¬ RoundTrips (List.replicate (2 ^ 16) 0) := by
  rintro ⟨fuel, bytes, hcompress, -⟩
  rw [compress_replicate_none] at hcompress
  cases hcompress

end FirebirdCore.Burp
