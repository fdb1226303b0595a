import Mathlib.Data.List.TakeWhile
import Mathlib.Tactic

/-!
# Run-length compression of records

`Compressor.make` finds the control bytes for a string: a positive one stands for so many literal
bytes, a negative one for a run. `pack` writes them with their data and `unpack` reads them back.
`Controls` says which strings the control bytes describe.
-/
namespace FirebirdCore.Sqz

/-- The BUGCHECKs of the compression code, by message number 176 to 179. -/
inductive BugCheck where
  | badDifferenceRecord
  | appliedDifferencesWillNotFit
  | recordLengthInconsistent
  | decompressionOverran
  deriving DecidableEq, Repr

/-- A byte as a `signed char`. -/
def signedChar (c : UInt8) : ℤ := if c.toNat < 128 then c.toNat else (c.toNat : ℤ) - 256

theorem signedChar_ofNat {n : ℕ} (h : n < 128) : signedChar (UInt8.ofNat n) = n := by
  rw [signedChar, UInt8.toNat_ofNat', Nat.mod_eq_of_lt (by omega), if_pos h]

theorem signedChar_neg {n : ℕ} (hpos : 0 < n) (h : n ≤ 128) :
    signedChar (UInt8.ofNat (256 - n)) = -n := by
  rw [signedChar, UInt8.toNat_ofNat', Nat.mod_eq_of_lt (by omega), if_neg (by omega)]
  omega

structure Compressor where
  control : List UInt8
  length : ℕ
  deriving DecidableEq, Repr

namespace Compressor

/-! ## Finding the control bytes -/

/-- Length of the non-compressable run, which ends before three equal bytes. -/
def literalLength : List UInt8 → ℕ
  | a :: b :: c :: rest =>
      if a ≠ b ∨ a ≠ c then literalLength (b :: c :: rest) + 1
      else 0
  | rest => rest.length

/-- Non-compressable runs are limited to 127 bytes. -/
def literalControls (count : ℕ) : Compressor :=
  if count = 0 then ⟨[], 0⟩
  else
    let max := min count 127
    let next := literalControls (count - max)
    ⟨UInt8.ofNat max :: next.control, 1 + max + next.length⟩
termination_by count

/-- Length of the compressable run, which is limited to 128 bytes. -/
def runLength (data : List UInt8) : ℕ :=
  ((data.take 128).takeWhile (· = data.headD 0)).length

theorem literalLength_le (data : List UInt8) : literalLength data ≤ data.length := by
  fun_induction literalLength data with
  | case1 a b c rest h ih => simpa using ih
  | case2 a b c rest h => exact Nat.zero_le _
  | case3 rest h => exact le_rfl

/-- What follows the literals is the end of the string or three equal bytes. -/
theorem drop_literalLength (data : List UInt8) :
    data.drop (literalLength data) = [] ∨
      ∃ c rest, data.drop (literalLength data) = c :: c :: c :: rest := by
  fun_induction literalLength data with
  | case1 a b c rest h ih => simpa using ih
  | case2 a b c rest h =>
    rw [not_or, not_not, not_not] at h
    obtain ⟨rfl, rfl⟩ := h
    exact .inr ⟨_, _, rfl⟩
  | case3 rest h => simp

theorem runLength_bounds (c : UInt8) (rest : List UInt8) :
    3 ≤ runLength (c :: c :: c :: rest) ∧ runLength (c :: c :: c :: rest) ≤ 128 := by
  constructor
  · simp [runLength]
  · refine (List.takeWhile_sublist _).length_le.trans ?_
    rw [List.length_take]
    exact Nat.min_le_left _ _

/-- The run consists of one byte. -/
theorem take_runLength (data : List UInt8) :
    data.take (runLength data) = List.replicate (runLength data) (data.headD 0) := by
  have hfront : (data.take 128).takeWhile (· = data.headD 0) <+: data :=
    (List.takeWhile_prefix _).trans (List.take_prefix _ _)
  rw [runLength, ← List.prefix_iff_eq_take.1 hfront]
  refine List.eq_replicate_of_mem fun b hb => ?_
  simpa using List.mem_takeWhile_imp hb

/-- The control byte for a run at the start of `data`, if there is one, and what follows. -/
def takeRun (data : List UInt8) : Compressor × List UInt8 :=
  if min 128 data.length ≥ 3 then
    (⟨[UInt8.ofNat (256 - runLength data)], 2⟩, data.drop (runLength data))
  else (⟨[], 0⟩, data)

theorem takeRun_run (c : UInt8) (rest : List UInt8) :
    takeRun (c :: c :: c :: rest) =
      (⟨[UInt8.ofNat (256 - runLength (c :: c :: c :: rest))], 2⟩,
        (c :: c :: c :: rest).drop (runLength (c :: c :: c :: rest))) :=
  if_pos (by simp)

theorem takeRun_lt {data : List UInt8} (h : data ≠ []) :
    (takeRun (data.drop (literalLength data))).2.length < data.length := by
  have hpos : 0 < data.length := List.length_pos_iff.2 h
  rcases drop_literalLength data with hrest | ⟨c, rest, hrest⟩
  · rw [hrest]
    simpa [takeRun] using hpos
  · have hbounds := runLength_bounds c rest
    have hlen := congrArg List.length hrest
    rw [hrest, takeRun_run]
    simp only [List.length_drop, List.length_cons] at *
    omega

/-- The control bytes for `data`. -/
def make (data : List UInt8) : Compressor :=
  if h : data = [] then ⟨[], 0⟩
  else
    have := takeRun_lt h
    let literals := literalControls (literalLength data)
    let run := takeRun (data.drop (literalLength data))
    let next := make run.2
    ⟨literals.control ++ run.1.control ++ next.control,
      literals.length + run.1.length + next.length⟩
termination_by data.length

def getPackedLength (c : Compressor) : ℕ := c.length

/-! ## Packing and unpacking -/

/-- Compress a string into a sufficiently large area. -/
def pack : List UInt8 → List UInt8 → List UInt8
  | [], _ => []
  | c :: control, input =>
      let length := signedChar c
      if length < 0 then c :: input.headD 0 :: pack control (input.drop (-length).toNat)
      else c :: (input.take length.toNat ++ pack control (input.drop length.toNat))

/-- Decompress the `inLength` bytes at `input` behind what is in `output` already. `input` goes on
with what stands in memory behind these bytes. -/
def unpackLoop (outLength inLength : ℕ) (input output : List UInt8) :
    Except BugCheck (List UInt8) :=
  if inLength = 0 then
    if output.length > outLength then .error .decompressionOverran else .ok output
  else
    let len := signedChar (input.headD 0)
    if len < 0 then
      if inLength ≤ 1 ∨ output.length + (-len).toNat > outLength then .error .decompressionOverran
      else
        unpackLoop outLength (inLength - 2) (input.drop 2)
          (output ++ List.replicate (-len).toNat (input.getD 1 0))
    else if output.length + len.toNat > outLength then .error .decompressionOverran
    else
      unpackLoop outLength (inLength - 1 - len.toNat) (input.drop (1 + len.toNat))
        (output ++ (input.drop 1).takeD len.toNat 0)
termination_by inLength

/-- Decompress a string into a buffer of `outLength` bytes: the bytes that are put there. -/
def unpack (inLength : ℕ) (input : List UInt8) (outLength : ℕ) : Except BugCheck (List UInt8) :=
  unpackLoop outLength inLength input []

/-! ## What the control bytes stand for -/

/-- `control` describes `data` as literals and runs. -/
inductive Controls : List UInt8 → List UInt8 → Prop
  | nil : Controls [] []
  | literal {bs control data : List UInt8} (hpos : 0 < bs.length) (hmax : bs.length ≤ 127)
      (h : Controls control data) : Controls (UInt8.ofNat bs.length :: control) (bs ++ data)
  | run {n : ℕ} {c : UInt8} {control data : List UInt8} (hmin : 3 ≤ n) (hmax : n ≤ 128)
      (h : Controls control data) :
      Controls (UInt8.ofNat (256 - n) :: control) (List.replicate n c ++ data)

/-- The length that is summed up along with the control bytes. -/
def packedLength (control : List UInt8) : ℕ :=
  (control.map fun c => if signedChar c < 0 then 2 else 1 + (signedChar c).toNat).sum

@[simp] theorem packedLength_nil : packedLength [] = 0 := rfl

@[simp] theorem packedLength_cons (c : UInt8) (control : List UInt8) :
    packedLength (c :: control) =
      (if signedChar c < 0 then 2 else 1 + (signedChar c).toNat) + packedLength control := by
  simp [packedLength]

@[simp] theorem packedLength_append (cs ds : List UInt8) :
    packedLength (cs ++ ds) = packedLength cs + packedLength ds := by
  simp [packedLength]

theorem pack_literal {bs control rest : List UInt8} (hmax : bs.length ≤ 127) :
    pack (UInt8.ofNat bs.length :: control) (bs ++ rest) =
      UInt8.ofNat bs.length :: (bs ++ pack control rest) := by
  have hchar := signedChar_ofNat (n := bs.length) (by omega)
  rw [pack, hchar, if_neg (by omega), Int.toNat_natCast, List.take_left, List.drop_left]

theorem pack_run {n : ℕ} {c : UInt8} {control rest : List UInt8} (hmin : 3 ≤ n) (hmax : n ≤ 128) :
    pack (UInt8.ofNat (256 - n) :: control) (List.replicate n c ++ rest) =
      UInt8.ofNat (256 - n) :: c :: pack control rest := by
  have hchar := signedChar_neg (n := n) (by omega) hmax
  have hhead : (List.replicate n c ++ rest).headD 0 = c := by
    obtain ⟨m, rfl⟩ : ∃ m, n = m + 1 := ⟨n - 1, by omega⟩
    rfl
  have hdrop : (List.replicate n c ++ rest).drop n = rest := by
    rw [List.drop_left' (by simp)]
  rw [pack, hchar, if_pos (by omega), hhead, neg_neg, Int.toNat_natCast, hdrop]

/-- The length summed up is that of what is written. -/
theorem Controls.pack_length {control data : List UInt8} (h : Controls control data) :
    (pack control data).length = packedLength control := by
  induction h with
  | nil => rfl
  | @literal bs control data hpos hmax h ih =>
    have hchar := signedChar_ofNat (n := bs.length) (by omega)
    rw [pack_literal hmax, packedLength_cons, hchar, if_neg (by omega), List.length_cons,
      List.length_append, ih]
    omega
  | @run n c control data hmin hmax h ih =>
    have hchar := signedChar_neg (n := n) (by omega) hmax
    rw [pack_run hmin hmax, packedLength_cons, hchar, if_pos (by omega), List.length_cons,
      List.length_cons, ih]
    omega

/-- One literal run is read back. -/
theorem unpackLoop_literal {outLength inLength : ℕ} {bs input output : List UInt8}
    (hmax : bs.length ≤ 127) (hfit : output.length + bs.length ≤ outLength) :
    unpackLoop outLength (1 + bs.length + inLength) (UInt8.ofNat bs.length :: (bs ++ input)) output =
      unpackLoop outLength inLength input (output ++ bs) := by
  have hchar := signedChar_ofNat (n := bs.length) (by omega)
  have htake : (bs ++ input).takeD bs.length 0 = bs := by
    rw [List.takeD_eq_take _ (by simp), List.take_left]
  have hdrop : (UInt8.ofNat bs.length :: (bs ++ input)).drop (1 + bs.length) = input := by
    rw [Nat.add_comm, List.drop_succ_cons, List.drop_left]
  rw [unpackLoop, if_neg (by omega)]
  dsimp only
  rw [List.headD_cons, hchar, if_neg (by omega), Int.toNat_natCast, if_neg (by omega), hdrop,
    List.drop_one, List.tail_cons, htake]
  congr 1
  omega

/-- One run is read back. -/
theorem unpackLoop_run {outLength inLength n : ℕ} {c : UInt8} {input output : List UInt8}
    (hmin : 3 ≤ n) (hmax : n ≤ 128) (hfit : output.length + n ≤ outLength) :
    unpackLoop outLength (2 + inLength) (UInt8.ofNat (256 - n) :: c :: input) output =
      unpackLoop outLength inLength input (output ++ List.replicate n c) := by
  have hchar := signedChar_neg (n := n) (by omega) hmax
  rw [unpackLoop, if_neg (by omega)]
  dsimp only
  rw [List.headD_cons, hchar, if_pos (by omega), neg_neg, Int.toNat_natCast, if_neg (by omega)]
  congr 1
  omega

/-- What is packed is unpacked again, whatever follows it in memory. -/
theorem Controls.unpackLoop_pack {control data : List UInt8} (h : Controls control data)
    (outLength : ℕ) (output rest : List UInt8) (hfit : output.length + data.length ≤ outLength) :
    unpackLoop outLength (pack control data).length (pack control data ++ rest) output =
      .ok (output ++ data) := by
  induction h generalizing output with
  | nil =>
    have hlen : ¬ output.length > outLength := by
      simp only [List.length_nil] at hfit
      omega
    rw [pack, List.length_nil, unpackLoop, if_pos rfl, if_neg hlen, List.append_nil]
  | @literal bs control data hpos hmax h ih =>
    rw [List.length_append] at hfit
    rw [pack_literal hmax, List.cons_append, List.append_assoc, List.length_cons, List.length_append,
      show bs.length + (pack control data).length + 1 =
        1 + bs.length + (pack control data).length by omega,
      unpackLoop_literal hmax (by omega), ih _ (by rw [List.length_append]; omega),
      List.append_assoc]
  | @run n c control data hmin hmax h ih =>
    rw [List.length_append, List.length_replicate] at hfit
    rw [pack_run hmin hmax, List.cons_append, List.cons_append, List.length_cons, List.length_cons,
      show (pack control data).length + 1 + 1 = 2 + (pack control data).length by omega,
      unpackLoop_run hmin hmax (by omega),
      ih _ (by rw [List.length_append, List.length_replicate]; omega), List.append_assoc]

/-! ## The control bytes that are found -/

/-- Literals are split into stretches of at most 127 bytes. -/
theorem Controls.literals {control data bs : List UInt8} (h : Controls control data) :
    Controls ((literalControls bs.length).control ++ control) (bs ++ data) := by
  obtain ⟨count, hcount⟩ : ∃ count, count = bs.length := ⟨_, rfl⟩
  rw [← hcount]
  induction count using Nat.strong_induction_on generalizing bs with
  | _ count ih =>
    rw [literalControls]
    split_ifs with hz
    · obtain rfl := List.length_eq_zero_iff.1 (hcount.symm.trans hz)
      exact h
    · have hlen : (bs.take (min count 127)).length = min count 127 := by
        rw [List.length_take]
        omega
      have hdrop : count - min count 127 = (bs.drop (min count 127)).length := by
        rw [List.length_drop]
        omega
      have hpos : 0 < (bs.take (min count 127)).length := by omega
      have hmax : (bs.take (min count 127)).length ≤ 127 := by omega
      have hstretch := Controls.literal hpos hmax (ih _ (by omega) hdrop)
      rw [hlen, ← List.append_assoc, List.take_append_drop] at hstretch
      exact hstretch

theorem literalControls_length (count : ℕ) :
    2 * (literalControls count).control.length ≤ count + 1 ∧
      (literalControls count).length = packedLength (literalControls count).control := by
  fun_induction literalControls count with
  | case1 => simp
  | case2 count hz max next ih =>
    have hmax : max = min count 127 := rfl
    have hnext : literalControls (count - max) = next := rfl
    rw [hnext] at ih
    have hchar := signedChar_ofNat (n := max) (by omega)
    refine ⟨?_, ?_⟩
    · rw [List.length_cons]
      by_cases hlast : next.control = []
      · rw [hlast, List.length_nil]
        omega
      · have hrest : count - max ≠ 0 := by
          intro hz
          apply hlast
          simp [next, hz, literalControls]
        omega
    · dsimp only
      rw [packedLength_cons, hchar, if_neg (by omega), Int.toNat_natCast, ih.2]

theorem make_controls (data : List UInt8) : Controls (make data).control data := by
  fun_induction make data with
  | case1 => exact .nil
  | case2 data hne hlt literals run next ih =>
    rw [List.append_assoc]
    have hrest : Controls (run.1.control ++ next.control) (data.drop (literalLength data)) := by
      rcases drop_literalLength data with hdrop | ⟨c, rest, hdrop⟩
      · have hrun : run = (⟨[], 0⟩, []) := by simp [run, hdrop, takeRun]
        rw [hrun] at ih
        simpa [hrun, next, hdrop] using ih
      · have hbounds := runLength_bounds c rest
        have hrun : run = _ := (congrArg takeRun hdrop).trans (takeRun_run c rest)
        have hone := take_runLength (c :: c :: c :: rest)
        have hstep := Controls.run (c := c) hbounds.1 hbounds.2 ih
        rw [hdrop]
        have hnext : make run.2 = next := rfl
        rw [hnext] at hstep
        rw [hrun] at hstep ⊢
        rw [List.headD_cons] at hone
        rw [← hone, List.take_append_drop] at hstep
        exact hstep
    have h : Controls ((literalControls (data.take (literalLength data)).length).control ++
        (run.1.control ++ next.control))
          (data.take (literalLength data) ++ data.drop (literalLength data)) := hrest.literals
    rw [List.take_append_drop, List.length_take, Nat.min_eq_left (literalLength_le data)] at h
    exact h

/-- A stretch of literals is followed by a run of three bytes at least, or by nothing. -/
theorem make_lengths (data : List UInt8) :
    2 * (make data).control.length ≤ data.length + 1 ∧
      (make data).length = packedLength (make data).control := by
  fun_induction make data with
  | case1 => simp
  | case2 data hne hlt literals run next ih =>
    obtain ⟨hcount, hlength⟩ := literalControls_length (literalLength data)
    have hle := literalLength_le data
    have hnext : make run.2 = next := rfl
    rw [hnext] at ih
    simp only [packedLength_append, List.length_append, ← hlength, ← ih.2, literals]
    rcases drop_literalLength data with hdrop | ⟨c, rest, hdrop⟩
    · have hrun : run = (⟨[], 0⟩, []) := by simp [run, hdrop, takeRun]
      have hempty : next = ⟨[], 0⟩ := by simp [next, hrun, make]
      rw [hrun, hempty]
      simp only [List.length_nil, packedLength_nil, Nat.add_zero, and_true]
      omega
    · have hbounds := runLength_bounds c rest
      have hchar := signedChar_neg (n := runLength (c :: c :: c :: rest)) (by omega) hbounds.2
      have hrun : run = _ := (congrArg takeRun hdrop).trans (takeRun_run c rest)
      have hlen := congrArg List.length hdrop
      have hcontrol := ih.1
      rw [hrun] at hcontrol ⊢
      simp only [List.length_drop, List.length_cons, List.length_nil, packedLength_cons,
        packedLength_nil, hchar] at hcontrol hlen ⊢
      rw [if_pos (by omega)]
      omega

/-- The compressor uses at most one control byte for two bytes, `getPackedLength` is the length of
what `pack` writes, and `unpack` gives the string back. -/
theorem unpack_pack (data rest : List UInt8) :
    (make data).control.length ≤ (data.length + 1) / 2 ∧
      (make data).getPackedLength = (pack (make data).control data).length ∧
      unpack (make data).getPackedLength (pack (make data).control data ++ rest) data.length =
        .ok data := by
  obtain ⟨hcount, hlength⟩ := make_lengths data
  have hcontrols := make_controls data
  have hpacked : (make data).getPackedLength = (pack (make data).control data).length :=
    hlength.trans hcontrols.pack_length.symm
  refine ⟨?_, hpacked, ?_⟩
  · rw [Nat.le_div_iff_mul_le (by decide)]
    omega
  · rw [unpack, hpacked, hcontrols.unpackLoop_pack data.length [] rest (by simp)]
    rfl

end Compressor

end FirebirdCore.Sqz
