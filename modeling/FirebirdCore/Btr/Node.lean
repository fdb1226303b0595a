import FirebirdCore.Lib.Base128

/-!
# Index nodes and jump nodes on a page

A node starts with three flag bits and five bits of the record number, then the rest of the
record number, the page number (non-leaf pages), the compressed prefix length, the data
length, and the data. Pointers into a page are offsets; a node read from a page carries its
data bytes, so `length` is the number of these bytes. The end-of-level marker is one byte.
-/
namespace FirebirdCore.Btr
open FirebirdCore.Base128

def btnNormalFlag : ℕ := 0
def btnEndLevelFlag : ℕ := 1
def btnEndBucketFlag : ℕ := 2
def btnZeroPrefixZeroLengthFlag : ℕ := 3
def btnZeroLengthFlag : ℕ := 4
def btnOneLengthFlag : ℕ := 5

def btnLeafSize : ℕ := 6
def btnPageSize : ℕ := 10

structure IndexNode where
  prefixLen : ℕ
  data : List UInt8
  recordNumber : ℕ
  pageNumber : ℕ
  isEndBucket : Bool
  isEndLevel : Bool
  deriving DecidableEq, Repr

namespace IndexNode

def length (n : IndexNode) : ℕ := n.data.length

/-- `setNode` with the flags of an ordinary node. -/
def ofParts (prefixLen : ℕ) (data : List UInt8) (recordNumber pageNumber : ℕ) : IndexNode :=
  ⟨prefixLen, data, recordNumber, pageNumber, false, false⟩

def setEndBucket (n : IndexNode) : IndexNode := { n with isEndBucket := true, isEndLevel := false }

/-- The node `setEndLevel` leaves. -/
def endLevel : IndexNode := ⟨0, [], 0, 0, false, true⟩

def internalFlags (n : IndexNode) : ℕ :=
  if n.isEndLevel then btnEndLevelFlag
  else if n.isEndBucket then btnEndBucketFlag
  else if n.length = 0 then
    if n.prefixLen = 0 then btnZeroPrefixZeroLengthFlag else btnZeroLengthFlag
  else if n.length = 1 then btnOneLengthFlag
  else btnNormalFlag

/-- Some bit of `number` from `lo` up to, not including, `hi` is set. -/
def bitsSet (number lo hi : ℕ) : Bool := number % 2 ^ hi / 2 ^ lo ≠ 0

/-- Bytes for the record number bits that are left after the first five. -/
def recordNumberSize (number : ℕ) : ℕ :=
  if bitsSet number 28 40 then 5
  else if bitsSet number 21 40 then 4
  else if bitsSet number 14 40 then 3
  else if bitsSet number 7 40 then 2
  else 1

def pageNumberSize (number : ℕ) : ℕ :=
  if bitsSet number 28 32 then 5
  else if bitsSet number 21 32 then 4
  else if bitsSet number 14 32 then 3
  else if bitsSet number 7 32 then 2
  else 1

/-- Bytes for a prefix or a data length. -/
def lengthSize (number : ℕ) : ℕ :=
  if bitsSet number 14 32 then 3
  else if bitsSet number 7 32 then 2
  else 1

def getNodeSize (n : IndexNode) (leafNode : Bool) : ℕ :=
  if n.isEndLevel then 1
  else
    1 + recordNumberSize (n.recordNumber / 2 ^ 5)
      + (if leafNode then 0 else pageNumberSize n.pageNumber)
      + (if n.internalFlags ≠ btnZeroPrefixZeroLengthFlag then lengthSize n.prefixLen else 0)
      + (if n.internalFlags ≠ btnZeroPrefixZeroLengthFlag ∧ n.internalFlags ≠ btnZeroLengthFlag ∧
            n.internalFlags ≠ btnOneLengthFlag then lengthSize n.length else 0)
      + n.length

/-- The record number bits after the first five. The last of the five groups is written only
when nothing is left over. -/
def writeRecordNumber : ℕ → ℕ → List UInt8
  | 0, _ => []
  | k + 1, number =>
      if number / 128 = 0 then [UInt8.ofNat (number % 128)]
      else if k = 0 then []
      else UInt8.ofNat (number % 128 + 128) :: writeRecordNumber k (number / 128)

def writePageNumber (number : ℕ) : List UInt8 := writeGroups 16 4 number

/-- A prefix or data length, at most 14 bits. -/
def writeLength (number : ℕ) : List UInt8 := writeGroups 128 1 number

/-- The bytes of a node. -/
def writeNode (n : IndexNode) (leafNode : Bool) : List UInt8 :=
  let first := UInt8.ofNat (n.internalFlags * 32 + n.recordNumber % 32)
  if n.isEndLevel then [first]
  else
    first :: (writeRecordNumber 5 (n.recordNumber / 32)
      ++ (if leafNode then [] else writePageNumber n.pageNumber)
      ++ (if n.internalFlags ≠ btnZeroPrefixZeroLengthFlag then writeLength n.prefixLen else [])
      ++ (if n.internalFlags ≠ btnZeroPrefixZeroLengthFlag ∧ n.internalFlags ≠ btnZeroLengthFlag ∧
            n.internalFlags ≠ btnOneLengthFlag then writeLength n.length else [])
      ++ n.data)

/-- Read the node whose bytes `bs` starts with: the node and the number of bytes it takes.
The page number of a leaf node is not on the page and is read as zero. -/
def readNode (bs : List UInt8) (leafNode : Bool) : IndexNode × ℕ :=
  let tmp := (bs.headD 0).toNat
  let flags := tmp / 32
  if flags = btnEndLevelFlag then (endLevel, 1)
  else
    let number := readGroups 128 4 (bs.drop 1)
    let pos := 1 + number.2
    let page := if leafNode then (0, 0) else readGroups 16 4 (bs.drop pos)
    let pos := pos + page.2
    let prefixLen :=
      if flags = btnZeroPrefixZeroLengthFlag then (0, 0) else readGroups 128 1 (bs.drop pos)
    let pos := pos + prefixLen.2
    let length :=
      if flags = btnZeroLengthFlag ∨ flags = btnZeroPrefixZeroLengthFlag then (0, 0)
      else if flags = btnOneLengthFlag then (1, 0)
      else readGroups 128 1 (bs.drop pos)
    let pos := pos + length.2
    (⟨prefixLen.1, (bs.drop pos).take length.1, tmp % 32 + 32 * number.1, page.1,
      flags = btnEndBucketFlag, false⟩, pos + length.1)

/-- A node whose fields fit the on-disk encoding. -/
structure WellFormed (leafNode : Bool) (n : IndexNode) : Prop where
  endLevel : n.isEndLevel = true → n = IndexNode.endLevel
  recordNumber : n.recordNumber < 2 ^ 40
  pageNumber : n.pageNumber < 2 ^ 32
  leaf : leafNode = true → n.pageNumber = 0
  prefixLen : n.prefixLen < 2 ^ 14
  length : n.length < 2 ^ 14

instance (leafNode : Bool) (n : IndexNode) : Decidable (n.WellFormed leafNode) :=
  decidable_of_iff ((n.isEndLevel = true → n = IndexNode.endLevel) ∧ n.recordNumber < 2 ^ 40 ∧
      n.pageNumber < 2 ^ 32 ∧ (leafNode = true → n.pageNumber = 0) ∧ n.prefixLen < 2 ^ 14 ∧
      n.length < 2 ^ 14)
    ⟨fun ⟨h₁, h₂, h₃, h₄, h₅, h₆⟩ => ⟨h₁, h₂, h₃, h₄, h₅, h₆⟩,
      fun ⟨h₁, h₂, h₃, h₄, h₅, h₆⟩ => ⟨h₁, h₂, h₃, h₄, h₅, h₆⟩⟩

theorem writeRecordNumber_eq (k number : ℕ) (h : number < 128 * 128 ^ k) :
    writeRecordNumber (k + 1) number = writeGroups 128 k number := by
  induction k generalizing number with
  | zero =>
    rw [pow_zero, mul_one] at h
    simp [writeRecordNumber, writeGroups, Nat.div_eq_of_lt h]
  | succ k ih =>
    have hq : number / 128 < 128 * 128 ^ k := by
      rw [Nat.div_lt_iff_lt_mul (by decide)]
      rwa [pow_succ, ← mul_assoc] at h
    rw [writeRecordNumber, writeGroups, ih _ hq]
    by_cases hz : number / 128 = 0
    · simp [hz]
    · simp [hz, Nat.pos_of_ne_zero hz]

theorem recordNumberSize_eq {number : ℕ} (h : number < 2 ^ 35) :
    recordNumberSize number = groupCount 4 number := by
  simp only [recordNumberSize, bitsSet, groupCount, decide_eq_true_eq,
    Nat.mod_eq_of_lt (show number < 2 ^ 40 by omega), Nat.div_div_eq_div_mul]
  norm_num
  split_ifs <;> omega

theorem pageNumberSize_eq {number : ℕ} (h : number < 2 ^ 32) :
    pageNumberSize number = groupCount 4 number := by
  simp only [pageNumberSize, bitsSet, groupCount, decide_eq_true_eq, Nat.mod_eq_of_lt h,
    Nat.div_div_eq_div_mul]
  norm_num
  split_ifs <;> omega

theorem lengthSize_eq {number : ℕ} (h : number < 2 ^ 14) :
    lengthSize number = groupCount 1 number := by
  simp only [lengthSize, bitsSet, groupCount, decide_eq_true_eq,
    Nat.mod_eq_of_lt (show number < 2 ^ 32 by omega)]
  norm_num
  split_ifs <;> omega

theorem internalFlags_lt (n : IndexNode) : n.internalFlags < 8 := by
  unfold internalFlags
  split_ifs <;> decide

theorem getNodeSize_pos (n : IndexNode) (leafNode : Bool) : 0 < n.getNodeSize leafNode := by
  unfold getNodeSize
  split_ifs <;> omega

/-- The size computed for a node is the size it takes on the page. -/
theorem writeNode_length {leafNode : Bool} {n : IndexNode} (h : n.WellFormed leafNode) :
    (n.writeNode leafNode).length = n.getNodeSize leafNode := by
  have hr : n.recordNumber / 32 < 2 ^ 35 := by have := h.recordNumber; omega
  have hw := writeRecordNumber_eq 4 (n.recordNumber / 32) (by omega)
  unfold writeNode getNodeSize
  by_cases hl : n.isEndLevel = true
  · simp [hl]
  · simp only [if_neg hl, hw, writePageNumber, writeLength, List.length_cons, List.length_append,
      writeGroups_length, recordNumberSize_eq hr, pageNumberSize_eq h.pageNumber,
      lengthSize_eq h.prefixLen, lengthSize_eq h.length, apply_ite List.length, List.length_nil,
      Nat.reducePow]
    simp only [length]
    omega

theorem of_zeroPrefixZeroLength {n : IndexNode}
    (h : n.internalFlags = btnZeroPrefixZeroLengthFlag) : n.prefixLen = 0 ∧ n.length = 0 := by
  unfold internalFlags at h
  split_ifs at h <;> first | exact absurd h (by decide) | exact ⟨‹_›, ‹_›⟩

theorem of_zeroLength {n : IndexNode} (h : n.internalFlags = btnZeroLengthFlag) :
    n.length = 0 := by
  unfold internalFlags at h
  split_ifs at h <;> first | exact absurd h (by decide) | assumption

theorem of_oneLength {n : IndexNode} (h : n.internalFlags = btnOneLengthFlag) :
    n.length = 1 := by
  unfold internalFlags at h
  split_ifs at h <;> first | exact absurd h (by decide) | assumption

theorem internalFlags_endBucket {n : IndexNode} (h : ¬ n.isEndLevel = true) :
    decide (n.internalFlags = btnEndBucketFlag) = n.isEndBucket := by
  unfold internalFlags
  rw [if_neg h]
  cases hb : n.isEndBucket
  · simp only [Bool.false_eq_true, if_false, decide_eq_false_iff_not]
    split_ifs <;> decide
  · simp

theorem internalFlags_ne_endLevel {n : IndexNode} (h : ¬ n.isEndLevel = true) :
    n.internalFlags ≠ btnEndLevelFlag := by
  unfold internalFlags
  rw [if_neg h]
  split_ifs <;> decide

theorem lengthSize_le {number : ℕ} (h : number < 2 ^ 14) : lengthSize number ≤ 2 := by
  rw [lengthSize_eq h, groupCount, groupCount]
  split_ifs <;> omega

theorem lengthSize_mono {a b : ℕ} (h : a ≤ b) (hb : b < 2 ^ 14) : lengthSize a ≤ lengthSize b := by
  rw [lengthSize_eq (by omega), lengthSize_eq hb]
  simp only [groupCount]
  split_ifs <;> omega

/-- What a node takes besides its prefix, its data and their lengths. -/
def headSize (n : IndexNode) (leafNode : Bool) : ℕ :=
  1 + recordNumberSize (n.recordNumber / 2 ^ 5) + (if leafNode then 0 else pageNumberSize n.pageNumber)

theorem headSize_bounds (n : IndexNode) (leafNode : Bool) :
    2 ≤ n.headSize leafNode ∧ n.headSize leafNode ≤ 11 := by
  unfold headSize recordNumberSize pageNumberSize
  split_ifs <;> omega

theorem getNodeSize_eq {n : IndexNode} {leafNode : Bool} (hl : n.isEndLevel = false) :
    n.getNodeSize leafNode = n.headSize leafNode
      + (if n.internalFlags ≠ btnZeroPrefixZeroLengthFlag then lengthSize n.prefixLen else 0)
      + (if n.internalFlags ≠ btnZeroPrefixZeroLengthFlag ∧ n.internalFlags ≠ btnZeroLengthFlag ∧
            n.internalFlags ≠ btnOneLengthFlag then lengthSize n.length else 0)
      + n.length := by
  simp only [getNodeSize, hl, Bool.false_eq_true, if_false, headSize]

theorem getNodeSize_bounds {n : IndexNode} (leafNode : Bool) (hl : n.isEndLevel = false) :
    n.headSize leafNode + n.length ≤ n.getNodeSize leafNode ∧
      n.getNodeSize leafNode ≤
        n.headSize leafNode + lengthSize n.prefixLen + lengthSize n.length + n.length := by
  rw [getNodeSize_eq hl]
  split_ifs <;> omega

/-- A node that moves data bytes to its prefix gets smaller by at most two bytes besides. -/
theorem getNodeSize_le_of_moved {n : IndexNode} (leafNode : Bool) (n' : IndexNode) (moved : ℕ)
    (hl : n.isEndLevel = false) (hl' : n'.isEndLevel = false)
    (hb : n'.isEndBucket = n.isEndBucket) (hr : n'.recordNumber = n.recordNumber)
    (hp : n'.pageNumber = n.pageNumber) (hpfx : n'.prefixLen = n.prefixLen + moved)
    (hlength : n.length = n'.length + moved) (hn : n.length < 2 ^ 14) (hn' : n'.prefixLen < 2 ^ 14) :
    n.getNodeSize leafNode ≤ n'.getNodeSize leafNode + moved + 2 := by
  have hmono := lengthSize_mono (Nat.le.intro hpfx.symm) hn'
  have htwo := lengthSize_le hn
  have hhead : n'.headSize leafNode = n.headSize leafNode := by rw [headSize, headSize, hr, hp]
  have hzero : n'.internalFlags = btnZeroPrefixZeroLengthFlag →
      n.internalFlags = btnZeroPrefixZeroLengthFlag := by
    intro h
    obtain ⟨h₁, h₂⟩ := of_zeroPrefixZeroLength h
    have hbucket : n'.isEndBucket = false := by
      rw [← internalFlags_endBucket (by simp [hl']), h]
      rfl
    rw [hb] at hbucket
    simp [internalFlags, hl, hbucket, show n.length = 0 by omega, show n.prefixLen = 0 by omega]
  rw [getNodeSize_eq hl, getNodeSize_eq hl', hhead]
  by_cases hz : n.internalFlags = btnZeroPrefixZeroLengthFlag
  · have := of_zeroPrefixZeroLength hz
    rw [if_neg (not_not.2 hz), if_neg fun h => h.1 hz]
    omega
  · rw [if_pos hz, if_pos (mt hzero hz)]
    split_ifs <;> omega

/-- Reading a written node gives the node back and stops just behind it. -/
theorem readNode_writeNode {leafNode : Bool} {n : IndexNode} (h : n.WellFormed leafNode)
    (rest : List UInt8) :
    readNode (n.writeNode leafNode ++ rest) leafNode = (n, n.getNodeSize leafNode) := by
  by_cases hl : n.isEndLevel = true
  · rw [h.endLevel hl]
    simp [readNode, writeNode, getNodeSize, endLevel, internalFlags, btnEndLevelFlag]
  -- the five fields behind the first byte, each read where the one before it stops
  obtain ⟨A, hA⟩ : ∃ A, A = writeGroups 128 4 (n.recordNumber / 32) := ⟨_, rfl⟩
  obtain ⟨B, hB⟩ : ∃ B, B = if leafNode then [] else writePageNumber n.pageNumber := ⟨_, rfl⟩
  obtain ⟨C, hC⟩ : ∃ C, C = if n.internalFlags ≠ btnZeroPrefixZeroLengthFlag
      then writeLength n.prefixLen else [] := ⟨_, rfl⟩
  obtain ⟨D, hD⟩ : ∃ D, D = if n.internalFlags ≠ btnZeroPrefixZeroLengthFlag ∧
      n.internalFlags ≠ btnZeroLengthFlag ∧ n.internalFlags ≠ btnOneLengthFlag
      then writeLength n.length else [] := ⟨_, rfl⟩
  obtain ⟨first, hfirst⟩ : ∃ b, b = UInt8.ofNat (n.internalFlags * 32 + n.recordNumber % 32) :=
    ⟨_, rfl⟩
  have hw := writeRecordNumber_eq 4 (n.recordNumber / 32) (by have := h.recordNumber; omega)
  have hbytes : n.writeNode leafNode = first :: (A ++ B ++ C ++ D ++ n.data) := by
    simp only [writeNode, if_neg hl, hw, hA, hB, hC, hD, hfirst]
  have htoNat : first.toNat = n.internalFlags * 32 + n.recordNumber % 32 := by
    have := n.internalFlags_lt
    rw [hfirst, UInt8.toNat_ofNat']
    exact Nat.mod_eq_of_lt (by omega)
  have hflags : first.toNat / 32 = n.internalFlags := by omega
  have hlow : first.toNat % 32 = n.recordNumber % 32 := by omega
  have e₁ : (first :: (A ++ (B ++ (C ++ (D ++ (n.data ++ rest)))))).drop 1 =
      A ++ (B ++ (C ++ (D ++ (n.data ++ rest)))) := rfl
  have r₁ : readGroups 128 4 (A ++ (B ++ (C ++ (D ++ (n.data ++ rest))))) =
      (n.recordNumber / 32, A.length) := by
    rw [hA, readGroups_writeGroups le_rfl _ _ _ (by have := h.recordNumber; omega),
      writeGroups_length]
  have e₂ : (first :: (A ++ (B ++ (C ++ (D ++ (n.data ++ rest)))))).drop (1 + A.length) =
      B ++ (C ++ (D ++ (n.data ++ rest))) := by rw [← List.drop_drop, e₁, List.drop_left]
  have r₂ : (if leafNode then (0, 0) else readGroups 16 4 (B ++ (C ++ (D ++ (n.data ++ rest))))) =
      (n.pageNumber, B.length) := by
    cases hleaf : leafNode
    · rw [hB, hleaf, if_neg Bool.false_ne_true, if_neg Bool.false_ne_true, writePageNumber,
        readGroups_writeGroups (by decide) _ _ _ h.pageNumber, writeGroups_length]
    · simp [hB, hleaf, h.leaf hleaf]
  have e₃ : (first :: (A ++ (B ++ (C ++ (D ++ (n.data ++ rest)))))).drop
      (1 + A.length + B.length) = C ++ (D ++ (n.data ++ rest)) := by
    rw [← List.drop_drop, e₂, List.drop_left]
  have r₃ : (if n.internalFlags = btnZeroPrefixZeroLengthFlag then (0, 0)
      else readGroups 128 1 (C ++ (D ++ (n.data ++ rest)))) = (n.prefixLen, C.length) := by
    by_cases hz : n.internalFlags = btnZeroPrefixZeroLengthFlag
    · simp [hC, hz, (of_zeroPrefixZeroLength hz).1]
    · rw [if_neg hz, hC, if_pos hz, writeLength,
        readGroups_writeGroups le_rfl _ _ _ h.prefixLen, writeGroups_length]
  have e₄ : (first :: (A ++ (B ++ (C ++ (D ++ (n.data ++ rest)))))).drop
      (1 + A.length + B.length + C.length) = D ++ (n.data ++ rest) := by
    rw [← List.drop_drop, e₃, List.drop_left]
  have r₄ : (if n.internalFlags = btnZeroLengthFlag ∨
        n.internalFlags = btnZeroPrefixZeroLengthFlag then (0, 0)
      else if n.internalFlags = btnOneLengthFlag then (1, 0)
      else readGroups 128 1 (D ++ (n.data ++ rest))) = (n.length, D.length) := by
    by_cases hz : n.internalFlags = btnZeroLengthFlag ∨
        n.internalFlags = btnZeroPrefixZeroLengthFlag
    · have hzero : n.length = 0 := hz.elim of_zeroLength fun hz => (of_zeroPrefixZeroLength hz).2
      have hnot : ¬ (n.internalFlags ≠ btnZeroPrefixZeroLengthFlag ∧
        n.internalFlags ≠ btnZeroLengthFlag ∧ n.internalFlags ≠ btnOneLengthFlag) := by tauto
      rw [if_pos hz, hD, if_neg hnot, hzero, List.length_nil]
    · rw [if_neg hz]
      by_cases ho : n.internalFlags = btnOneLengthFlag
      · rw [if_pos ho, hD, if_neg (by tauto), of_oneLength ho, List.length_nil]
      · rw [if_neg ho, hD, if_pos (by tauto), writeLength,
          readGroups_writeGroups le_rfl _ _ _ h.length, writeGroups_length]
  have e₅ : (first :: (A ++ (B ++ (C ++ (D ++ (n.data ++ rest)))))).drop
      (1 + A.length + B.length + C.length + D.length) = n.data ++ rest := by
    rw [← List.drop_drop, e₄, List.drop_left]
  have htake : (n.data ++ rest).take n.length = n.data := List.take_left
  have hsize : n.getNodeSize leafNode =
      1 + A.length + B.length + C.length + D.length + n.length := by
    rw [← writeNode_length h, hbytes]
    simp only [List.length_cons, List.length_append, length]
    omega
  have hnum : n.recordNumber % 32 + 32 * (n.recordNumber / 32) = n.recordNumber :=
    Nat.mod_add_div _ _
  rw [hbytes, hsize]
  simp only [List.cons_append, List.append_assoc, readNode, List.headD_cons, hflags, hlow,
    if_neg (internalFlags_ne_endLevel hl), e₁, r₁, e₂, r₂, e₃, r₃, e₄, r₄, e₅, htake, hnum,
    internalFlags_endBucket hl]
  rw [show false = n.isEndLevel by simpa using hl]

end IndexNode

structure IndexJumpNode where
  prefixLen : ℕ
  offset : ℕ
  data : List UInt8
  deriving DecidableEq, Repr

namespace IndexJumpNode
open IndexNode

def length (j : IndexJumpNode) : ℕ := j.data.length

/-- Prefix of the node a jump node refers to. -/
def total (j : IndexJumpNode) : ℕ := j.prefixLen + j.length

/-- Bytes for a prefix or a data length of a jump node. -/
def numberSize (number : ℕ) : ℕ :=
  if bitsSet number 14 16 then 3
  else if bitsSet number 7 16 then 2
  else 1

def getJumpNodeSize (j : IndexJumpNode) : ℕ :=
  numberSize j.prefixLen + numberSize j.length + 2 + j.length

def writeJumpNode (j : IndexJumpNode) : List UInt8 :=
  writeLength j.prefixLen ++ writeLength j.length
    ++ [UInt8.ofNat (j.offset % 256), UInt8.ofNat (j.offset / 256 % 256)] ++ j.data

/-- Read the jump node `bs` starts with: the jump node and the number of bytes it takes. -/
def readJumpNode (bs : List UInt8) : IndexJumpNode × ℕ :=
  let prefixLen := readGroups 128 1 bs
  let length := readGroups 128 1 (bs.drop prefixLen.2)
  let pos := prefixLen.2 + length.2
  let offset := ((bs.drop pos).headD 0).toNat + 256 * ((bs.drop (pos + 1)).headD 0).toNat
  let pos := pos + 2
  (⟨prefixLen.1, offset, (bs.drop pos).take length.1⟩, pos + length.1)

/-- A jump node whose fields fit the on-disk encoding. -/
structure WellFormed (j : IndexJumpNode) : Prop where
  prefixLen : j.prefixLen < 2 ^ 14
  length : j.length < 2 ^ 14
  offset : j.offset < 2 ^ 16

instance (j : IndexJumpNode) : Decidable j.WellFormed :=
  decidable_of_iff (j.prefixLen < 2 ^ 14 ∧ j.length < 2 ^ 14 ∧ j.offset < 2 ^ 16)
    ⟨fun ⟨h₁, h₂, h₃⟩ => ⟨h₁, h₂, h₃⟩, fun ⟨h₁, h₂, h₃⟩ => ⟨h₁, h₂, h₃⟩⟩

theorem numberSize_eq {number : ℕ} (h : number < 2 ^ 14) :
    numberSize number = groupCount 1 number := by
  simp only [numberSize, bitsSet, groupCount, decide_eq_true_eq,
    Nat.mod_eq_of_lt (show number < 2 ^ 16 by omega)]
  norm_num
  split_ifs <;> omega

theorem getJumpNodeSize_pos (j : IndexJumpNode) : 0 < j.getJumpNodeSize := by
  unfold getJumpNodeSize
  omega

theorem writeJumpNode_length {j : IndexJumpNode} (h : j.WellFormed) :
    j.writeJumpNode.length = j.getJumpNodeSize := by
  simp only [writeJumpNode, getJumpNodeSize, numberSize_eq h.prefixLen, numberSize_eq h.length,
    writeLength, List.length_append, writeGroups_length, List.length_cons, List.length_nil]
  rfl

theorem readJumpNode_writeJumpNode {j : IndexJumpNode} (h : j.WellFormed) (rest : List UInt8) :
    readJumpNode (j.writeJumpNode ++ rest) = (j, j.getJumpNodeSize) := by
  obtain ⟨A, hA⟩ : ∃ A, A = writeLength j.prefixLen := ⟨_, rfl⟩
  obtain ⟨B, hB⟩ : ∃ B, B = writeLength j.length := ⟨_, rfl⟩
  obtain ⟨lo, hlo⟩ : ∃ b, b = UInt8.ofNat (j.offset % 256) := ⟨_, rfl⟩
  obtain ⟨hi, hhi⟩ : ∃ b, b = UInt8.ofNat (j.offset / 256 % 256) := ⟨_, rfl⟩
  have hoff : lo.toNat + 256 * hi.toNat = j.offset := by
    have := h.offset
    rw [hlo, hhi, UInt8.toNat_ofNat', UInt8.toNat_ofNat']
    omega
  have hbytes : j.writeJumpNode ++ rest = A ++ (B ++ (lo :: hi :: (j.data ++ rest))) := by
    simp [writeJumpNode, hA, hB, hlo, hhi]
  have r₁ : readGroups 128 1 (A ++ (B ++ (lo :: hi :: (j.data ++ rest)))) =
      (j.prefixLen, A.length) := by
    rw [hA, writeLength, readGroups_writeGroups le_rfl _ _ _ h.prefixLen, writeGroups_length]
  have r₂ : readGroups 128 1 (B ++ (lo :: hi :: (j.data ++ rest))) = (j.length, B.length) := by
    rw [hB, writeLength, readGroups_writeGroups le_rfl _ _ _ h.length, writeGroups_length]
  have e₂ : (A ++ (B ++ (lo :: hi :: (j.data ++ rest)))).drop (A.length + B.length) =
      lo :: hi :: (j.data ++ rest) := by rw [← List.drop_drop, List.drop_left, List.drop_left]
  have e₃ : (A ++ (B ++ (lo :: hi :: (j.data ++ rest)))).drop (A.length + B.length + 1) =
      hi :: (j.data ++ rest) := by rw [← List.drop_drop, e₂]; rfl
  have e₄ : (A ++ (B ++ (lo :: hi :: (j.data ++ rest)))).drop (A.length + B.length + 2) =
      j.data ++ rest := by rw [← List.drop_drop, e₂]; rfl
  have htake : (j.data ++ rest).take j.length = j.data := List.take_left
  have hsize : j.getJumpNodeSize = A.length + B.length + 2 + j.length := by
    rw [← writeJumpNode_length h]
    simp only [writeJumpNode, hA, hB, List.length_append, List.length_cons, List.length_nil,
      length]
  rw [hbytes, hsize]
  simp only [readJumpNode, r₁, List.drop_left, r₂, e₂, e₃, e₄, htake, List.headD_cons, hoff]

end IndexJumpNode

end FirebirdCore.Btr
