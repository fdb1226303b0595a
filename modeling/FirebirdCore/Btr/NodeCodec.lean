import FirebirdCore.Btr.Node
import FirebirdCore.Lib.Buffer

/-!
# Nodes written in place and read back

`writeInPlace` is `writeNode` without data: the data lie on the page already and are moved to where
the node needs them before its head is written. `readNodeInto` reads into a node that exists.
-/
namespace FirebirdCore.Btr
open FirebirdCore.Buffer

namespace IndexNode

/-- What `writeNode` writes before the data. -/
def writeHead (n : IndexNode) (leafNode : Bool) : List UInt8 :=
  let first := UInt8.ofNat (n.internalFlags * 32 + n.recordNumber % 32)
  if n.isEndLevel then [first]
  else
    first :: (writeRecordNumber 5 (n.recordNumber / 32)
      ++ (if leafNode then [] else writePageNumber n.pageNumber)
      ++ (if n.internalFlags ≠ btnZeroPrefixZeroLengthFlag then writeLength n.prefixLen else [])
      ++ (if n.internalFlags ≠ btnZeroPrefixZeroLengthFlag ∧ n.internalFlags ≠ btnZeroLengthFlag ∧
            n.internalFlags ≠ btnOneLengthFlag then writeLength n.length else []))

/-- `writeNode(pointer, leafNode, false)`, the data being those at `dataPointer`. -/
def writeInPlace (page : List UInt8) (pointer dataPointer : ℕ) (n : IndexNode) (leafNode : Bool) :
    List UInt8 :=
  -- First move data so we can't override it.
  let offset := (n.getNodeSize leafNode + 2 ^ 16 - n.length) % 2 ^ 16
  let moved := blit page (pointer + offset) ((page.drop dataPointer).take n.length)
  blit moved pointer (n.writeHead leafNode)

/-- `node.readNode`: on a leaf page the page number of `node` stays. -/
def readNodeInto (node : IndexNode) (bs : List UInt8) (leafNode : Bool) : IndexNode × ℕ :=
  let r := readNode bs leafNode
  if leafNode && !r.1.isEndLevel then ({ r.1 with pageNumber := node.pageNumber }, r.2) else r

/-- The fields fit the encoding; the flags are any. -/
structure Encodable (n : IndexNode) : Prop where
  recordNumber : n.recordNumber < 2 ^ 40
  pageNumber : n.pageNumber < 2 ^ 32
  prefixLen : n.prefixLen < 2 ^ 14
  length : n.length < 2 ^ 14

instance (n : IndexNode) : Decidable n.Encodable :=
  decidable_of_iff (n.recordNumber < 2 ^ 40 ∧ n.pageNumber < 2 ^ 32 ∧ n.prefixLen < 2 ^ 14 ∧
      n.length < 2 ^ 14)
    ⟨fun ⟨h₁, h₂, h₃, h₄⟩ => ⟨h₁, h₂, h₃, h₄⟩, fun ⟨h₁, h₂, h₃, h₄⟩ => ⟨h₁, h₂, h₃, h₄⟩⟩

/-- What a node read into `node` holds of the node `n` that was written: an end-of-level marker
holds nothing, and a leaf page no page number. -/
def stored (n node : IndexNode) (leafNode : Bool) : IndexNode :=
  if n.isEndLevel then endLevel
  else { n with pageNumber := if leafNode then node.pageNumber else n.pageNumber }

theorem writeNode_eq {n : IndexNode} {leafNode : Bool} (hl : n.isEndLevel = false) :
    n.writeNode leafNode = n.writeHead leafNode ++ n.data := by
  simp only [writeNode, writeHead, hl, Bool.false_eq_true, if_false, List.cons_append,
    List.append_assoc]

theorem writeNode_endLevel {n : IndexNode} {leafNode : Bool} (hl : n.isEndLevel = true) :
    n.writeNode leafNode = [UInt8.ofNat (32 + n.recordNumber % 32)] ∧
      n.writeHead leafNode = [UInt8.ofNat (32 + n.recordNumber % 32)] ∧
      n.getNodeSize leafNode = 1 := by
  simp [writeNode, writeHead, getNodeSize, internalFlags, btnEndLevelFlag, hl]

/-- The page number of a leaf node is not written. -/
theorem writeNode_leaf (n : IndexNode) (page : ℕ) :
    ({ n with pageNumber := page } : IndexNode).writeNode true = n.writeNode true ∧
      ({ n with pageNumber := page } : IndexNode).getNodeSize true = n.getNodeSize true := by
  constructor <;> rfl

/-- A node that is no marker, with no page number on a leaf page, is well formed. -/
theorem Encodable.wellFormed {n : IndexNode} (h : n.Encodable) (hl : n.isEndLevel = false)
    (leafNode : Bool) :
    ({ n with pageNumber := if leafNode then 0 else n.pageNumber } : IndexNode).WellFormed
      leafNode where
  endLevel := by simp [hl]
  recordNumber := h.recordNumber
  pageNumber := by
    have := h.pageNumber
    dsimp only
    split_ifs <;> omega
  leaf := by
    rintro rfl
    rfl
  prefixLen := h.prefixLen
  length := h.length

theorem Encodable.writeNode_length {n : IndexNode} (h : n.Encodable) (leafNode : Bool) :
    (n.writeNode leafNode).length = n.getNodeSize leafNode := by
  cases hl : n.isEndLevel with
  | true =>
    obtain ⟨hwrite, -, hsize⟩ := writeNode_endLevel hl
    rw [hwrite, hsize]
    rfl
  | false =>
    have hlen := IndexNode.writeNode_length (h.wellFormed hl leafNode)
    cases leafNode with
    | true => exact hlen
    | false => exact hlen

theorem Encodable.readNodeInto_writeNode {n : IndexNode} (h : n.Encodable) (node : IndexNode)
    (leafNode : Bool) (rest : List UInt8) :
    readNodeInto node (n.writeNode leafNode ++ rest) leafNode =
      (n.stored node leafNode, n.getNodeSize leafNode) := by
  cases hl : n.isEndLevel with
  | true =>
    obtain ⟨hwrite, -, hsize⟩ := writeNode_endLevel hl
    have hflag : (UInt8.ofNat (32 + n.recordNumber % 32)).toNat / 32 = btnEndLevelFlag := by
      rw [UInt8.toNat_ofNat', Nat.mod_eq_of_lt (by omega), btnEndLevelFlag]
      omega
    have hread : readNode (n.writeNode leafNode ++ rest) leafNode = (endLevel, 1) := by
      rw [hwrite, readNode]
      dsimp only
      rw [List.cons_append, List.headD_cons, if_pos hflag]
    rw [readNodeInto, hread, stored, if_pos hl, hsize]
    simp [endLevel]
  | false =>
    have hread := readNode_writeNode (h.wellFormed hl leafNode) rest
    rw [stored, if_neg (by simp [hl])]
    cases leafNode with
    | true =>
      obtain ⟨hwrite, hsize⟩ := writeNode_leaf n 0
      simp only [if_true] at hread
      rw [hwrite, hsize] at hread
      rw [readNodeInto, hread]
      simp [hl]
    | false =>
      simp only [Bool.false_eq_true, if_false] at hread
      rw [readNodeInto, hread]
      rfl

/-- The data are moved behind the head, whatever they overlap with. -/
theorem Encodable.writeInPlace_eq {n : IndexNode} (h : n.Encodable) {leafNode : Bool}
    {page : List UInt8} {pointer dataPointer : ℕ} (hend : n.isEndLevel = true → n.length = 0)
    (hdata : (page.drop dataPointer).take n.length = n.data) :
    writeInPlace page pointer dataPointer n leafNode = blit page pointer (n.writeNode leafNode) := by
  have hlen := h.writeNode_length leafNode
  have hn := h.length
  cases hl : n.isEndLevel with
  | true =>
    obtain ⟨hwrite, hhead, hsize⟩ := writeNode_endLevel hl
    have hz := hend hl
    have hnil : n.data = [] := List.length_eq_zero_iff.1 hz
    rw [writeInPlace, hdata, hsize, hz, hwrite, hhead, hnil]
    exact blit_blit page [UInt8.ofNat (32 + n.recordNumber % 32)] [] pointer
  | false =>
    rw [writeNode_eq hl, List.length_append] at hlen
    have hoffset : (n.getNodeSize leafNode + 2 ^ 16 - n.length) % 2 ^ 16 =
        (n.writeHead leafNode).length := by
      have hbound := (getNodeSize_bounds leafNode hl).2
      have hhead := (n.headSize_bounds leafNode).2
      have hp := lengthSize_le h.prefixLen
      have hd := lengthSize_le hn
      have hdlen : n.data.length = n.length := rfl
      omega
    rw [writeInPlace, hoffset, hdata, blit_blit, writeNode_eq hl]

end IndexNode

open IndexNode

/-- Sizes, writers and readers of nodes and jump nodes agree. -/
theorem readNode_writeNode_all {n : IndexNode} {j : IndexJumpNode} (hn : n.Encodable)
    (hj : j.WellFormed) (node : IndexNode) (leafNode : Bool) (rest : List UInt8) :
    (n.writeNode leafNode).length = n.getNodeSize leafNode ∧
      readNodeInto node (n.writeNode leafNode ++ rest) leafNode =
        (n.stored node leafNode, n.getNodeSize leafNode) ∧
      (∀ page pointer dataPointer, (n.isEndLevel = true → n.length = 0) →
        (page.drop dataPointer).take n.length = n.data →
        writeInPlace page pointer dataPointer n leafNode =
          blit page pointer (n.writeNode leafNode)) ∧
      j.writeJumpNode.length = j.getJumpNodeSize ∧
      IndexJumpNode.readJumpNode (j.writeJumpNode ++ rest) = (j, j.getJumpNodeSize) :=
  ⟨hn.writeNode_length leafNode, hn.readNodeInto_writeNode node leafNode rest,
    fun _ _ _ hend hdata => hn.writeInPlace_eq hend hdata, IndexJumpNode.writeJumpNode_length hj,
    IndexJumpNode.readJumpNode_writeJumpNode hj rest⟩

/-- An end-of-level marker loses its record number. -/
theorem readNode_ne_endLevel :
    ¬ ∀ (n node : IndexNode) (leafNode : Bool) (rest : List UInt8), n.Encodable →
      readNodeInto node (n.writeNode leafNode ++ rest) leafNode = (n, n.getNodeSize leafNode) := by
  intro h
  have hread := h ⟨0, [], 1, 0, false, true⟩ endLevel false [] (by decide)
  revert hread
  decide

theorem readNode_writeNode_all_witness :
    readNodeInto endLevel ((⟨3, [65, 66], 2 ^ 33, 77, true, false⟩ : IndexNode).writeNode false ++
        [1, 2]) false = (⟨3, [65, 66], 2 ^ 33, 77, true, false⟩, 11) ∧
      writeInPlace [0, 0, 65, 66] 1 2 ⟨3, [65, 66], 2 ^ 33, 77, true, false⟩ false =
        [0, 64, 128, 128, 128, 128, 1, 77, 3, 2, 65, 66] := by
  obtain ⟨-, hread, hwrite, -⟩ := @readNode_writeNode_all ⟨3, [65, 66], 2 ^ 33, 77, true, false⟩
    ⟨1, 50, [67]⟩ (by decide) (by decide) endLevel false [1, 2]
  exact ⟨hread, hwrite [0, 0, 65, 66] 1 2 (by decide) (by decide)⟩

end FirebirdCore.Btr
