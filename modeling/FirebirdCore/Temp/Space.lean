import FirebirdCore.Lib.Extent

/-!
# The temporary space

A chain of blocks in memory and in files. A space that starts dynamic has one small block first,
which lives in `initialBuffer` and is copied to a large one when it has grown too much. What the
environment gives for a new block is `Backing`.
-/
namespace FirebirdCore.Temp
open FirebirdCore.Buffer

/-- `MIN_TEMP_BLOCK_SIZE`. -/
def minTempBlockSize : ℕ := 65536

/-- `FB_ALIGN`. -/
def fbAlign (n b : ℕ) : ℕ := (n + (b - 1)) - ((n + (b - 1)) &&& (b - 1))

/-- `minBlockSize`, from the setting `TempBlockSize`. -/
def initMinBlockSize (tempBlockSize : ℕ) : ℕ :=
  if tempBlockSize < minTempBlockSize then minTempBlockSize
  else fbAlign tempBlockSize minTempBlockSize

/-- Where a block keeps its bytes: in the initial buffer, in memory of its own, or in a file from
`seek` on. -/
inductive Store where
  | initial
  | memory (bytes : List UInt8)
  | file (file seek : ℕ)
  deriving DecidableEq, Repr

structure Block where
  store : Store
  size : ℕ
  deriving DecidableEq, Repr

/-- A free segment of the space. -/
structure Segment where
  position : ℕ
  size : ℕ
  deriving DecidableEq, Repr

/-- What the blocks refer to. -/
structure Media where
  files : ℕ → List UInt8
  initialBuffer : List UInt8

/-- The file has other contents now. -/
def Media.setFile (m : Media) (file : ℕ) (bytes : List UInt8) : Media :=
  { m with files := Function.update m.files file bytes }

@[simp] theorem Media.setFile_self (m : Media) (file : ℕ) (bytes : List UInt8) :
    (m.setFile file bytes).files file = bytes :=
  Function.update_self ..

theorem Media.setFile_of_ne (m : Media) {file other : ℕ} (h : other ≠ file) (bytes : List UInt8) :
    (m.setFile file bytes).files other = m.files other :=
  Function.update_of_ne h ..

@[simp] theorem Media.setFile_initialBuffer (m : Media) (file : ℕ) (bytes : List UInt8) :
    (m.setFile file bytes).initialBuffer = m.initialBuffer := rfl

structure TempSpace where
  blocks : List Block
  media : Media
  logicalSize : ℕ
  physicalSize : ℕ
  initiallyDynamic : Bool
  freeSegments : List Segment

/-- What there is for a new block: memory with some bytes in it, a temporary file, or no room. -/
inductive Backing where
  | memory (junk : List UInt8)
  | file (file : ℕ)
  | noRoom
  deriving DecidableEq, Repr

/-- A new space. -/
def TempSpace.empty (dynamic : Bool) : TempSpace where
  blocks := []
  media := ⟨fun _ => [], []⟩
  logicalSize := 0
  physicalSize := 0
  initiallyDynamic := dynamic
  freeSegments := []

/-! ## Blocks -/

namespace Block

/-- Read at most `length` bytes of the block. -/
def read (m : Media) (b : Block) (offset length : ℕ) : List UInt8 :=
  let length := if offset + length > b.size then b.size - offset else length
  match b.store with
  | .initial => slice m.initialBuffer ⟨offset, length⟩
  | .memory bytes => slice bytes ⟨offset, length⟩
  | .file file seek => slice (m.files file) ⟨offset + seek, length⟩

/-- Write as much of `data` as the block takes. -/
def write (m : Media) (b : Block) (offset : ℕ) (data : List UInt8) : Media × Block :=
  let length := if offset + data.length > b.size then b.size - offset else data.length
  match b.store with
  | .initial => ({ m with initialBuffer := blit m.initialBuffer offset (data.take length) }, b)
  | .memory bytes => (m, { b with store := .memory (blit bytes offset (data.take length)) })
  | .file file seek =>
      (m.setFile file (blit (m.files file) (offset + seek) (data.take length)), b)

/-- How much of `data` `write` writes. -/
def written (b : Block) (offset : ℕ) (data : List UInt8) : ℕ :=
  if offset + data.length > b.size then b.size - offset else data.length

end Block

/-- Read from the chain, starting at `offset` in its first block. -/
def readLoop (m : Media) : List Block → ℕ → ℕ → List UInt8
  | [], _, _ => []
  | b :: bs, offset, l =>
      if l = 0 then []
      else
        let data := b.read m offset l
        data ++ readLoop m bs 0 (l - data.length)

/-- Write to as many blocks as necessary. -/
def writeLoop : Media → List Block → ℕ → List UInt8 → Media × List Block
  | m, [], _, _ => (m, [])
  | m, b :: bs, offset, data =>
      if data = [] then (m, b :: bs)
      else
        let r := b.write m offset data
        let rest := writeLoop r.1 bs 0 (data.drop (b.written offset data))
        (rest.1, r.2 :: rest.2)

/-! ## Finding a block -/

/-- Walk forward: the number of the block and the offset in it. -/
def walkForward : List Block → ℕ → ℕ → Option (ℕ × ℕ)
  | [], _, _ => none
  | b :: bs, i, offset =>
      if offset ≥ b.size then walkForward bs (i + 1) (offset - b.size) else some (i, offset)

/-- Walk backward over the blocks, last one first. -/
def walkBackward (physicalSize : ℕ) : List Block → ℕ → Option (ℕ × ℕ)
  | [], _ => none
  | b :: bs, offset =>
      -- The difference is unsigned, so behind the physical size it is larger than any block.
      if offset > physicalSize ∨ physicalSize - offset > b.size then
        walkBackward physicalSize bs (offset + b.size)
      else some (bs.length, offset - (physicalSize - b.size))

namespace TempSpace

/-- The number of the block with this offset, and the offset in it. -/
def findBlock (s : TempSpace) (offset : ℕ) : Option (ℕ × ℕ) :=
  if offset < s.physicalSize / 2 then walkForward s.blocks 0 offset
  else walkBackward s.physicalSize s.blocks.reverse offset

/-! ## Extending -/

/-- Put the new block at the end of the chain and copy the initial contents to it, if any. -/
def appendBlock (s : TempSpace) (b : Block) : TempSpace :=
  let r := if s.media.initialBuffer = [] then (s.media, b) else b.write s.media 0 s.media.initialBuffer
  { s with
    blocks := s.blocks ++ [r.2]
    media := { r.1 with initialBuffer := [] } }

/-- Allocate a block of `size` bytes. -/
def newBlock (s : TempSpace) (size : ℕ) : Backing → TempSpace × Bool
  | .memory junk => (s.appendBlock ⟨.memory (junk.takeD size 0), size⟩, true)
  | .file file =>
      let seek := (s.media.files file).length
      let bytes := s.media.files file ++ List.replicate size 0
      let s := { s with media := s.media.setFile file bytes }
      match s.blocks.getLast? with
      | some ⟨.file tail tailSeek, tailSize⟩ =>
          if tail = file then
            ({ s with blocks := s.blocks.dropLast ++ [⟨.file tail tailSeek, tailSize + size⟩] }, true)
          else (s.appendBlock ⟨.file file seek, size⟩, true)
      | _ => (s.appendBlock ⟨.file file seek, size⟩, true)
  | .noRoom => (s, false)

/-- Increase the size. The flag is false when an exception leaves the function. -/
def extend (minBlockSize : ℕ) (s : TempSpace) (size : ℕ) (backing : Backing) : TempSpace × Bool :=
  let s := { s with logicalSize := s.logicalSize + size }
  if s.logicalSize > s.physicalSize then
    let initialSize := s.media.initialBuffer.length
    if s.initiallyDynamic ∧ s.logicalSize < minTempBlockSize then
      -- Allocate or extend the initial dynamic block.
      let size := if initialSize = 0 then size else size + initialSize
      ({ s with
        blocks := [⟨.initial, size⟩]
        media := { s.media with initialBuffer := s.media.initialBuffer.takeD size 0 }
        physicalSize := size }, true)
    else if initialSize ≠ 0 then
      -- The size is cut to 32 bits, here and below.
      let size := fbAlign s.logicalSize minBlockSize % 2 ^ 32
      ({ s with
        blocks := []
        physicalSize := size } : TempSpace).newBlock size backing
    else
      let size := fbAlign (s.logicalSize - s.physicalSize) minBlockSize % 2 ^ 32
      ({ s with physicalSize := s.physicalSize + size } : TempSpace).newBlock size backing
  else (s, true)

/-! ## Reading and writing -/

def read (s : TempSpace) (offset length : ℕ) : List UInt8 :=
  if length = 0 then []
  else
    match s.findBlock offset with
    | some (i, offset) => readLoop s.media (s.blocks.drop i) offset length
    | none => []

/-- Write bytes that the space has room for. -/
def writeInside (s : TempSpace) (offset : ℕ) (data : List UInt8) : TempSpace :=
  if data = [] then s
  else
    match s.findBlock offset with
    | some (i, offset) =>
        let r := writeLoop s.media (s.blocks.drop i) offset data
        { s with
          media := r.1
          blocks := s.blocks.take i ++ r.2 }
    | none => s

def write (minBlockSize : ℕ) (s : TempSpace) (offset : ℕ) (data : List UInt8) (backing : Backing) :
    TempSpace × Bool :=
  if offset + data.length > s.logicalSize then
    let r := s.extend minBlockSize (offset + data.length - s.logicalSize) backing
    if r.2 then (r.1.writeInside offset data, true) else r
  else (s.writeInside offset data, true)

end TempSpace

end FirebirdCore.Temp
