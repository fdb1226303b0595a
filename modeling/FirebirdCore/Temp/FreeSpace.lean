import FirebirdCore.Temp.Contents
import FirebirdCore.Lib.Tiling

/-!
# Free segments of the temporary space

The free segments are kept in the order of their positions. A `Cursor` is the accessor of their tree:
the current segment, with those before and behind it.
-/
namespace FirebirdCore.Temp
open FirebirdCore.Buffer

/-- `FB_ALIGNMENT`. -/
def fbAlignment : ℕ := 8

/-- A chunk of memory, at an offset in a block. -/
structure SegmentInMemory where
  memory : ℕ × ℕ
  position : ℕ
  size : ℕ
  deriving DecidableEq, Repr

def Segment.extent (s : Segment) : Extent := ⟨s.position, s.size⟩

def SegmentInMemory.extent (s : SegmentInMemory) : Extent := ⟨s.position, s.size⟩

/-! ## The tree of free segments -/

structure Cursor where
  before : List Segment
  current : Segment
  after : List Segment

namespace FreeSegments

/-- The segments with smaller keys. -/
def below (free : List Segment) (key : ℕ) : List Segment := free.takeWhile (·.position < key)

/-- The segments from the first with a key that is not smaller. -/
def fromKey (free : List Segment) (key : ℕ) : List Segment := free.dropWhile (·.position < key)

/-- `locate(locEqual, key)`. -/
def locateEqual (free : List Segment) (key : ℕ) : Option Cursor :=
  match fromKey free key with
  | [] => none
  | current :: after => if current.position = key then some ⟨below free key, current, after⟩ else none

/-- `locate(locLess, key)`. -/
def locateLess (free : List Segment) (key : ℕ) : Option Cursor :=
  (below free key).getLast?.map fun current =>
    ⟨(below free key).dropLast, current, fromKey free key⟩

/-- Nothing is added if the key is there. -/
def add (free : List Segment) (s : Segment) : List Segment :=
  if (locateEqual free s.position).isSome then free
  else below free s.position ++ s :: fromKey free s.position

end FreeSegments

open FreeSegments

namespace TempSpace

/-! ## Allocating -/

/-- The number of the smallest segment that is big enough, the first one of these. -/
def bestFit (size : ℕ) : List Segment → ℕ → Option (ℕ × Segment) → Option (ℕ × Segment)
  | [], _, best => best
  | space :: spaces, i, best =>
      if space.size ≥ size ∧ ∀ b ∈ best, space.size < b.2.size then
        bestFit size spaces (i + 1) (some (i, space))
      else bestFit size spaces (i + 1) best

/-- Allocate in the free segments, or extend the space. There is no position when an exception
leaves the function. -/
def allocateSpace (minBlockSize : ℕ) (s : TempSpace) (size : ℕ) (backing : Backing) :
    TempSpace × Option ℕ :=
  match bestFit size s.freeSegments 0 none with
  | none =>
      let r := s.extend minBlockSize size backing
      (r.1, if r.2 then some (r.1.logicalSize - size) else none)
  | some (i, best) =>
      let free := s.freeSegments.set i ⟨best.position + size, best.size - size⟩
      let free :=
        if best.size - size = 0 then
          match locateEqual free (best.position + size) with
          | some c => c.before ++ c.after
          | none => free
        else free
      ({ s with freeSegments := free }, some best.position)

/-! ## Releasing -/

/-- The free segments with the released one, joined with its neighbours. -/
def release (free : List Segment) (position size : ℕ) : List Segment :=
  match locateEqual free (position + size) with
  | some c =>
      let next : Segment := ⟨c.current.position - size, c.current.size + size⟩
      match c.before.getLast? with
      | some prior =>
          if position = prior.position + prior.size then
            c.before.dropLast ++ ⟨next.position - prior.size, next.size + prior.size⟩ :: c.after
          else c.before ++ next :: c.after
      | none => c.before ++ next :: c.after
  | none =>
      match locateLess free position with
      | some c =>
          if position = c.current.position + c.current.size then
            c.before ++ ⟨c.current.position, c.current.size + size⟩ :: c.after
          else add free ⟨position, size⟩
      | none => add free ⟨position, size⟩

def releaseSpace (s : TempSpace) (position size : ℕ) : TempSpace :=
  { s with freeSegments := release s.freeSegments position size }

/-! ## Batches -/

/-- There are `size` bytes of memory at the offset. -/
def inMemory (b : Block) (offset size : ℕ) : Bool :=
  match b.store with
  | .file _ _ => false
  | _ => offset < b.size ∧ offset + size ≤ b.size

/-- Look for memory in the blocks, which have the numbers from `i` on. -/
def findMemoryLoop (finish size : ℕ) : List Block → ℕ → ℕ → ℕ → Option ((ℕ × ℕ) × ℕ)
  | [], _, _, _ => none
  | b :: bs, i, start, offset =>
      if start + size ≤ finish then
        if inMemory b offset size then some ((i, offset), start)
        else findMemoryLoop finish size bs (i + 1) (start + (b.size - offset)) 0
      else none

/-- Memory of `size` bytes between the positions, and its position. -/
def findMemory (s : TempSpace) (start finish size : ℕ) : Option ((ℕ × ℕ) × ℕ) :=
  match s.findBlock start with
  | some (i, offset) => findMemoryLoop finish size (s.blocks.drop i) i start offset
  | none => none

/-- What is in front of `freeSeek` becomes a segment of its own. -/
def skipHead (before : List Segment) (freeSpace : Segment) (after : List Segment) (freeSeek : ℕ) :
    Cursor :=
  if freeSeek ≠ freeSpace.position then
    let skipSize := freeSeek - freeSpace.position
    let rest : Segment := ⟨freeSpace.position + skipSize, freeSpace.size - skipSize⟩
    let free := add (before ++ rest :: after) ⟨freeSpace.position, skipSize⟩
    match locateEqual free (freeSpace.position + skipSize) with
    | some c => c
    | none => ⟨before, rest, after⟩
  else ⟨before, freeSpace, after⟩

/-- Cut chunks out of the free segments `rest`. -/
def batchLoop (s : TempSpace) (freeMem : ℕ) :
    ℕ → List Segment → List Segment → List SegmentInMemory → List Segment × List SegmentInMemory
  | 0, before, rest, segments => (before ++ rest, segments)
  | _ + 1, before, [], segments => (before, segments)
  | count + 1, before, freeSpace :: after, segments =>
      match s.findMemory freeSpace.position (freeSpace.position + freeSpace.size) freeMem with
      | none => batchLoop s freeMem (count + 1) (before ++ [freeSpace]) after segments
      | some (mem, freeSeek) =>
          let c := skipHead before freeSpace after freeSeek
          let segments := segments ++ [⟨mem, freeSeek, freeMem⟩]
          let freeSpace : Segment := ⟨c.current.position + freeMem, c.current.size - freeMem⟩
          if freeSpace.size = 0 then batchLoop s freeMem count c.before c.after segments
          else batchLoop s freeMem count c.before (freeSpace :: c.after) segments
  termination_by count _ rest => (count, rest.length)

/-- The size of the chunks, from the free memory and the bounds that are asked for. -/
def chunkSize (minBlockSize : ℕ) (s : TempSpace) (count minSize maxSize : ℕ) : ℕ :=
  let freeMem := (s.freeSegments.map (·.size)).sum
  let freeMem := min (freeMem / count) maxSize
  let freeMem := max freeMem minSize
  let freeMem := min freeMem minBlockSize
  freeMem - (freeMem &&& (fbAlignment - 1))

/-- Allocate up to `count` chunks of memory. -/
def allocateBatch (minBlockSize : ℕ) (s : TempSpace) (count minSize maxSize : ℕ) :
    TempSpace × List SegmentInMemory :=
  let r := s.batchLoop (s.chunkSize minBlockSize count minSize maxSize) count [] s.freeSegments []
  ({ s with freeSegments := r.1 }, r.2)

end TempSpace

end FirebirdCore.Temp
