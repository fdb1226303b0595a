import FirebirdCore.Btr.Find
import FirebirdCore.Btr.JumpNodes
import FirebirdCore.Btr.Edit

/-!
# Inserting a node

`insertNode` builds the bucket with the new node on a scratch page, which still has the header and
the jump table of the old one, then patches the jump nodes or generates new ones, and either writes
the result back or splits it.
-/
namespace FirebirdCore.Btr
open FirebirdCore.KeyOrder FirebirdCore.Buffer

/-! ## The insertion point -/

/-- Where a node is inserted: before `node`, with `pfx` the prefix of the new node and `newPrefix`
that of `node` behind it. -/
structure InsertPoint where
  nodeOffset : ℕ
  node : IndexNode
  pfx : ℕ
  newPrefix : ℕ
  deriving DecidableEq, Repr

/-- Walk through the nodes equal to the key from `node` on. The second component collects the record
numbers of the duplicates to validate. -/
def insertionLoop (bucket : BtreePage) (key : Key) (validateDuplicates unique : Bool)
    (newRecordNumber : ℕ) : ℕ → ℕ → IndexNode → ℕ → ℕ → List ℕ → Option InsertPoint × List ℕ
  | 0, _, _, _, _, duplicates => (none, duplicates)
  | fuel + 1, nodeOffset, node, pointer, pfx, duplicates =>
      let newPrefix := node.prefixLen + computePrefix (key.drop node.prefixLen) node.data
      let point : InsertPoint := ⟨nodeOffset, node, pfx, newPrefix⟩
      if newPrefix ≠ key.length ∨ newPrefix ≠ node.length + node.prefixLen then
        (some point, duplicates)
      -- We have an equal node, so find the correct insertion point.
      else if node.isEndBucket then
        if !validateDuplicates && decide (newRecordNumber < node.recordNumber) then
          (some point, duplicates)
        else (none, duplicates)
      else if node.isEndLevel then (some point, duplicates)
      else
        let duplicates :=
          if bucket.leafPage && validateDuplicates then duplicates ++ [node.recordNumber]
          else duplicates
        if !validateDuplicates && decide (newRecordNumber ≤ node.recordNumber) then
          (some point, duplicates)
        else if validateDuplicates && !unique then (some point, duplicates)
        else
          let r := bucket.readNode pointer
          insertionLoop bucket key validateDuplicates unique newRecordNumber fuel pointer r.1 r.2
            newPrefix duplicates

/-- The insertion point for a key, or `none` if this is not the right bucket. -/
def findInsertPoint (pageSize : ℕ) (bucket : BtreePage) (key : TemporaryKey) (idx : IndexDesc)
    (newRecordNumber : ℕ) : Except BugCheck (Option InsertPoint × List ℕ) :=
  let validate := validateDuplicates idx key
  match findNodeStartPoint bucket key.keyData idx.idxDescending false true
      (if validate then noValue else newRecordNumber) with
  | .error e => .error e
  | .ok none => .ok (none, [])
  | .ok (some (pointer, pfx)) =>
      if pointer > pageSize then .error .bucketOverfilled
      else
        let r := bucket.readNode pointer
        let point := insertionLoop bucket key.keyData validate idx.idxUnique newRecordNumber
          (bucket.btrLength + 1) pointer r.1 r.2 pfx []
        if point.1.any fun p => p.nodeOffset > pageSize then .error .bucketOverfilled
        else .ok point

/-! ## The scratch page -/

/-- The node behind the insertion point, compressed against the new key. -/
def InsertPoint.nextNode (p : InsertPoint) : IndexNode :=
  { p.node with
    prefixLen := p.newPrefix
    data := p.node.data.drop (p.newPrefix - p.node.prefixLen) }

/-- The new node. -/
def InsertPoint.newNode (p : InsertPoint) (leafPage : Bool) (key : Key)
    (newRecordNumber pageNumber : ℕ) : IndexNode :=
  IndexNode.ofParts p.pfx (key.drop p.pfx) newRecordNumber (if leafPage then 0 else pageNumber)

/-- Difference of size between the current and the new page. -/
def InsertPoint.delta (p : InsertPoint) (leafPage : Bool) (newNode : IndexNode) : ℕ :=
  newNode.getNodeSize leafPage + p.nextNode.getNodeSize leafPage - p.node.getNodeSize leafPage

/-- The scratch page with the new node: the old header and jump table with the new nodes. -/
def insertScratch (bucket : BtreePage) (p : InsertPoint) (newNode : IndexNode) : BtreePage :=
  { bucket with
    btrNodes := spliceNodes bucket p.nodeOffset
      (p.nodeOffset + p.node.getNodeSize bucket.leafPage) [newNode, p.nextNode]
    btrPrefixTotal := bucket.btrPrefixTotal + (newNode.prefixLen - p.node.prefixLen) + p.newPrefix
    btrLength := bucket.btrLength + p.delta bucket.leafPage newNode }

/-! ## The jump table -/

/-- The old jump nodes with the offsets behind the new node adjusted, or `none` if one of them has
left its area by more than a tenth of it or leads to the node behind the new one. -/
def keepJumpNodes (newBucket : BtreePage) (nodeOffset delta : ℕ) :
    ℕ → ℕ → ℕ → Option (List IndexJumpNode)
  | 0, _, _ => some []
  | n + 1, index, pointer =>
      let fragmentedThreshold := newBucket.btrJumpInterval / 5
      let position := btrSize + newBucket.btrJumpSize + index * newBucket.btrJumpInterval
      let r := newBucket.readJumpNode pointer
      if r.1.offset = nodeOffset then none
      else
        let jumpNode :=
          if r.1.offset > nodeOffset then { r.1 with offset := r.1.offset + delta } else r.1
        if jumpNode.offset < (position - fragmentedThreshold) % 2 ^ 16 then none
        else if jumpNode.offset > (position + fragmentedThreshold) % 2 ^ 16 then none
        else (keepJumpNodes newBucket nodeOffset delta n (index + 1) r.2).map (jumpNode :: ·)

/-- The jump nodes of the new bucket, with offsets that still count from the old jump table. -/
structure JumpTable where
  jumpNodes : List IndexJumpNode
  jumpersSize : ℕ
  splitIndex : ℕ
  splitPrefix : ℕ
  deriving DecidableEq, Repr

/-- Patch the jump table, or generate it if it is fragmented, if the new node lies behind the last
area, or if the bucket is going to be split. -/
def updateJumpNodes (pageSize keyLen : ℕ) (newBucket : BtreePage) (nodeOffset delta
    ensureEndInsert : ℕ) : JumpTable :=
  let lastArea := btrSize + newBucket.btrJumpSize +
    (newBucket.btrJumpCount + 1) * newBucket.btrJumpInterval
  let kept :=
    if nodeOffset ≥ lastArea ∨ newBucket.btrLength + ensureEndInsert > pageSize then none
    else keepJumpNodes newBucket nodeOffset delta newBucket.btrJumpCount 1 btrSize
  match kept with
  | some jumpNodes => ⟨jumpNodes, newBucket.btrJumpSize, 0, 0⟩
  | none =>
      let g := generateJumpNodes newBucket true pageSize keyLen
      ⟨g.jumpNodes, g.jumpersSize, g.splitIndex, g.splitPrefix⟩

/-- Put the jump nodes and the nodes of the scratch page back into the bucket. -/
def writeBack (bucket newBucket : BtreePage) (jumpNodes : List IndexJumpNode)
    (jumpCount jumpersSize : ℕ) (prefixTotal : ℤ) : BtreePage :=
  let original := newBucket.btrJumpSize
  let shifted := jumpNodes.map fun j => { j with offset := j.offset + jumpersSize - original }
  { bucket with
    btrJumpSize := jumpersSize
    btrJumpCount := jumpCount
    btrNodes := blit (blit bucket.btrNodes 0 (writeJumpNodes shifted)) jumpersSize
      ((newBucket.btrNodes.drop original).take (newBucket.btrLength - btrSize - original))
    btrPrefixTotal := prefixTotal
    btrLength := newBucket.btrLength + jumpersSize - original }

/-! ## Splitting the bucket -/

/-- What an insertion takes from its surroundings: the page size, the greatest length of a key of
the index, the page number of the bucket and of the page to allocate, and the key of nulls. -/
structure InsertContext where
  pageSize : ℕ
  keyLength : ℕ
  window : ℕ
  allocated : ℕ
  nullKey : TemporaryKey
  deriving DecidableEq, Repr

/-- Where the scratch page is split: behind `node`, which becomes the marker of the left page and
the first node of the right one, `newKey` being its key. `jumpNodes` are those of the left page
and `splitJumpNodes` those of the right one. -/
structure SplitPoint where
  nodePointer : ℕ
  node : IndexNode
  splitpoint : ℕ
  newKey : Key
  prefixTotal : ℤ
  jumpNodes : List IndexJumpNode
  jumpersNewSize : ℕ
  splitJumpNodes : List IndexJumpNode
  deriving DecidableEq, Repr

/-- The data bytes that jump nodes leave in a key buffer. -/
def jumpKeyData (key : List UInt8) (js : List IndexJumpNode) : List UInt8 :=
  js.foldl (fun key j => blit key j.prefixLen j.data) key

/-- The first jump node of the split page gets all its prefix bytes. -/
def rebuildFirst (newKey : Key) : List IndexJumpNode → List IndexJumpNode
  | [] => []
  | j :: js => { j with prefixLen := 0, data := newKey.take j.prefixLen ++ j.data } :: js

/-- Split at the node of jump node number `t.splitIndex`, which is in neither table any more. -/
def splitAtJumpNode (newBucket : BtreePage) (t : JumpTable) : SplitPoint :=
  let jn := t.jumpNodes.getD (t.splitIndex - 1) ⟨0, 0, []⟩
  let r := newBucket.readNode jn.offset
  let newKey := (blit (jumpKeyData [] (t.jumpNodes.take t.splitIndex)) r.1.prefixLen r.1.data).take
    (r.1.prefixLen + r.1.length)
  let left := t.jumpNodes.take (t.splitIndex - 1)
  ⟨jn.offset, r.1, r.2, newKey, t.splitPrefix, left, jumpNodesSize left,
    rebuildFirst newKey (t.jumpNodes.drop t.splitIndex)⟩

/-- Walk through the nodes up to the midpoint. Where the first node lies behind it, the source
leaves the node unset. -/
def midpointLoop (newBucket : BtreePage) (midpoint : ℕ) : ℕ → SplitPoint → List UInt8 → SplitPoint
  | 0, s, _ => s
  | fuel + 1, s, keyData =>
      if s.splitpoint < midpoint then
        let r := newBucket.readNode s.splitpoint
        let keyData := blit keyData r.1.prefixLen r.1.data
        midpointLoop newBucket midpoint fuel
          { s with
            nodePointer := s.splitpoint
            node := r.1
            splitpoint := r.2
            newKey := keyData.take (r.1.prefixLen + r.1.length)
            prefixTotal := s.prefixTotal + r.1.prefixLen }
          keyData
      else s

/-- Determine the split point: halfway through the page, at a jump node if there is one, but
behind the new node if that is the last one and the page has room for it as a marker. -/
def findSplitPoint (pageSize : ℕ) (newBucket : BtreePage) (p : InsertPoint) (newNode : IndexNode)
    (key : Key) (t : JumpTable) : SplitPoint :=
  let leafPage := newBucket.leafPage
  let endOfPage := p.node.isEndBucket || p.node.isEndLevel
  let original := newBucket.btrJumpSize
  let r := newBucket.readNode p.nodeOffset
  let deltaSize := newNode.setEndBucket.getNodeSize leafPage - newNode.getNodeSize leafPage
  if t.splitIndex ≠ 0 then
    if endOfPage ∧ r.2 + t.jumpersSize + deltaSize ≤ pageSize + original then
      ⟨p.nodeOffset, r.1, r.2, key, newBucket.btrPrefixTotal - p.newPrefix, t.jumpNodes,
        t.jumpersSize, []⟩
    else splitAtJumpNode newBucket t
  else
    let midpoint :=
      if endOfPage ∧ r.2 + deltaSize ≤ pageSize then r.2
      else (pageSize - btrSize - original) / 2
    midpointLoop newBucket midpoint (newBucket.btrLength + 1)
      ⟨0, IndexNode.endLevel, newBucket.firstNode, [], 0, t.jumpNodes, t.jumpersSize, []⟩ []

/-- The first node of the split page. -/
def SplitPoint.firstNode (s : SplitPoint) : IndexNode :=
  IndexNode.ofParts 0 s.newKey s.node.recordNumber s.node.pageNumber

/-- The overflow page: the nodes behind the split point, after their first one with its full key. -/
def splitPage (ctx : InsertContext) (bucket newBucket : BtreePage) (s : SplitPoint) :
    Except BugCheck BtreePage :=
  let leafPage := newBucket.leafPage
  let jumpSize := jumpNodesSize s.splitJumpNodes
  let firstSize := s.firstNode.getNodeSize leafPage
  let l := newBucket.btrLength - s.splitpoint
  let splitLen := btrSize + jumpSize + firstSize + l
  if btrSize + jumpSize + firstSize > ctx.pageSize then .error .bucketOverfilled
  else if splitLen > ctx.pageSize then .error .bucketOverfilled
  else
    let shifted := s.splitJumpNodes.map fun j =>
      { j with offset := j.offset - s.splitpoint + btrSize + jumpSize + firstSize }
    .ok
      { btrReleased := false
        btrSibling := bucket.btrSibling
        btrLeftSibling := ctx.window
        btrPrefixTotal := newBucket.btrPrefixTotal - s.prefixTotal
        btrRelation := bucket.btrRelation
        btrLength := splitLen
        btrId := bucket.btrId
        btrLevel := bucket.btrLevel
        btrJumpInterval := newBucket.btrJumpInterval
        btrJumpSize := jumpSize
        btrJumpCount := s.splitJumpNodes.length % 256
        btrNodes := writeJumpNodes shifted ++ s.firstNode.writeNode leafPage ++
          (newBucket.bytesAt s.splitpoint).take l }

/-- The scratch page up to the split node, which becomes the end-of-bucket marker. -/
def truncateAt (newBucket : BtreePage) (s : SplitPoint) : BtreePage :=
  let marker := s.node.setEndBucket
  { newBucket with
    btrNodes := newBucket.btrNodes.take (s.nodePointer - btrSize) ++
      marker.writeNode newBucket.leafPage
    btrLength := s.nodePointer + marker.getNodeSize newBucket.leafPage }

/-- The left page, which links to the overflow page. -/
def leftPage (ctx : InsertContext) (bucket newBucket : BtreePage) (s : SplitPoint) :
    Except BugCheck BtreePage :=
  let newBucket := truncateAt newBucket s
  let jumpCount := s.jumpNodes.length % 256
  if newBucket.btrLength + s.jumpersNewSize > ctx.pageSize + newBucket.btrJumpSize then
    .error .bucketOverfilled
  else
    .ok
      { writeBack bucket newBucket (s.jumpNodes.take jumpCount) jumpCount s.jumpersNewSize
          s.prefixTotal with
        btrSibling := ctx.allocated }

/-- What becomes of an insertion: this is not the right bucket, the bucket holds the new node, or
it is split and `newKey` and `newRecordNumber` go to the parent. -/
inductive Insertion where
  | noValuePage
  | noSplit (bucket : BtreePage)
  | split (bucket splitPage : BtreePage) (newKey : TemporaryKey) (newRecordNumber : ℕ)
  deriving DecidableEq, Repr

/-- The key for the parent. A key of nulls is marked as such, so that it is not validated. -/
def parentKey (ctx : InsertContext) (unique : Bool) (newKey : Key) : TemporaryKey :=
  ⟨newKey, if unique && newKey == ctx.nullKey.keyData then ctx.nullKey.keyNulls else 0, false⟩

/-- Split the bucket. -/
def splitBucket (ctx : InsertContext) (bucket newBucket : BtreePage) (idx : IndexDesc)
    (p : InsertPoint) (newNode : IndexNode) (key : Key) (t : JumpTable) :
    Except BugCheck Insertion :=
  let s := findSplitPoint ctx.pageSize newBucket p newNode key t
  match splitPage ctx bucket newBucket s with
  | .error e => .error e
  | .ok split =>
      match leftPage ctx bucket newBucket s with
      | .error e => .error e
      | .ok left =>
          .ok (.split left split (parentKey ctx idx.idxUnique s.newKey) s.node.recordNumber)

/-- Write the new node at the insertion point, without a split if the bucket still fits. -/
def insertAt (ctx : InsertContext) (bucket : BtreePage) (key : Key) (idx : IndexDesc)
    (newRecordNumber pageNumber : ℕ) (p : InsertPoint) : Except BugCheck Insertion :=
  let newNode := p.newNode bucket.leafPage key newRecordNumber pageNumber
  let newBucket := insertScratch bucket p newNode
  let ensureEndInsert :=
    if p.node.isEndBucket || p.node.isEndLevel then 6 + key.length else 0
  let t := updateJumpNodes ctx.pageSize ctx.keyLength newBucket p.nodeOffset
    (p.delta bucket.leafPage newNode) ensureEndInsert
  if newBucket.btrLength + ensureEndInsert + t.jumpersSize ≤
      ctx.pageSize + newBucket.btrJumpSize then
    .ok (.noSplit (writeBack bucket newBucket t.jumpNodes (t.jumpNodes.length % 256) t.jumpersSize
      newBucket.btrPrefixTotal))
  else splitBucket ctx bucket newBucket idx p newNode key t

/-- Insert a node in a bucket. The second component holds the record numbers of the duplicates to
validate; `pageNumber` is that of the child on a pointer page. -/
def insertNode (ctx : InsertContext) (bucket : BtreePage) (key : TemporaryKey) (idx : IndexDesc)
    (newRecordNumber pageNumber : ℕ) : Except BugCheck (Insertion × List ℕ) :=
  match findInsertPoint ctx.pageSize bucket key idx newRecordNumber with
  | .error e => .error e
  | .ok (none, duplicates) => .ok (.noValuePage, duplicates)
  | .ok (some p, duplicates) =>
      (insertAt ctx bucket key.keyData idx newRecordNumber pageNumber p).map (·, duplicates)

end FirebirdCore.Btr
