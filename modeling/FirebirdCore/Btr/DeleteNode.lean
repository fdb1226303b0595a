import FirebirdCore.Btr.Edit

/-!
# Deleting a node

`deleteNode` takes a node from its page and compresses the next one against the node before. The
jump table is rebuilt in one pass: the jump node to the deleted node goes and leaves its bytes to
the next one, offsets behind the node shrink, the jump node to the next node is cut to that node's
new prefix, and bytes that are missing then are collected from the nodes.
-/
namespace FirebirdCore.Btr
open FirebirdCore.KeyOrder FirebirdCore.Buffer

/-- `contents`: how full a page is after a deletion. -/
inductive Contents where
  | empty
  | single
  | belowThreshold
  | aboveThreshold
  deriving DecidableEq, Repr

/-- `GARBAGE_COLLECTION_BELOW_THRESHOLD`. -/
def belowThreshold (pageSize : ℕ) : ℕ := pageSize / 4

/-- The node behind the one removed, with the bytes it used of that node. -/
def nextAfterDelete (removing next : IndexNode) : IndexNode :=
  if next.prefixLen > removing.prefixLen then
    { next with
      prefixLen := removing.prefixLen
      data := removing.data.take (next.prefixLen - removing.prefixLen) ++ next.data }
  else next

/-- The page without the node at `pointer`, still with the old jump table; what was behind the
nodes stays there. -/
def removeNode (page : BtreePage) (pointer : ℕ) : BtreePage :=
  let removing := page.readNode pointer
  let next := page.readNode removing.2
  let newNext := nextAfterDelete removing.1 next.1
  let rest := (page.bytesAt next.2).take (page.btrLength - next.2)
  { page with
    btrNodes := blit page.btrNodes (pointer - btrSize) (newNext.writeNode page.leafPage ++ rest)
    btrPrefixTotal := page.btrPrefixTotal -
      (removing.1.prefixLen + (next.1.prefixLen - newNext.prefixLen))
    btrLength := pointer + newNext.getNodeSize page.leafPage + rest.length }

/-! ## The jump table -/

/-- What a removed jump node leaves: the next one gets the bytes it shared with it. -/
def donate (jumpNode : IndexJumpNode) : Option IndexJumpNode → IndexJumpNode
  | some delJumpNode =>
      if jumpNode.prefixLen > delJumpNode.prefixLen then
        { jumpNode with
          prefixLen := delJumpNode.prefixLen
          data := delJumpNode.data.take (jumpNode.prefixLen - delJumpNode.prefixLen) ++ jumpNode.data }
      else jumpNode
  | none => jumpNode

/-- The offset of a jump node when the node from `offsetDeletePoint` to `offsetNextPoint` is gone
and the page has shrunk by `delta`. -/
def moveOffset (offsetDeletePoint offsetNextPoint delta offset : ℕ) : ℕ :=
  if offset = offsetNextPoint then offsetDeletePoint
  else if offset > offsetDeletePoint then offset - delta
  else offset

/-- Cut the jump node to the new prefix of its node. -/
def cutJumpNode (newPrefix : ℕ) (jumpNode : IndexJumpNode) : IndexJumpNode :=
  if jumpNode.total > newPrefix then
    if jumpNode.prefixLen > newPrefix then { jumpNode with prefixLen := newPrefix, data := [] }
    else { jumpNode with data := jumpNode.data.take (newPrefix - jumpNode.prefixLen) }
  else jumpNode

/-- A prefix that the last jump node holds in full needs no bytes. -/
def shareJumpNode (newPrefix : ℕ) (jumpPrev : Option IndexJumpNode) (jumpNode : IndexJumpNode) :
    IndexJumpNode :=
  if jumpNode.total < newPrefix ∧ jumpPrev.any (newPrefix ≤ ·.total) then
    { jumpNode with prefixLen := newPrefix, data := [] }
  else jumpNode

/-- Put those data of a node into the key buffer that belong to its first `newPrefix` bytes. -/
def fillBytes (newPrefix : ℕ) (jumpKey : List UInt8) (node : IndexNode) : List UInt8 :=
  if node.prefixLen < newPrefix ∧ node.length ≠ 0 then
    blit jumpKey node.prefixLen (node.data.take (newPrefix - node.prefixLen))
  else jumpKey

/-- Walk through the nodes up to `endPtr` and collect the first `newPrefix` bytes of their keys. -/
def fillKey (page : BtreePage) (newPrefix endPtr : ℕ) : ℕ → ℕ → List UInt8 → List UInt8
  | 0, _, jumpKey => jumpKey
  | fuel + 1, prevPtr, jumpKey =>
      if prevPtr < endPtr then
        let r := page.readNode prevPtr
        fillKey page newPrefix endPtr fuel r.2 (fillBytes newPrefix jumpKey r.1)
      else jumpKey

/-- The jump node with the bytes that are not known yet, and the key buffer. -/
def fillJumpNode (page : BtreePage) (newPrefix : ℕ) (jumpPrev : Option IndexJumpNode)
    (jumpKey : List UInt8) (jumpNode : IndexJumpNode) : IndexJumpNode × List UInt8 :=
  if jumpNode.total ≠ newPrefix ∨ jumpPrev.any (jumpNode.prefixLen > ·.total) then
    let prefixLen := (jumpPrev.map (·.total)).getD 0
    let prevPtr := (jumpPrev.map (·.offset)).getD page.firstNode
    let jumpKey := fillKey page newPrefix jumpNode.offset page.btrLength prevPtr jumpKey
    ({ jumpNode with prefixLen, data := (jumpKey.drop prefixLen).take (newPrefix - prefixLen) },
      jumpKey)
  else (jumpNode, jumpKey)

/-- The variables of the loop over the jump nodes: `removed` is the jump node left out last, if
none was added since, and `jumpKey` holds the bytes of the last one added. -/
structure DeleteState where
  jumpNodes : List IndexJumpNode
  removed : Option IndexJumpNode
  jumpKey : List UInt8
  jumpersNewSize : ℕ
  deriving DecidableEq, Repr

/-- The jump node with its new offset, prefix and data, and the key buffer. -/
def DeleteState.rebuild (page : BtreePage) (s : DeleteState) (jumpNode : IndexJumpNode) :
    IndexJumpNode × List UInt8 :=
  let newPrefix := (page.readNode jumpNode.offset).1.prefixLen
  let jumpPrev := s.jumpNodes.getLast?
  let r := fillJumpNode page newPrefix jumpPrev s.jumpKey
    (shareJumpNode newPrefix jumpPrev (cutJumpNode newPrefix jumpNode))
  (r.1, blit r.2 r.1.prefixLen r.1.data)

/-- The jump node with the bytes it gets from a removed one and with its new offset, and the key
buffer. -/
def DeleteState.receive (s : DeleteState) (offsetDeletePoint offsetNextPoint delta : ℕ)
    (jumpNode : IndexJumpNode) : IndexJumpNode × List UInt8 :=
  let donated := donate jumpNode s.removed
  let offset := moveOffset offsetDeletePoint offsetNextPoint delta jumpNode.offset
  ({ donated with offset },
    if s.removed.any (jumpNode.prefixLen > ·.prefixLen) then
      blit s.jumpKey donated.prefixLen donated.data
    else s.jumpKey)

def deleteJumpLoop (page : BtreePage) (offsetDeletePoint offsetNextPoint delta : ℕ) :
    ℕ → ℕ → DeleteState → DeleteState
  | 0, _, s => s
  | n + 1, pointer, s =>
      let r := page.readJumpNode pointer
      -- Jump nodes pointing to the deleted node are removed.
      if r.1.offset < offsetDeletePoint ∨ r.1.offset ≥ offsetNextPoint then
        let newJumpNode := s.receive offsetDeletePoint offsetNextPoint delta r.1
        -- There is no sense in jump node pointing to the first index node on page.
        if newJumpNode.1.offset = page.firstNode then
          deleteJumpLoop page offsetDeletePoint offsetNextPoint delta n r.2
            { s with
              removed := some r.1
              jumpKey := blit newJumpNode.2 r.1.prefixLen r.1.data }
        else
          let k := { s with jumpKey := newJumpNode.2 }.rebuild page newJumpNode.1
          let size := s.jumpersNewSize + k.1.getJumpNodeSize
          if size > page.btrJumpSize then s
          else
            deleteJumpLoop page offsetDeletePoint offsetNextPoint delta n r.2
              ⟨s.jumpNodes ++ [k.1], none, k.2, size⟩
      else
        deleteJumpLoop page offsetDeletePoint offsetNextPoint delta n r.2
          { s with removed := some r.1 }

/-! ## The whole operation -/

/-- How many nodes are left, and whether the page is worth a merge. -/
def pageContents (pageSize : ℕ) (page : BtreePage) : Contents :=
  let r := page.readNode page.firstNode
  if r.1.isEndBucket ∨ r.1.isEndLevel then .empty
  else
    let r := page.readNode r.2
    if r.1.isEndBucket ∨ r.1.isEndLevel then .single
    else if page.btrLength < belowThreshold pageSize then .belowThreshold
    else .aboveThreshold

/-- Delete the node at `pointer`. -/
def deleteNode (pageSize : ℕ) (page : BtreePage) (pointer : ℕ) : BtreePage × Contents :=
  let removed := removeNode page pointer
  let s := deleteJumpLoop removed pointer (page.readNode pointer).2
    (page.btrLength - removed.btrLength) page.btrJumpCount btrSize ⟨[], none, [], 0⟩
  let page' :=
    { removed with
      btrJumpCount := s.jumpNodes.length % 256
      btrNodes := blit removed.btrNodes 0 (writeJumpNodes s.jumpNodes) }
  (page', pageContents pageSize page')

/-! ## The nodes that are left -/

section
variable {d leafNode : Bool} {A B : List IndexNode} {x m : IndexNode}

/-- Without the node between them, two nodes share the smaller of the two prefixes. -/
theorem Nodes.lcp_around (hn : Nodes d leafNode (A ++ x :: m :: B)) (hx : x.isEndLevel = false)
    (hl : m.isEndLevel = false) :
    lcp (lastKey [] A) (nodeKey (nodeKey (lastKey [] A) x) m) = min x.prefixLen m.prefixLen := by
  have hsplit : A ++ x :: m :: B = (A ++ [x]) ++ m :: B := by simp
  have hpx := (hn.linked hx).1
  have hpm := ((hsplit ▸ hn).linked hl).1
  simp only [lastKey_append, lastKey_cons, lastKey_nil] at hpm
  by_cases hempty : lastKey [] A = []
  · rw [hempty] at hpx ⊢
    simp [hpx]
  have hle : AtMost d (lastKey [] A) (nodeKey (lastKey [] A) x) := by
    rcases hn.atMost hx with rfl | ⟨a, rfl, ha⟩ | h
    · exact absurd rfl hempty
    · exact absurd (ha.nodeKey []) hempty
    · exact h
  have hle' : AtMost d (nodeKey (lastKey [] A) x) (nodeKey (nodeKey (lastKey [] A) x) m) := by
    rcases (hsplit ▸ hn).atMost hl with he | ⟨a, he, -⟩ | h
    · simp at he
    · -- a node before both is not the degenerate one
      obtain ⟨rfl, -⟩ := List.append_eq_singleton_iff.1 he |>.resolve_right (by simp)
      exact absurd rfl hempty
    · simpa using h
  rw [hpx, hpm, lcp_of_atMost d hle hle']

/-- The next node is compressed against the node before the deleted one. -/
theorem nextAfterDelete_eq (hn : Nodes d leafNode (A ++ x :: m :: B)) (hx : x.isEndLevel = false)
    (hw : m.WellFormed leafNode) :
    nextAfterDelete x m = relink (nodeKey (lastKey [] A) x) (lastKey [] A) m := by
  cases hl : m.isEndLevel with
  | true =>
    rw [relink, if_pos hl, nextAfterDelete, hw.endLevel hl]
    exact if_neg (Nat.not_lt_zero _)
  | false =>
    have hsplit : A ++ x :: m :: B = (A ++ [x]) ++ m :: B := by simp
    have hpx := (hn.linked hx).1
    have hpm := ((hsplit ▸ hn).linked hl).1
    simp only [lastKey_append, lastKey_cons, lastKey_nil] at hpm
    have hmin := hn.lcp_around hx hl
    have hlast := lcp_le_left (lastKey [] A) (nodeKey (lastKey [] A) x)
    have hkey : (nodeKey (nodeKey (lastKey [] A) x) m) =
        (nodeKey (lastKey [] A) x).take m.prefixLen ++ m.data := rfl
    have hX : nodeKey (lastKey [] A) x = (lastKey [] A).take x.prefixLen ++ x.data := rfl
    have htake : ((lastKey [] A).take x.prefixLen).length = x.prefixLen := by
      rw [List.length_take]
      omega
    have hmX : m.prefixLen ≤ (nodeKey (lastKey [] A) x).length := hpm ▸ lcp_le_left _ _
    rw [relink, if_neg (by simp [hl]), hmin, nextAfterDelete]
    split_ifs with hlt
    · have hdrop : (nodeKey (nodeKey (lastKey [] A) x) m).drop x.prefixLen =
          x.data.take (m.prefixLen - x.prefixLen) ++ m.data := by
        rw [hkey, hX, List.take_append, htake, List.take_of_length_le (by omega), List.append_assoc,
          List.drop_left' htake]
      rw [Nat.min_eq_left (by omega), hdrop]
    · have hdrop : (nodeKey (nodeKey (lastKey [] A) x) m).drop m.prefixLen = m.data := by
        rw [hkey]
        refine List.drop_left' ?_
        rw [List.length_take]
        omega
      rw [Nat.min_eq_right (by omega), hdrop]

/-- The nodes without `x`. -/
def deletedNodes (A : List IndexNode) (x m : IndexNode) (B : List IndexNode) : List IndexNode :=
  A ++ [relink (nodeKey (lastKey [] A) x) (lastKey [] A) m] ++ B

/-- The nodes stay sorted, compressed and terminated. -/
theorem Nodes.delete (hn : Nodes d leafNode (A ++ x :: m :: B)) (hx : x.isEndLevel = false)
    (hb : x.isEndBucket = false) : Nodes d leafNode (deletedNodes A x m B) := by
  have key : ∀ A, Chain d none (A ++ x :: m :: B) → Chain d none (deletedNodes A x m B) := by
    intro A hc
    have hpk : (prevKey none A).getD [] = lastKey [] A := prevKey_getD none A
    have hxm := (hc.append_right (by simp)).2
    have hm := ((chain_node hx hb).1 hxm).2
    rw [hpk] at hm
    have hrelink := Chain.relink (prevKey none A) hm fun hl k hk => ?_
    · rw [hpk] at hrelink
      rw [deletedNodes, List.append_assoc]
      exact hc.replace (by simp) hrelink
    · have hk' : lastKey [] A = k := by rw [← hpk, hk]; rfl
      have hkx := (hxm.linked hx).2 k hk
      rw [← hk'] at hkx ⊢
      exact hkx.trans ((hm.linked hl).2 _ rfl)
  rcases hn with h | ⟨a, rest, he, ha, h⟩
  · exact .inl (key A h)
  · cases A with
    | nil =>
      obtain ⟨rfl, rfl⟩ := List.cons.inj he
      refine .inl ?_
      have hm := Chain.relink none h (by simp)
      rw [deletedNodes, lastKey_nil, ha.nodeKey]
      exact hm
    | cons b A =>
      obtain ⟨rfl, rfl⟩ := List.cons.inj he
      refine .inr ⟨b, _, ?_, ha, key A h⟩
      rw [deletedNodes, deletedNodes, lastKey_cons, ha.nodeKey]
      rfl

/-- Nothing stands behind an end-of-level marker. -/
theorem Nodes.last_of_endLevel (hn : Nodes d leafNode (A ++ x :: m :: B)) :
    m.isEndLevel = true → B = [] := by
  intro hl
  by_contra hne
  have hsplit : A ++ x :: m :: B = (A ++ [x, m]) ++ B := by simp
  have := ((hsplit ▸ hn).ordinary hne m (by simp)).1
  simp [hl] at this

/-- A node that is no marker has one behind it. -/
theorem Nodes.exists_next {rest : List IndexNode} (hn : Nodes d leafNode (A ++ x :: rest))
    (hl : x.isEndLevel = false) (hb : x.isEndBucket = false) : ∃ m B, rest = m :: B := by
  cases rest with
  | nil =>
    have hend := hn.last
    simp [hl, hb] at hend
  | cons m B => exact ⟨m, B, rfl⟩

/-- The entries are the old ones without that of the deleted node. -/
theorem decode_deletedNodes (hw : m.WellFormed leafNode) (hpost : m.isEndLevel = true → B = []) :
    decode [] (A ++ x :: m :: B) =
        decode [] A ++ entryOf (lastKey [] A) x :: decode (nodeKey (lastKey [] A) x) (m :: B) ∧
      decode [] (deletedNodes A x m B) =
        decode [] A ++ decode (nodeKey (lastKey [] A) x) (m :: B) := by
  constructor
  · rw [decode_append, decode_cons]
  · rw [deletedNodes, List.append_assoc, decode_append]
    exact congrArg _ (decode_relink _ _ hw hpost)

/-- The entries without that of the node. -/
theorem decode_erased (hw : m.WellFormed leafNode) (hpost : m.isEndLevel = true → B = []) :
    decode [] (deletedNodes A x m B) = (decode [] (A ++ x :: m :: B)).eraseIdx A.length := by
  obtain ⟨hold, hnew⟩ := decode_deletedNodes (A := A) (x := x) hw hpost
  have hlen : (decode [] A).length = A.length := decode_length [] A
  rw [hnew, hold, List.eraseIdx_append_of_length_le hlen.le, hlen, Nat.sub_self]
  rfl

end

section
variable {pageSize : ℕ} {d : Bool} {page : BtreePage} {js : List IndexJumpNode}
  {A B : List IndexNode} {x m : IndexNode} {pointer : ℕ}

theorem getNodeSize_relink_le {leafNode : Bool} (hn : Nodes d leafNode (A ++ x :: m :: B))
    (hx : x.isEndLevel = false) (hw : m.WellFormed leafNode)
    (hw' : (relink (nodeKey (lastKey [] A) x) (lastKey [] A) m).WellFormed leafNode) :
    (relink (nodeKey (lastKey [] A) x) (lastKey [] A) m).getNodeSize leafNode ≤
      x.getNodeSize leafNode + m.getNodeSize leafNode := by
  cases hl : m.isEndLevel with
  | true =>
    rw [relink, if_pos hl]
    exact Nat.le_add_left _ _
  | false =>
    have hsplit : A ++ x :: m :: B = (A ++ [x]) ++ m :: B := by simp
    have hpx := (hn.linked hx).1
    have hpm := ((hsplit ▸ hn).linked hl).1
    simp only [lastKey_append, lastKey_cons, lastKey_nil] at hpm
    have hmin := hn.lcp_around hx hl
    have hlenx := nodeKey_length hpx
    have hlenm := nodeKey_length hpm
    have hle := lcp_le_left (nodeKey (lastKey [] A) x) (nodeKey (nodeKey (lastKey [] A) x) m)
    have hsize := (IndexNode.getNodeSize_bounds leafNode hx).1
    have htwo := (x.headSize_bounds leafNode).1
    have hgrow := IndexNode.getNodeSize_le_of_moved leafNode m (m.prefixLen - min x.prefixLen m.prefixLen)
      (show (relink (nodeKey (lastKey [] A) x) (lastKey [] A) m).isEndLevel = false by simpa using hl) hl
      (by simp) (by simp [relink, hl]) (by simp [relink, hl])
      (by simp only [relink, hl, Bool.false_eq_true, if_false, hmin]; omega)
      (by simp only [relink, hl, Bool.false_eq_true, if_false, hmin, IndexNode.length,
            List.length_drop] at *
          omega)
      hw'.length hw.prefixLen
    omega

/-- The page without the node still has the old jump table. -/
theorem layout_removeNode (hv : ValidBucket pageSize d page js (A ++ x :: m :: B))
    (hx : x.isEndLevel = false) (hps : pageSize ≤ maxPageSize)
    (hptr : pointer = page.firstNode + nodesSize page.leafPage A) :
    Layout (removeNode page pointer) js (deletedNodes A x m B) ∧
      (removeNode page pointer).btrPrefixTotal = prefixTotal (deletedNodes A x m B) ∧
      nodesSize page.leafPage (deletedNodes A x m B) + (page.btrLength - (removeNode page pointer).btrLength)
        = nodesSize page.leafPage (A ++ x :: m :: B) := by
  have hsplit : A ++ x :: m :: B = A ++ [x, m] ++ B := by simp
  have hsplit' : A ++ x :: m :: B = (A ++ [x]) ++ m :: B := by simp
  have hlay : Layout page js (A ++ [x, m] ++ B) := hsplit ▸ hv.layout
  have hw : m.WellFormed page.leafPage := hlay.nodes m (by simp)
  have hkey : (nodeKey (nodeKey (lastKey [] A) x) m).length < pageSize / 4 := by
    refine hv.keys (entryOf (nodeKey (lastKey [] A) x) m) ?_
    rw [decode_append, decode_cons, decode_cons]
    simp
  have hw' : (relink (nodeKey (lastKey [] A) x) (lastKey [] A) m).WellFormed page.leafPage :=
    relink_wellFormed hw (by rw [maxPageSize] at hps; omega)
  have hle := getNodeSize_relink_le hv.nodes hx hw hw'
  obtain ⟨m', hm'⟩ : ∃ m', m' = relink (nodeKey (lastKey [] A) x) (lastKey [] A) m := ⟨_, rfl⟩
  have hnext := nextAfterDelete_eq hv.nodes hx hw
  rw [← hm'] at hw' hle hnext
  have hlen := hlay.length
  obtain ⟨endPtr, hend⟩ : ∃ e, e = pointer + x.getNodeSize page.leafPage + m.getNodeSize page.leafPage :=
    ⟨_, rfl⟩
  have hend' : endPtr = page.firstNode + nodesSize page.leafPage (A ++ [x, m]) := by
    simp only [nodesSize_append, nodesSize_cons, nodesSize_nil]
    omega
  obtain ⟨rest, hrest⟩ : ∃ rest, rest = (page.bytesAt endPtr).take (page.btrLength - endPtr) :=
    ⟨_, rfl⟩
  have hrestLen : rest.length = nodesSize page.leafPage B := by
    obtain ⟨tail, ht⟩ := hlay.bytesAt_node
    have hB : (writeNodes page.leafPage B).length = nodesSize page.leafPage B :=
      writeNodes_length fun n hn => hlay.nodes n (by simp [hn])
    rw [hrest, hend', ht, List.length_take, List.length_append, hB, hlen]
    simp only [nodesSize_append]
    omega
  have hread := (show Layout page js (A ++ [x] ++ m :: B) from hsplit' ▸ hv.layout).readNode
    (show pointer + x.getNodeSize page.leafPage = _ by
      simp only [hptr, nodesSize_append, nodesSize_cons, nodesSize_nil]
      omega)
  have hpage : removeNode page pointer =
      { page with
        btrNodes := blit page.btrNodes (pointer - btrSize) (m'.writeNode page.leafPage ++ rest)
        btrPrefixTotal := page.btrPrefixTotal - (x.prefixLen + (m.prefixLen - m'.prefixLen))
        btrLength := pointer + m'.getNodeSize page.leafPage + rest.length } := by
    rw [removeNode, hv.layout.readNode hptr]
    dsimp only
    rw [hread]
    dsimp only
    rw [hnext, ← hend, ← hrest]
  have hsize : nodesSize page.leafPage (deletedNodes A x m B) +
      (x.getNodeSize page.leafPage + m.getNodeSize page.leafPage) =
      nodesSize page.leafPage (A ++ x :: m :: B) + m'.getNodeSize page.leafPage := by
    rw [deletedNodes, ← hm']
    simp only [nodesSize_append, nodesSize_cons, nodesSize_nil]
    omega
  rw [hpage]
  refine ⟨?_, ?_, ?_⟩
  · rw [deletedNodes, ← hm']
    refine Layout.splice [m'] endPtr hlay (by simpa using hw') hptr hend' ?_ rfl rfl rfl ?_
    · obtain ⟨pad, tail, hbytes, hpad⟩ := hlay.bytes
      have htake : page.btrNodes.takeD (pointer - btrSize) 0 = page.btrNodes.take (pointer - btrSize) := by
        refine List.takeD_eq_take _ ?_
        have hall : (writeNodes page.leafPage (A ++ [x, m] ++ B)).length =
            nodesSize page.leafPage (A ++ [x, m] ++ B) := writeNodes_length hlay.nodes
        rw [hbytes, List.length_append, List.length_append, hpad, hall, hptr, BtreePage.firstNode]
        simp only [nodesSize_append]
        omega
      rw [spliceNodes, ← hrest]
      simp only [writeNodes_cons, writeNodes_nil, List.append_nil, blit, htake, ← List.append_assoc]
      exact List.prefix_append _ _
    · simp only [hrestLen, nodesSize_append, nodesSize_cons, nodesSize_nil]
      omega
  · have htotal := hv.prefixTotal
    rw [deletedNodes, ← hm']
    simp only [prefixTotal_append, prefixTotal_cons, prefixTotal_nil] at htotal ⊢
    omega
  · have : page.btrLength = page.firstNode + nodesSize page.leafPage (A ++ x :: m :: B) := by
      rw [hlen, ← hsplit]
    simp only [nodesSize_append, nodesSize_cons] at hsize this ⊢
    omega

end

/-! ## Rebuilding one jump node -/

/-- The buffer holds the first bytes of the key of a node once its data are put into it. -/
theorem fillBytes_spec {newPrefix : ℕ} {jumpKey : List UInt8} {prev : Key} {n : IndexNode}
    (hle : n.prefixLen ≤ prev.length) (h : (prev.take n.prefixLen).take newPrefix <+: jumpKey) :
    (nodeKey prev n).take newPrefix <+: fillBytes newPrefix jumpKey n := by
  have hlen : (prev.take n.prefixLen).length = n.prefixLen := by
    rw [List.length_take]
    omega
  unfold fillBytes nodeKey
  by_cases hlt : n.prefixLen < newPrefix
  · rw [List.take_of_length_le (by omega)] at h
    rw [List.take_append, hlen, List.take_of_length_le (by omega)]
    split_ifs with hz
    · have := blit_front h hlen.ge (n.data.take (newPrefix - n.prefixLen))
      rwa [List.take_of_length_le (by omega)] at this
    · have hnil : n.data = [] := List.length_eq_zero_iff.1 (by
        simp only [not_and, not_not] at hz
        exact hz hlt)
      rw [hnil, List.take_nil, List.append_nil]
      exact h
  · rw [if_neg fun hz => hlt hz.1, List.take_append_of_le_length (by omega)]
    exact h

section
variable {d : Bool} {page : BtreePage} {js : List IndexJumpNode} {ns p q rest : List IndexNode}

/-- The walk collects the first bytes of the key before the node it ends at. -/
theorem fillKey_spec {newPrefix fuel : ℕ} {jumpKey : List UInt8}
    (hlay : Layout page js (p ++ q ++ rest)) (hn : Nodes d page.leafPage (p ++ q ++ rest))
    (hord : ∀ n ∈ q, n.isEndLevel = false) (hfuel : q.length ≤ fuel)
    (hend : q = [] → (lastKey [] p).take newPrefix <+: jumpKey)
    (hstart : ∀ n ∈ q.head?, ((lastKey [] p).take n.prefixLen).take newPrefix <+: jumpKey) :
    (lastKey [] (p ++ q)).take newPrefix <+:
      fillKey page newPrefix (page.firstNode + nodesSize page.leafPage (p ++ q)) fuel
        (page.firstNode + nodesSize page.leafPage p) jumpKey := by
  induction fuel generalizing p q jumpKey with
  | zero =>
    obtain rfl := List.length_eq_zero_iff.1 (Nat.le_zero.1 hfuel)
    simpa [fillKey] using hend rfl
  | succ fuel ih =>
    rw [fillKey]
    cases q with
    | nil => simpa using hend rfl
    | cons n q =>
      have hpos := n.getNodeSize_pos page.leafPage
      have hsplit : p ++ n :: q ++ rest = p ++ n :: (q ++ rest) := by simp
      have hsplit' : p ++ n :: q = (p ++ [n]) ++ q := by simp
      have hle := (hsplit ▸ hn).prefixLen_le (hord n (by simp))
      have hstep := fillBytes_spec hle (hstart n rfl)
      have hlast : lastKey [] (p ++ [n]) = nodeKey (lastKey [] p) n := by simp
      have hptr : page.firstNode + nodesSize page.leafPage p + n.getNodeSize page.leafPage =
          page.firstNode + nodesSize page.leafPage (p ++ [n]) := by
        simp only [nodesSize_append, nodesSize_cons, nodesSize_nil]
        omega
      have hread := (show Layout page js (p ++ n :: (q ++ rest)) from hsplit ▸ hlay).readNode rfl
      rw [if_pos (by simp only [nodesSize_append, nodesSize_cons]; omega), hread, hptr]
      rw [← hlast] at hstep
      rw [hsplit'] at hlay hn ⊢
      refine ih hlay hn (fun a ha => hord a (by simp [ha])) (by simpa using hfuel) (fun _ => hstep) ?_
      intro a _
      rw [List.take_take, Nat.min_comm, ← List.take_take]
      exact (List.take_prefix _ _).trans hstep

/-- A jump node that is cut keeps the bytes of the shorter prefix. -/
theorem cutJumpNode_spec {newPrefix : ℕ} {b : Key} {k : IndexJumpNode} (hT : newPrefix ≤ k.total)
    (hle : k.prefixLen ≤ b.length) :
    (cutJumpNode newPrefix k).total = newPrefix ∧
      (cutJumpNode newPrefix k).offset = k.offset ∧
      (cutJumpNode newPrefix k).prefixLen ≤ k.prefixLen ∧
      b.take (cutJumpNode newPrefix k).prefixLen ++ (cutJumpNode newPrefix k).data =
        (b.take k.prefixLen ++ k.data).take newPrefix := by
  have hlen : (b.take k.prefixLen).length = k.prefixLen := by
    rw [List.length_take]
    omega
  have htotal : k.total = k.prefixLen + k.data.length := rfl
  by_cases hgt : k.total > newPrefix
  · by_cases hpfx : k.prefixLen > newPrefix
    · rw [cutJumpNode, if_pos hgt, if_pos hpfx]
      refine ⟨rfl, rfl, hpfx.le, ?_⟩
      dsimp only
      rw [List.append_nil, List.take_append_of_le_length (by omega), List.take_take,
        Nat.min_eq_left hpfx.le]
    · rw [cutJumpNode, if_pos hgt, if_neg hpfx]
      refine ⟨?_, rfl, le_rfl, ?_⟩
      · simp only [IndexJumpNode.total, IndexJumpNode.length, List.length_take]
        omega
      · rw [List.take_append, hlen, List.take_of_length_le (l := b.take k.prefixLen) (by omega)]
  · rw [cutJumpNode, if_neg hgt]
    refine ⟨by omega, rfl, le_rfl, (List.take_of_length_le ?_).symm⟩
    rw [List.length_append, hlen]
    omega

/-- What the last of a chain of jump nodes stands for. -/
theorem JumpChain.last {start : ℕ} {leafNode : Bool} {ks : List IndexJumpNode} {j : IndexJumpNode}
    (h : JumpChain start leafNode ns [] ks) (hj : j ∈ ks.getLast?) :
    ∃ p n q, ns = p ++ n :: q ∧ j.offset = start + nodesSize leafNode p ∧
      n.isEndLevel = false ∧ j.total = n.prefixLen ∧
      jumpBytes [] ks = (lastKey [] p).take n.prefixLen := by
  obtain ⟨init, rfl⟩ := List.getLast?_eq_some_iff.1 hj
  obtain ⟨-, ⟨p, n, q, hns, hoff, hl, htotal, -, hbytes⟩, -⟩ := jumpChain_append.1 h
  exact ⟨p, n, q, hns, hoff, hl, htotal, by rw [jumpBytes_append]; exact hbytes⟩

/-- The rebuilt jump node leads to its node. `b` are the bytes that the given prefix is taken of,
of which the last jump node may hold only a part. -/
theorem DeleteState.rebuild_spec {s : DeleteState} {k : IndexJumpNode} {b : Key} {n : IndexNode}
    (hlay : Layout page js ns) (hn : Nodes d page.leafPage ns) (hns : ns = p ++ n :: q)
    (hoff : k.offset = page.firstNode + nodesSize page.leafPage p) (hl : n.isEndLevel = false)
    (hT : n.prefixLen ≤ k.total) (hle : k.prefixLen ≤ b.length)
    (hbytes : (b.take k.prefixLen ++ k.data).take n.prefixLen = (lastKey [] p).take n.prefixLen)
    (hchain : JumpChain page.firstNode page.leafPage ns [] s.jumpNodes)
    (hbefore : ∀ j ∈ s.jumpNodes.getLast?, j.offset < k.offset)
    (hsub : jumpBytes [] s.jumpNodes <+: b) (hfirst : s.jumpNodes = [] → k.prefixLen = 0)
    (hkey : jumpBytes [] s.jumpNodes <+: s.jumpKey ∨
      jumpBytes [] s.jumpNodes = b ∧ b.take k.prefixLen <+: s.jumpKey) :
    JumpTo page.firstNode page.leafPage ns (jumpBytes [] s.jumpNodes) (s.rebuild page k).1 ∧
      (s.rebuild page k).1.offset = k.offset ∧
      (jumpBytes [] s.jumpNodes).take (s.rebuild page k).1.prefixLen ++ (s.rebuild page k).1.data <+:
        (s.rebuild page k).2 := by
  obtain ⟨newB, hnewB⟩ : ∃ newB, newB = jumpBytes [] s.jumpNodes := ⟨_, rfl⟩
  obtain ⟨cut, hcut⟩ : ∃ cut, cut = cutJumpNode n.prefixLen k := ⟨_, rfl⟩
  obtain ⟨htotal, hoffCut, hcutLe, hcutBytes⟩ := cutJumpNode_spec hT hle
  rw [← hcut] at htotal hoffCut hcutLe hcutBytes
  rw [hbytes] at hcutBytes
  have hread : (page.readNode k.offset).1.prefixLen = n.prefixLen := by
    rw [(show Layout page js (p ++ n :: q) from hns ▸ hlay).readNode hoff]
  have hshare : shareJumpNode n.prefixLen s.jumpNodes.getLast? cut = cut := by
    rw [shareJumpNode, if_neg (by omega)]
  have hrun : s.rebuild page k =
      (let r := fillJumpNode page n.prefixLen s.jumpNodes.getLast? s.jumpKey cut
      (r.1, blit r.2 r.1.prefixLen r.1.data)) := by
    rw [DeleteState.rebuild]
    dsimp only
    rw [hread, ← hcut, hshare]
  rw [← hnewB] at hsub hkey ⊢
  have hlast : ∀ j ∈ s.jumpNodes.getLast?, j.total = newB.length := by
    intro j hj
    obtain ⟨p₁, n₁, q₁, rfl, -, hl₁, htotal₁, hbytes₁⟩ := hchain.last hj
    have := hn.prefixLen_le hl₁
    rw [hnewB, hbytes₁, htotal₁, List.length_take]
    omega
  have hnext := (show Nodes d page.leafPage (p ++ n :: q) from hns ▸ hn).prefixLen_le hl
  by_cases hwalk : s.jumpNodes.getLast?.any (cut.prefixLen > ·.total) = true
  · -- the last jump node was cut, and bytes between its prefix and this one's are missing
    obtain ⟨j, hj⟩ : ∃ j, j ∈ s.jumpNodes.getLast? := by
      cases hj : s.jumpNodes.getLast? with
      | none => simp [hj] at hwalk
      | some j => exact ⟨j, rfl⟩
    have hlt : newB.length < cut.prefixLen := by
      rw [Option.mem_def.1 hj] at hwalk
      rw [← hlast j hj]
      simpa using hwalk
    obtain ⟨key', hkey'⟩ : ∃ key', key' =
        fillKey page n.prefixLen cut.offset page.btrLength j.offset s.jumpKey := ⟨_, rfl⟩
    have hrun' : s.rebuild page k =
        (let data := (key'.drop newB.length).take (n.prefixLen - newB.length)
        ({ cut with
            prefixLen := newB.length
            data }, blit key' newB.length data)) := by
      rw [hrun, fillJumpNode, if_pos (Or.inr hwalk), Option.mem_def.1 hj]
      simp only [Option.map_some, Option.getD_some, hlast j hj, ← hkey']
    have hbuf : newB <+: s.jumpKey := by
      rcases hkey with h | ⟨rfl, -⟩
      · exact h
      · omega
    obtain ⟨p₁, n₁, q₁, hns₁, hoff₁, -, -, hbytes₁⟩ := hchain.last hj
    obtain ⟨mid, rfl⟩ : ∃ mid, p = p₁ ++ n₁ :: mid := by
      rcases split_cases (hns.symm.trans hns₁) with ⟨mid, hp, -⟩ | ⟨mid, rfl, -⟩
      · exact ⟨mid, hp⟩
      · have := hbefore j hj
        simp only [hoff, hoff₁, nodesSize_append] at this
        omega
    have hfill : (lastKey [] (p₁ ++ n₁ :: mid)).take n.prefixLen <+: key' := by
      rw [hkey', hoffCut, hoff, hoff₁]
      have hord := (show Nodes d page.leafPage (p₁ ++ n₁ :: mid ++ n :: q) from hns ▸ hn).ordinary
        (by simp)
      refine fillKey_spec (hns ▸ hlay) (hns ▸ hn) (fun a ha => (hord a (by simp [ha])).1) ?_
        (by simp) ?_
      · have := hlay.length_le
        simp only [hns, List.length_append, List.length_cons] at this ⊢
        omega
      · rintro a ⟨⟩
        rw [← hbytes₁, ← hnewB]
        exact (List.take_prefix _ _).trans hbuf
    obtain ⟨r, hr⟩ : newB <+: (lastKey [] (p₁ ++ n₁ :: mid)).take n.prefixLen := by
      rw [← hcutBytes]
      refine List.IsPrefix.trans ?_ (List.prefix_append _ _)
      exact List.prefix_take_iff.2 ⟨hsub, hlt.le⟩
    have hrlen : n.prefixLen - newB.length = r.length := by
      have := congrArg List.length hr
      rw [List.length_append, List.length_take] at this
      omega
    have hdata : (key'.drop newB.length).take (n.prefixLen - newB.length) = r := by
      obtain ⟨t, ht⟩ := hfill
      rw [← ht, ← hr, hrlen, List.append_assoc, List.drop_left, List.take_left]
    have htot : newB.length + r.length = n.prefixLen := by
      have := congrArg List.length hr
      rw [List.length_append, List.length_take] at this
      omega
    rw [hrun', hdata]
    refine ⟨⟨_, n, q, hns, hoffCut.trans hoff, hl, htot, le_rfl, ?_⟩, hoffCut, ?_⟩
    · rw [List.take_length, hr]
    · exact blit_front ((List.prefix_append _ _).trans (hr ▸ hfill)) le_rfl r
  · have hrun' : s.rebuild page k = (cut, blit s.jumpKey cut.prefixLen cut.data) := by
      rw [hrun, fillJumpNode, if_neg]
      rw [not_or, not_not]
      exact ⟨htotal, hwalk⟩
    have hcutNew : cut.prefixLen ≤ newB.length := by
      cases hj : s.jumpNodes.getLast? with
      | none =>
        have := hfirst (List.getLast?_eq_none_iff.1 hj)
        omega
      | some j =>
        rw [hj] at hwalk
        have := hlast j hj
        simp only [Option.any_some, decide_eq_true_eq, not_lt] at hwalk
        omega
    have htake : newB.take cut.prefixLen = b.take cut.prefixLen := by
      obtain ⟨t, rfl⟩ := hsub
      rw [List.take_append_of_le_length hcutNew]
    have hbuf : newB.take cut.prefixLen <+: s.jumpKey := by
      rcases hkey with h | ⟨rfl, h⟩
      · exact (List.take_prefix _ _).trans h
      · rw [← Nat.min_eq_left hcutLe, ← List.take_take]
        exact (List.take_prefix _ _).trans h
    rw [hrun']
    refine ⟨⟨p, n, q, hns, hoffCut.trans hoff, hl, htotal, hcutNew, ?_⟩, hoffCut, ?_⟩
    · rw [htake, hcutBytes]
    · have := blit_front hbuf (show cut.prefixLen ≤ _ by rw [List.length_take]; omega) cut.data
      rwa [List.take_take, Nat.min_self] at this

end

/-! ## The loop over the jump table -/

section
variable {start : ℕ} {leafNode d : Bool} {A B : List IndexNode} {x m : IndexNode} {bytes : Key}
  {j : IndexJumpNode} {offsetDeletePoint offsetNextPoint delta : ℕ}

/-- Where the jump node leads when `x` is gone: to the same node as before, of whose prefix it
still has all bytes. -/
theorem JumpTo.afterDelete (h : JumpTo start leafNode (A ++ x :: m :: B) bytes j)
    (hn : Nodes d leafNode (A ++ x :: m :: B)) (hx : x.isEndLevel = false)
    (hw : m.WellFormed leafNode)
    (hD : offsetDeletePoint = start + nodesSize leafNode A)
    (hN : offsetNextPoint = start + nodesSize leafNode (A ++ [x]))
    (hdelta : nodesSize leafNode (deletedNodes A x m B) + delta =
      nodesSize leafNode (A ++ x :: m :: B))
    (hne : j.offset ≠ offsetDeletePoint) :
    ∃ p n q, deletedNodes A x m B = p ++ n :: q ∧
      moveOffset offsetDeletePoint offsetNextPoint delta j.offset = start + nodesSize leafNode p ∧
      n.isEndLevel = false ∧ n.prefixLen ≤ j.total ∧
      (bytes.take j.prefixLen ++ j.data).take n.prefixLen = (lastKey [] p).take n.prefixLen ∧
      (j.offset < offsetDeletePoint → n.prefixLen = j.total) := by
  have hxpos := x.getNodeSize_pos leafNode
  have hmpos := m.getNodeSize_pos leafNode
  obtain ⟨m', hm'⟩ : ∃ m', m' = relink (nodeKey (lastKey [] A) x) (lastKey [] A) m := ⟨_, rfl⟩
  have hm'pos := m'.getNodeSize_pos leafNode
  rw [deletedNodes, ← hm'] at hdelta ⊢
  simp only [nodesSize_append, nodesSize_cons, nodesSize_nil] at hN hdelta
  obtain ⟨pre, n, post, hns, hoff, hl, htotal, hle, hbytes⟩ := h
  rw [hbytes]
  rcases split_cases hns with ⟨q, rfl, -⟩ | ⟨q, rfl, hq⟩
  · -- before the deleted node
    have hlt : j.offset < offsetDeletePoint := by
      have := n.getNodeSize_pos leafNode
      simp only [hoff, hD, nodesSize_append, nodesSize_cons]
      omega
    refine ⟨pre, n, q ++ [m'] ++ B, by simp, ?_, hl, htotal.ge, by rw [List.take_take, Nat.min_self],
      fun _ => htotal.symm⟩
    rw [moveOffset, if_neg (by omega), if_neg (by omega), hoff]
  · rw [nodesSize_append] at hoff
    rcases q with _ | ⟨a, _ | ⟨b, q⟩⟩
    · simp only [nodesSize_nil] at hoff
      omega
    · -- the next node
      obtain ⟨rfl, hq'⟩ := List.cons.inj hq
      obtain ⟨rfl, rfl⟩ := List.cons.inj hq'
      simp only [nodesSize_cons, nodesSize_nil] at hoff
      have hsplit : A ++ x :: m :: B = (A ++ [x]) ++ m :: B := by simp
      have hpx := (hn.linked hx).1
      have hmin := hn.lcp_around hx hl
      have hpfx : m'.prefixLen = min x.prefixLen m.prefixLen := by
        rw [hm', relink, if_neg (by simp [hl])]
        exact hmin
      refine ⟨A, m', B, by simp, ?_, by rw [hm']; simpa using hl, by rw [hpfx]; omega, ?_,
        fun _ => by omega⟩
      · rw [moveOffset, if_pos (by omega), hD]
      · rw [hpfx, List.take_take, Nat.min_eq_left (Nat.min_le_right _ _), lastKey_append,
          lastKey_cons, lastKey_nil]
        rw [take_eq_of_le_lcp (show min x.prefixLen m.prefixLen ≤
          lcp (lastKey [] A) (nodeKey (lastKey [] A) x) by omega)]
    · -- behind the next node
      obtain ⟨rfl, hq'⟩ := List.cons.inj hq
      obtain ⟨rfl, rfl⟩ := List.cons.inj hq'
      simp only [nodesSize_cons] at hoff
      refine ⟨A ++ [m'] ++ q, n, post, by simp, ?_, hl, htotal.ge, ?_, fun _ => by omega⟩
      · rw [moveOffset, if_neg (by omega), if_pos (by omega)]
        simp only [nodesSize_append, nodesSize_cons, nodesSize_nil]
        omega
      · have hkey : lastKey [] (A ++ [m'] ++ q) = lastKey [] (A ++ x :: m :: q) := by
          simp only [lastKey_append, lastKey_cons, lastKey_nil, hm',
            nodeKey_relink_of_wellFormed hw]
        rw [List.take_take, Nat.min_self, hkey]

theorem JumpTo.offset_afterDelete (h : JumpTo start leafNode (A ++ x :: m :: B) bytes j)
    (hD : offsetDeletePoint = start + nodesSize leafNode A)
    (hN : offsetNextPoint = start + nodesSize leafNode (A ++ [x]))
    (hdelta : nodesSize leafNode (deletedNodes A x m B) + delta =
      nodesSize leafNode (A ++ x :: m :: B))
    (hne : j.offset ≠ offsetDeletePoint) :
    j.offset < offsetDeletePoint ∨ j.offset = offsetNextPoint ∨
      offsetNextPoint < j.offset ∧ offsetDeletePoint + delta < j.offset := by
  by_cases hlt : j.offset < offsetDeletePoint
  · exact .inl hlt
  have hsplit : A ++ x :: m :: B = (A ++ [x]) ++ m :: B := by simp
  have hx := h.behind (by omega)
  by_cases heq : j.offset = offsetNextPoint
  · exact .inr (.inl heq)
  have hm := (show JumpTo start leafNode ((A ++ [x]) ++ m :: B) bytes j from hsplit ▸ h).behind
    (by omega)
  have hpos := (relink (nodeKey (lastKey [] A) x) (lastKey [] A) m).getNodeSize_pos leafNode
  simp only [deletedNodes, nodesSize_append, nodesSize_cons, nodesSize_nil] at hx hm hdelta hN
  exact .inr (.inr ⟨by omega, by omega⟩)

/-- Jump nodes keep their order. -/
theorem moveOffset_lt {a b : ℕ} (hDN : offsetDeletePoint < offsetNextPoint)
    (ha : a < offsetDeletePoint ∨ a = offsetNextPoint ∨
      offsetNextPoint < a ∧ offsetDeletePoint + delta < a)
    (hb : b < offsetDeletePoint ∨ b = offsetNextPoint ∨
      offsetNextPoint < b ∧ offsetDeletePoint + delta < b) (hlt : a < b) :
    moveOffset offsetDeletePoint offsetNextPoint delta a <
      moveOffset offsetDeletePoint offsetNextPoint delta b := by
  unfold moveOffset
  split_ifs <;> omega

end

/-- The page without the node `x`, and the jump nodes `js` that lead to the nodes with `x`. -/
structure Deletion (d : Bool) (page : BtreePage) (js : List IndexJumpNode) (A : List IndexNode)
    (x m : IndexNode) (B : List IndexNode) (offsetDeletePoint offsetNextPoint delta : ℕ) :
    Prop where
  layout : Layout page js (deletedNodes A x m B)
  nodes : Nodes d page.leafPage (deletedNodes A x m B)
  before : Nodes d page.leafPage (A ++ x :: m :: B)
  jumps : ValidJumps page.firstNode page.leafPage (A ++ x :: m :: B) js
  removing : x.isEndLevel = false
  next : m.WellFormed page.leafPage
  deletePoint : offsetDeletePoint = page.firstNode + nodesSize page.leafPage A
  nextPoint : offsetNextPoint = page.firstNode + nodesSize page.leafPage (A ++ [x])
  delta : nodesSize page.leafPage (deletedNodes A x m B) + delta =
    nodesSize page.leafPage (A ++ x :: m :: B)

/-- The state of the loop behind the jump nodes `js₁`, with `js₂` to come. The bytes of the last
jump node of the new table are a front part of those of the old one, or a removed jump node adds
the rest. -/
structure DeleteInv (page : BtreePage) (ns : List IndexNode) (js₁ js₂ : List IndexJumpNode)
    (offsetDeletePoint offsetNextPoint delta : ℕ) (s : DeleteState) : Prop where
  valid : ValidJumps page.firstNode page.leafPage ns s.jumpNodes
  size : s.jumpersNewSize = jumpNodesSize s.jumpNodes
  room : s.jumpersNewSize ≤ page.btrJumpSize
  count : s.jumpNodes.length ≤ js₁.length
  below : ∀ k ∈ s.jumpNodes, ∀ j ∈ js₂, j.offset ≠ offsetDeletePoint →
    k.offset < moveOffset offsetDeletePoint offsetNextPoint delta j.offset
  key : jumpBytes [] s.jumpNodes <+: s.jumpKey
  kept : s.removed = none → jumpBytes [] s.jumpNodes <+: jumpBytes [] js₁ ∧
    (s.jumpNodes = [] → jumpBytes [] js₁ = []) ∧
    ((∀ i ∈ js₁, i.offset < offsetDeletePoint) → jumpBytes [] s.jumpNodes = jumpBytes [] js₁)
  removed : ∀ r ∈ s.removed, r ∈ js₁ ∧ offsetDeletePoint ≤ r.offset ∧
    r.prefixLen ≤ (jumpBytes [] s.jumpNodes).length ∧
    jumpBytes [] js₁ = (jumpBytes [] s.jumpNodes).take r.prefixLen ++ r.data

section
variable {d : Bool} {page : BtreePage} {js js₁ js₂ : List IndexJumpNode} {A B ns : List IndexNode}
  {x m : IndexNode} {j : IndexJumpNode} {offsetDeletePoint offsetNextPoint delta : ℕ}
  {s : DeleteState}

/-- A jump node is left out when all before it lead to nodes before the deleted one. -/
theorem DeleteInv.skip {jumpKey : List UInt8}
    (h : DeleteInv page ns js₁ (j :: js₂) offsetDeletePoint offsetNextPoint delta s)
    (hall : ∀ i ∈ js₁, i.offset < offsetDeletePoint) (hge : offsetDeletePoint ≤ j.offset)
    (hle : j.prefixLen ≤ (jumpBytes [] js₁).length)
    (hkey : jumpBytes [] s.jumpNodes <+: jumpKey) :
    DeleteInv page ns (js₁ ++ [j]) js₂ offsetDeletePoint offsetNextPoint delta
      { s with
        removed := some j
        jumpKey } := by
  have hnone : s.removed = none := by
    cases hr : s.removed with
    | none => rfl
    | some r =>
      obtain ⟨hmem, hr, -⟩ := h.removed r hr
      have := hall r hmem
      omega
  have heq := (h.kept hnone).2.2 hall
  refine ⟨h.valid, h.size, h.room, h.count.trans (by simp),
    fun k hk i hi => h.below k hk i (by simp [hi]), hkey, by simp, ?_⟩
  rintro r ⟨⟩
  refine ⟨by simp, hge, heq ▸ hle, ?_⟩
  rw [jumpBytes_append, heq]
  rfl

/-- What a jump node takes from the state: `b` are the bytes that its prefix is taken of. -/
theorem DeleteInv.receive
    (h : DeleteInv page ns js₁ (j :: js₂) offsetDeletePoint offsetNextPoint delta s)
    (hle : j.prefixLen ≤ (jumpBytes [] js₁).length) :
    let k := s.receive offsetDeletePoint offsetNextPoint delta j
    k.1.total = j.total ∧ ∃ b, jumpBytes [] s.jumpNodes <+: b ∧ k.1.prefixLen ≤ b.length ∧
      b.take k.1.prefixLen ++ k.1.data = (jumpBytes [] js₁).take j.prefixLen ++ j.data ∧
      (s.jumpNodes = [] → k.1.prefixLen = 0) ∧
      (jumpBytes [] s.jumpNodes <+: k.2 ∨
        jumpBytes [] s.jumpNodes = b ∧ b.take k.1.prefixLen <+: k.2) := by
  intro k
  obtain ⟨newB, hnewB⟩ : ∃ newB, newB = jumpBytes [] s.jumpNodes := ⟨_, rfl⟩
  have hempty : s.jumpNodes = [] → newB = [] := by
    intro he
    rw [hnewB, he]
    rfl
  have hkey := h.key
  cases hr : s.removed with
  | none =>
    obtain ⟨hpfx, hnil, -⟩ := h.kept hr
    have hk : k = ({ j with offset := moveOffset offsetDeletePoint offsetNextPoint delta j.offset },
        s.jumpKey) := by
      simp only [k, DeleteState.receive, hr, donate, Option.any_none, Bool.false_eq_true, if_false]
    rw [hk]
    refine ⟨rfl, jumpBytes [] js₁, hpfx, hle, rfl, fun he => ?_, .inl hkey⟩
    rw [hnil he] at hle
    exact Nat.le_zero.1 hle
  | some r =>
    obtain ⟨-, -, hrle, hold⟩ := h.removed r hr
    rw [← hnewB] at hrle hold hkey ⊢
    have htake : (newB.take r.prefixLen).length = r.prefixLen := by
      rw [List.length_take]
      omega
    by_cases hgt : j.prefixLen > r.prefixLen
    · have hk : k = (⟨r.prefixLen, moveOffset offsetDeletePoint offsetNextPoint delta j.offset,
          r.data.take (j.prefixLen - r.prefixLen) ++ j.data⟩,
          blit s.jumpKey r.prefixLen (r.data.take (j.prefixLen - r.prefixLen) ++ j.data)) := by
        simp only [k, DeleteState.receive, hr, donate, Option.any_some, hgt, decide_true, if_true]
      have hlen : j.prefixLen ≤ r.prefixLen + r.data.length := by
        rw [hold, List.length_append, htake] at hle
        exact hle
      rw [hk]
      refine ⟨?_, newB, List.prefix_rfl, hrle, ?_, fun he => ?_, .inr ⟨rfl, ?_⟩⟩
      · simp only [IndexJumpNode.total, IndexJumpNode.length, List.length_append, List.length_take]
        omega
      · rw [hold, List.take_append, htake, List.take_of_length_le (l := newB.take _) (by omega),
          List.append_assoc]
      · rw [hempty he] at hrle
        exact Nat.le_zero.1 hrle
      · exact (List.prefix_append _ _).trans (blit_front hkey hrle _)
    · have hk : k = ({ j with
          offset := moveOffset offsetDeletePoint offsetNextPoint delta j.offset }, s.jumpKey) := by
        simp only [k, DeleteState.receive, hr, donate, Option.any_some, hgt, decide_false,
          Bool.false_eq_true, if_false]
      rw [hk]
      refine ⟨rfl, newB, List.prefix_rfl, by dsimp only; omega, ?_, fun he => ?_, .inl hkey⟩
      · dsimp only
        rw [hold, List.take_append_of_le_length (by omega), List.take_take, Nat.min_eq_left (by omega)]
      · rw [hempty he] at hrle
        have : r.prefixLen = 0 := Nat.le_zero.1 hrle
        dsimp only
        omega

/-- A jump node that stays is added to the new table. -/
theorem DeleteInv.add (hdel : Deletion d page js A x m B offsetDeletePoint offsetNextPoint delta)
    (hjs : js = js₁ ++ j :: js₂)
    (h : DeleteInv page (deletedNodes A x m B) js₁ (j :: js₂) offsetDeletePoint offsetNextPoint
      delta s) (hne : j.offset ≠ offsetDeletePoint) :
    let r := s.receive offsetDeletePoint offsetNextPoint delta j
    let k := { s with jumpKey := r.2 }.rebuild page r.1
    let size := s.jumpersNewSize + k.1.getJumpNodeSize
    r.1.offset ≠ page.firstNode → size ≤ page.btrJumpSize →
      DeleteInv page (deletedNodes A x m B) (js₁ ++ [j]) js₂ offsetDeletePoint offsetNextPoint delta
        ⟨s.jumpNodes ++ [k.1], none, k.2, size⟩ := by
  intro r k size hfirst hroom
  have hchain := hdel.jumps.chain
  rw [hjs, jumpChain_append] at hchain
  have hto := hchain.2.1
  have hle := hto.choose_spec.choose_spec.choose_spec.2.2.2.2.1
  obtain ⟨p, n, q, hns, hoff, hl, htotal, hbytes, hsame⟩ := hto.afterDelete hdel.before hdel.removing
    hdel.next hdel.deletePoint hdel.nextPoint hdel.delta hne
  obtain ⟨hrtotal, b, hb, hrle, hrbytes, hrnil, hrkey⟩ := h.receive hle
  have hroff : r.1.offset = moveOffset offsetDeletePoint offsetNextPoint delta j.offset := rfl
  obtain ⟨hkto, hkoff, hkbytes⟩ := DeleteState.rebuild_spec (s := { s with jumpKey := r.2 }) (k := r.1)
    hdel.layout hdel.nodes hns (hroff.trans hoff) hl (htotal.trans hrtotal.ge) hrle
    (by rw [hrbytes, hbytes]) h.valid.chain
    (fun i hi => h.below i (List.mem_of_getLast? hi) j (by simp) hne) hb hrnil hrkey
  have hnew : jumpBytes [] (s.jumpNodes ++ [k.1]) =
      (jumpBytes [] s.jumpNodes).take k.1.prefixLen ++ k.1.data := by
    rw [jumpBytes_append]
    rfl
  have hold : jumpBytes [] (js₁ ++ [j]) = (jumpBytes [] js₁).take j.prefixLen ++ j.data := by
    rw [jumpBytes_append]
    rfl
  -- both are the prefix of the same node
  have hfront : jumpBytes [] (s.jumpNodes ++ [k.1]) =
      (jumpBytes [] (js₁ ++ [j])).take n.prefixLen := by
    obtain ⟨p', n', q', hns', hoff', hl', -, -, hbytes'⟩ := hkto
    have hsplit : p' = p ∧ n' = n := by
      have hsz : nodesSize page.leafPage p' = nodesSize page.leafPage p := by
        have := hkoff.symm.trans hoff'
        rw [hroff, hoff] at this
        omega
      rcases split_cases (hns.symm.trans hns') with ⟨t, rfl, -⟩ | ⟨t, rfl, hq⟩
      · have := n'.getNodeSize_pos page.leafPage
        simp only [nodesSize_append, nodesSize_cons] at hsz
        omega
      · cases t with
        | nil => exact ⟨by simp, (List.cons.inj hq).1.symm⟩
        | cons a t =>
          have := a.getNodeSize_pos page.leafPage
          simp only [nodesSize_append, nodesSize_cons] at hsz
          omega
    rw [hsplit.1, hsplit.2] at hbytes'
    rw [hnew, hold, hbytes, hbytes']
  have hmove : ∀ i ∈ js₂, i.offset ≠ offsetDeletePoint →
      k.1.offset < moveOffset offsetDeletePoint offsetNextPoint delta i.offset := by
    intro i hi hine
    obtain ⟨bytes, hito⟩ := hdel.jumps.chain.mem (show i ∈ js by simp [hjs, hi])
    have hlt : j.offset < i.offset := by
      have hinc := hdel.jumps.increasing
      rw [hjs, List.map_append, List.map_cons] at hinc
      exact (List.pairwise_cons.1 (List.pairwise_append.1 hinc).2.1).1 _ (List.mem_map_of_mem hi)
    rw [hkoff, hroff]
    refine moveOffset_lt ?_
      (hto.offset_afterDelete hdel.deletePoint hdel.nextPoint hdel.delta hne)
      (hito.offset_afterDelete hdel.deletePoint hdel.nextPoint hdel.delta hine) hlt
    have hpos := x.getNodeSize_pos page.leafPage
    have hD := hdel.deletePoint
    have hN := hdel.nextPoint
    simp only [nodesSize_append, nodesSize_cons, nodesSize_nil] at hN
    omega
  constructor
  · constructor
    · exact jumpChain_append.2 ⟨h.valid.chain, hkto, trivial⟩
    · rw [List.map_append]
      refine List.pairwise_append.2 ⟨h.valid.increasing, by simp, ?_⟩
      intro a ha b hb
      obtain ⟨i, hi, rfl⟩ := List.mem_map.1 ha
      rw [List.map_singleton, List.mem_singleton] at hb
      rw [hb, hkoff]
      exact h.below i hi j (by simp) hne
    · intro i hi
      rcases List.mem_append.1 hi with hi | hi
      · exact h.valid.behindFirst i hi
      · rw [List.mem_singleton.1 hi]
        exact lt_of_le_of_ne hkto.offset_bounds.1 fun he => hfirst (hkoff.symm.trans he.symm)
  · simp [size, h.size]
  · exact hroom
  · simpa using h.count
  · intro i hi i' hi' hine
    rcases List.mem_append.1 hi with hi | hi
    · exact h.below i hi i' (by simp [hi']) hine
    · rw [List.mem_singleton.1 hi]
      exact hmove i' hi' hine
  · dsimp only
    rw [hnew]
    exact hkbytes
  · intro _
    dsimp only
    refine ⟨hfront ▸ List.take_prefix _ _, by simp, fun hall => ?_⟩
    rw [hfront, List.take_of_length_le]
    rw [hsame (hall j (by simp)), hold, List.length_append]
    simp only [IndexJumpNode.total, IndexJumpNode.length, List.length_take]
    omega
  · simp

/-- The loop keeps the invariant. -/
theorem deleteJumpLoop_inv
    (hdel : Deletion d page js A x m B offsetDeletePoint offsetNextPoint delta) :
    ∀ {js₁ js₂ : List IndexJumpNode} {s : DeleteState}, js = js₁ ++ js₂ →
      DeleteInv page (deletedNodes A x m B) js₁ js₂ offsetDeletePoint offsetNextPoint delta s →
      ∃ js₁' js₂', js = js₁' ++ js₂' ∧
        DeleteInv page (deletedNodes A x m B) js₁' js₂' offsetDeletePoint offsetNextPoint delta
          (deleteJumpLoop page offsetDeletePoint offsetNextPoint delta js₂.length
            (btrSize + jumpNodesSize js₁) s) := by
  intro js₁ js₂
  induction js₂ generalizing js₁ with
  | nil =>
    intro s hjs h
    exact ⟨js₁, [], hjs, h⟩
  | cons j js₂ ih =>
    intro s hjs h
    have hjs' : js = (js₁ ++ [j]) ++ js₂ := by simp [hjs]
    have hptr : btrSize + jumpNodesSize js₁ + j.getJumpNodeSize =
        btrSize + jumpNodesSize (js₁ ++ [j]) := by
      simp only [jumpNodesSize_append, jumpNodesSize_cons, jumpNodesSize_nil]
      omega
    have hread := (show Layout page (js₁ ++ j :: js₂) _ from hjs ▸ hdel.layout).readJumpNode rfl
    have hchain := hdel.jumps.chain
    rw [hjs, jumpChain_append] at hchain
    have hto := hchain.2.1
    have hle := hto.choose_spec.choose_spec.choose_spec.2.2.2.2.1
    have hbefore : ∀ i ∈ js₁, i.offset < j.offset := by
      have hinc := hdel.jumps.increasing
      rw [hjs, List.map_append, List.map_cons] at hinc
      exact fun i hi => (List.pairwise_append.1 hinc).2.2 _ (List.mem_map_of_mem hi) _ (by simp)
    have hpos := x.getNodeSize_pos page.leafPage
    have hD := hdel.deletePoint
    have hN := hdel.nextPoint
    rw [List.length_cons, deleteJumpLoop, hread, hptr]
    dsimp only
    by_cases hgo : j.offset < offsetDeletePoint ∨ j.offset ≥ offsetNextPoint
    · have hne : j.offset ≠ offsetDeletePoint := by
        simp only [nodesSize_append, nodesSize_cons, nodesSize_nil] at hN
        omega
      rw [if_pos hgo]
      by_cases hfirst : (s.receive offsetDeletePoint offsetNextPoint delta j).1.offset = page.firstNode
      · rw [if_pos hfirst]
        -- the node behind a deleted first one
        have hcases := hto.offset_afterDelete hD hN hdel.delta hne
        have hj := hdel.jumps.behindFirst j (by simp [hjs])
        have hfirst' : moveOffset offsetDeletePoint offsetNextPoint delta j.offset = page.firstNode :=
          hfirst
        have hnext : j.offset = offsetNextPoint ∧ offsetDeletePoint = page.firstNode := by
          unfold moveOffset at hfirst'
          split_ifs at hfirst' <;> omega
        have hnone : js₁ = [] := by
          refine List.eq_nil_iff_forall_not_mem.2 fun i hi => ?_
          obtain ⟨bytes, hito⟩ := hdel.jumps.chain.mem (show i ∈ js by simp [hjs, hi])
          have hi' := hdel.jumps.behindFirst i (by simp [hjs, hi])
          have := hito.behind (by omega)
          have := hbefore i hi
          omega
        subst hnone
        have hempty : s.jumpNodes = [] := List.length_eq_zero_iff.1 (Nat.le_zero.1 h.count)
        exact ih hjs' (h.skip (by simp) (by omega) hle (by simp [hempty, jumpBytes]))
      · rw [if_neg hfirst]
        split_ifs with hsize
        · exact ⟨js₁, _, hjs, h⟩
        · exact ih hjs' (h.add hdel hjs hne hfirst (Nat.not_lt.1 hsize))
    · rw [if_neg hgo]
      -- the deleted node
      have heq : j.offset = offsetDeletePoint := by
        by_contra hne
        have := hto.offset_afterDelete hD hN hdel.delta hne
        omega
      exact ih hjs' (h.skip (fun i hi => heq ▸ hbefore i hi) heq.ge hle h.key)

end

/-! ## The page after the deletion -/

section
variable {pageSize : ℕ} {d : Bool} {page : BtreePage} {js : List IndexJumpNode}
  {A B : List IndexNode} {x m : IndexNode} {pointer : ℕ}

/-- A new jump table in the room of the old one. -/
theorem Layout.replaceJumps {ns : List IndexNode} {js' : List IndexJumpNode}
    (h : Layout page js ns) (hj : ∀ j ∈ js', j.WellFormed)
    (hroom : jumpNodesSize js' ≤ page.btrJumpSize) :
    Layout { page with
      btrJumpCount := js'.length
      btrNodes := blit page.btrNodes 0 (writeJumpNodes js') } js' ns := by
  obtain ⟨pad, tail, hbytes, hpad⟩ := h.bytes
  have hlen : (writeJumpNodes js').length = jumpNodesSize js' := writeJumpNodes_length hj
  have hnew : blit page.btrNodes 0 (writeJumpNodes js') = writeJumpNodes js' ++
      (writeJumpNodes js ++ pad).drop (jumpNodesSize js') ++ writeNodes page.leafPage ns ++ tail := by
    rw [blit, hbytes, hlen, Nat.zero_add, List.append_assoc _ _ tail, List.drop_append_of_le_length
      (by omega)]
    simp [List.takeD]
  refine ⟨⟨_, tail, hnew, ?_⟩, rfl, h.length, h.nodes, hj⟩
  rw [List.length_append, hlen, List.length_drop, hpad]
  dsimp only
  omega

/-- The fields of the page that a deletion leaves alone. -/
theorem deleteNode_header :
    (deleteNode pageSize page pointer).1.btrLevel = page.btrLevel ∧
      (deleteNode pageSize page pointer).1.btrSibling = page.btrSibling ∧
      (deleteNode pageSize page pointer).1.btrLeftSibling = page.btrLeftSibling ∧
      (deleteNode pageSize page pointer).1.btrJumpSize = page.btrJumpSize :=
  ⟨rfl, rfl, rfl, rfl⟩

/-- The page without the node `x` is valid again, with a jump table in the room of the old one. -/
theorem deleteNode_next (hv : ValidBucket pageSize d page js (A ++ x :: m :: B))
    (hps : pageSize ≤ maxPageSize) (hx : x.isEndLevel = false) (hb : x.isEndBucket = false)
    (hptr : pointer = page.firstNode + nodesSize page.leafPage A) :
    ∃ js', ValidBucket pageSize d (deleteNode pageSize page pointer).1 js' (deletedNodes A x m B) ∧
      jumpNodesSize js' ≤ page.btrJumpSize := by
  obtain ⟨hlay, htotal, hsize⟩ := layout_removeNode hv hx hps hptr
  have hn' := hv.nodes.delete hx hb
  have hw : m.WellFormed page.leafPage := hv.layout.nodes m (by simp)
  have hread : (page.readNode pointer).2 =
      page.firstNode + nodesSize page.leafPage (A ++ [x]) := by
    rw [hv.layout.readNode hptr]
    simp only [hptr, nodesSize_append, nodesSize_cons, nodesSize_nil]
    omega
  have hdel : Deletion d (removeNode page pointer) js A x m B pointer (page.readNode pointer).2
      (page.btrLength - (removeNode page pointer).btrLength) :=
    ⟨hlay, hn', hv.nodes, hv.jumps, hx, hw, hptr, hread, hsize⟩
  obtain ⟨js₁, js₂, hjs, hinv⟩ := deleteJumpLoop_inv hdel
    (s := ⟨[], none, [], 0⟩) (List.nil_append js).symm
    ⟨⟨trivial, by simp, by simp⟩, rfl, Nat.zero_le _, le_rfl, by simp, by simp [jumpBytes],
      fun _ => ⟨List.prefix_rfl, fun _ => rfl, fun _ => rfl⟩, by simp⟩
  rw [← hv.layout.jumpCount, jumpNodesSize_nil, Nat.add_zero] at hinv
  have hpage : deleteNode pageSize page pointer = (_, pageContents pageSize _) := rfl
  obtain ⟨s, hs⟩ : ∃ s, s = deleteJumpLoop (removeNode page pointer) pointer
      (page.readNode pointer).2 (page.btrLength - (removeNode page pointer).btrLength)
      page.btrJumpCount btrSize ⟨[], none, [], 0⟩ := ⟨_, rfl⟩
  rw [← hs] at hinv
  have hcount : s.jumpNodes.length < 256 := by
    have := hv.jumpCount
    have := hinv.count
    rw [hjs, List.length_append] at *
    omega
  have hlen : (removeNode page pointer).btrLength ≤ pageSize := by
    have := hv.fits
    have := hv.layout.length
    have hfirst : (removeNode page pointer).firstNode = page.firstNode := rfl
    have hleaf : (removeNode page pointer).leafPage = page.leafPage := rfl
    rw [hlay.length, hfirst, hleaf]
    omega
  have hroom : jumpNodesSize s.jumpNodes ≤ (removeNode page pointer).btrJumpSize :=
    hinv.size ▸ hinv.room
  have hwf : ∀ j ∈ s.jumpNodes, j.WellFormed := by
    intro j hj
    obtain ⟨bytes, hto⟩ := hinv.valid.chain.mem hj
    have hbounds := hto.offset_bounds.2
    have hlengths := hinv.valid.lengths hlay.nodes j hj
    rw [← hlay.length] at hbounds
    rw [maxPageSize] at hps
    exact ⟨hlengths.1, hlengths.2, by omega⟩
  have hrun : (deleteNode pageSize page pointer).1 =
      { removeNode page pointer with
        btrJumpCount := s.jumpNodes.length
        btrNodes := blit (removeNode page pointer).btrNodes 0 (writeJumpNodes s.jumpNodes) } := by
    rw [deleteNode]
    dsimp only
    rw [← hs, Nat.mod_eq_of_lt hcount]
  rw [hrun]
  refine ⟨s.jumpNodes, ⟨hlay.replaceJumps hwf hroom, hn', hinv.valid, hcount, htotal, ?_, hlen⟩,
    hroom⟩
  intro e he
  obtain ⟨hold, hnew⟩ := decode_deletedNodes (A := A) (x := x) (B := B) hw hv.nodes.last_of_endLevel
  refine hv.keys e ?_
  rw [hnew] at he
  rw [hold]
  rcases List.mem_append.1 he with he | he
  · exact List.mem_append_left _ he
  · exact List.mem_append_right _ (List.mem_cons_of_mem _ he)

/-- Deleting a node leaves a valid bucket whose entries are the old ones without that of the node,
and which is shorter by the bytes that the nodes take less. -/
theorem deleteNode_valid {post : List IndexNode}
    (hv : ValidBucket pageSize d page js (A ++ x :: post)) (hps : pageSize ≤ maxPageSize)
    (hx : x.isEndLevel = false) (hb : x.isEndBucket = false)
    (hptr : pointer = page.firstNode + nodesSize page.leafPage A) :
    let page' := (deleteNode pageSize page pointer).1
    ∃ js' ns', ValidBucket pageSize d page' js' ns' ∧
      jumpNodesSize js' ≤ page'.btrJumpSize ∧
      decode [] ns' = (decode [] (A ++ x :: post)).eraseIdx A.length ∧
      page'.btrLength + nodesSize page.leafPage (A ++ x :: post) =
        page.btrLength + nodesSize page.leafPage ns' := by
  intro page'
  obtain ⟨m, B, rfl⟩ := hv.nodes.exists_next hx hb
  obtain ⟨js', hv', hroom⟩ := deleteNode_next hv hps hx hb hptr
  refine ⟨js', deletedNodes A x m B, hv', hroom,
    decode_erased (hv.layout.nodes m (by simp)) hv.nodes.last_of_endLevel, ?_⟩
  · have h := hv.layout.length
    have h' := hv'.layout.length
    have hfirst : page'.firstNode = page.firstNode := rfl
    have hleaf : page'.leafPage = page.leafPage := rfl
    rw [h, h', hfirst, hleaf]
    omega

/-- A page with three jump nodes; the second one leads to the node that is deleted. -/
def deletionNodes : List IndexNode :=
  [⟨0, [65, 66, 67], 1, 0, false, false⟩, ⟨2, [68], 2, 0, false, false⟩,
    ⟨3, [69, 70], 3, 0, false, false⟩, ⟨4, [71], 4, 0, false, false⟩, IndexNode.endLevel]

def deletionJumps : List IndexJumpNode := [⟨0, 62, [65, 66]⟩, ⟨2, 66, [68]⟩, ⟨3, 72, [69]⟩]

theorem validBucket_deletion :
    ValidBucket 4096 false (bucketOf 0 deletionJumps deletionNodes) deletionJumps deletionNodes where
  layout := layout_bucketOf (by decide) (by decide)
  nodes := .inl (by decide)
  jumps := ⟨⟨⟨deletionNodes.take 1, ⟨2, [68], 2, 0, false, false⟩, deletionNodes.drop 2, by decide⟩,
    ⟨deletionNodes.take 2, ⟨3, [69, 70], 3, 0, false, false⟩, deletionNodes.drop 3, by decide⟩,
    ⟨deletionNodes.take 3, ⟨4, [71], 4, 0, false, false⟩, deletionNodes.drop 4, by decide⟩, trivial⟩,
    by decide, by decide⟩
  jumpCount := by decide
  prefixTotal := rfl
  keys := by decide
  fits := by decide

theorem deleteNode_valid_witness :
    ∃ js' ns', ValidBucket 4096 false
        (deleteNode 4096 (bucketOf 0 deletionJumps deletionNodes) 66).1 js' ns' ∧
      decode [] ns' = (decode [] deletionNodes).eraseIdx 2 := by
  obtain ⟨js', ns', hv, -, hdecode, -⟩ := @deleteNode_valid 4096 false _ deletionJumps
    (deletionNodes.take 2) ⟨3, [69, 70], 3, 0, false, false⟩ 66 (deletionNodes.drop 3)
    validBucket_deletion (by decide) rfl rfl (by decide)
  exact ⟨js', ns', hv, hdecode⟩

end

end FirebirdCore.Btr
