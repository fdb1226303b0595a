import FirebirdCore.Btr.Page
import FirebirdCore.Lib.Buffer

/-!
# Valid buckets and how they are edited

`ValidBucket` is the invariant of an index page. An update replaces a run of nodes and compresses
the node behind it against its new predecessor (`relink`); jump nodes to the nodes before the run
stay and those behind it move with their nodes.
-/
namespace FirebirdCore.Btr
open FirebirdCore.KeyOrder FirebirdCore.Buffer

/-- The invariant of a bucket that holds the jump nodes `js` and the nodes `ns`. -/
structure ValidBucket (pageSize : ℕ) (d : Bool) (page : BtreePage) (js : List IndexJumpNode)
    (ns : List IndexNode) : Prop where
  layout : Layout page js ns
  nodes : Nodes d page.leafPage ns
  jumps : ValidJumps page.firstNode page.leafPage ns js
  jumpCount : js.length < 256
  prefixTotal : page.btrPrefixTotal = prefixTotal ns
  keys : ∀ e ∈ decode [] ns, e.key.length < pageSize / 4
  fits : page.btrLength ≤ pageSize

/-! ## Nodes behind another key -/

/-- The node for a key as it is stored behind `prev`. -/
def storeNode (prev key : Key) (recordNumber pageNumber : ℕ) : IndexNode :=
  ⟨lcp prev key, key.drop (lcp prev key), recordNumber, pageNumber, false, false⟩

/-- A node that stood behind the key `prev` as it is stored behind `prev'`. -/
def relink (prev prev' : Key) (n : IndexNode) : IndexNode :=
  if n.isEndLevel then n
  else
    { n with
      prefixLen := lcp prev' (nodeKey prev n)
      data := (nodeKey prev n).drop (lcp prev' (nodeKey prev n)) }

theorem take_append_drop_lcp (prev key : Key) :
    prev.take (lcp prev key) ++ key.drop (lcp prev key) = key := by
  rw [take_lcp, List.take_append_drop]

@[simp] theorem nodeKey_storeNode (prev key : Key) (recordNumber pageNumber : ℕ) :
    nodeKey prev (storeNode prev key recordNumber pageNumber) = key :=
  take_append_drop_lcp prev key

@[simp] theorem entryOf_storeNode (prev key : Key) (recordNumber pageNumber : ℕ) :
    entryOf prev (storeNode prev key recordNumber pageNumber) =
      ⟨key, recordNumber, pageNumber, false, false⟩ := by
  rw [entryOf, nodeKey_storeNode]
  rfl

@[simp] theorem relink_isEndLevel (prev prev' : Key) (n : IndexNode) :
    (relink prev prev' n).isEndLevel = n.isEndLevel := by
  unfold relink
  split_ifs <;> rfl

@[simp] theorem relink_isEndBucket (prev prev' : Key) (n : IndexNode) :
    (relink prev prev' n).isEndBucket = n.isEndBucket := by
  unfold relink
  split_ifs <;> rfl

theorem nodeKey_relink {prev prev' : Key} {n : IndexNode} (hl : n.isEndLevel = false) :
    nodeKey prev' (relink prev prev' n) = nodeKey prev n := by
  rw [relink, if_neg (by simp [hl])]
  exact take_append_drop_lcp _ _

/-- The key of a well-formed node stays, that of the end-of-level marker being empty. -/
theorem nodeKey_relink_of_wellFormed {leafNode : Bool} {prev prev' : Key} {n : IndexNode}
    (hw : n.WellFormed leafNode) : nodeKey prev' (relink prev prev' n) = nodeKey prev n := by
  cases hl : n.isEndLevel with
  | true =>
    rw [relink, if_pos hl, hw.endLevel hl]
    rfl
  | false => exact nodeKey_relink hl

theorem linked_storeNode {d : Bool} {prev : Option Key} {key : Key} {recordNumber pageNumber : ℕ}
    (h : ∀ k ∈ prev, AtMost d k key) :
    Linked d prev (storeNode (prev.getD []) key recordNumber pageNumber) := by
  refine ⟨by rw [nodeKey_storeNode]; rfl, fun k hk => ?_⟩
  have hk' : prev.getD [] = k := by rw [hk]; rfl
  rw [← hk', nodeKey_storeNode, hk']
  exact h k hk

theorem linked_relink {d : Bool} {prev : Key} {prev' : Option Key} {n : IndexNode}
    (hl : n.isEndLevel = false) (h : ∀ k ∈ prev', AtMost d k (nodeKey prev n)) :
    Linked d prev' (relink prev (prev'.getD []) n) := by
  refine ⟨?_, fun k hk => ?_⟩
  · rw [nodeKey_relink hl, relink, if_neg (by simp [hl])]
  · have hk' : prev'.getD [] = k := by rw [hk]; rfl
    rw [← hk', nodeKey_relink hl, hk']
    exact h k hk

/-- A chain goes on behind another key that is not above its first node. -/
theorem Chain.relink {d : Bool} {prev : Option Key} {n : IndexNode} {post : List IndexNode}
    (prev' : Option Key) (h : Chain d prev (n :: post))
    (hle : n.isEndLevel = false → ∀ k ∈ prev', AtMost d k (nodeKey (prev.getD []) n)) :
    Chain d prev' (Btr.relink (prev.getD []) (prev'.getD []) n :: post) := by
  cases hl : n.isEndLevel with
  | true => exact (chain_endLevel (by simpa using hl)).2 ((chain_endLevel hl).1 h)
  | false =>
    have hlink := linked_relink hl (hle hl)
    cases hb : n.isEndBucket with
    | true =>
      exact (chain_endBucket (by simpa using hl) (by simpa using hb)).2
        ⟨hlink, ((chain_endBucket hl hb).1 h).2⟩
    | false =>
      rw [chain_node (by simpa using hl) (by simpa using hb), nodeKey_relink hl]
      exact ⟨hlink, ((chain_node hl hb).1 h).2⟩

/-- The nodes behind `pre` may be replaced by others that follow its last key. -/
theorem Chain.replace {d : Bool} {prev : Option Key} {pre ns ns' : List IndexNode}
    (h : Chain d prev (pre ++ ns)) (hne : ns ≠ []) (h' : Chain d (prevKey prev pre) ns') :
    Chain d prev (pre ++ ns') := by
  induction pre generalizing prev with
  | nil => exact h'
  | cons n pre ih =>
    obtain ⟨hl, hb, ht⟩ := Chain.tail h (by simp [hne])
    rw [prevKey_cons] at h'
    exact (chain_node hl hb).2 ⟨Chain.linked h hl, ih ht h'⟩

/-- The end-of-level marker has an empty key wherever it stands. -/
theorem decode_relink {leafNode : Bool} {n : IndexNode} {post : List IndexNode} (prev prev' : Key)
    (hw : n.WellFormed leafNode) (hpost : n.isEndLevel = true → post = []) :
    decode prev' (relink prev prev' n :: post) = decode prev (n :: post) := by
  cases hl : n.isEndLevel with
  | true =>
    obtain rfl := hpost hl
    obtain rfl := hw.endLevel hl
    simp [relink, entryOf, nodeKey, IndexNode.endLevel]
  | false =>
    rw [decode_cons, decode_cons, entryOf, entryOf, nodeKey_relink hl, relink_isEndLevel,
      relink_isEndBucket]
    simp [relink, hl]

theorem storeNode_wellFormed {leafNode : Bool} {prev key : Key} {recordNumber pageNumber : ℕ}
    (hkey : key.length < 2 ^ 14) (hrec : recordNumber < 2 ^ 40) (hpage : pageNumber < 2 ^ 32)
    (hleaf : leafNode = true → pageNumber = 0) :
    (storeNode prev key recordNumber pageNumber).WellFormed leafNode where
  endLevel := by simp [storeNode]
  recordNumber := hrec
  pageNumber := hpage
  leaf := hleaf
  prefixLen := (lcp_le_right prev key).trans_lt hkey
  length := by
    simp only [storeNode, IndexNode.length, List.length_drop]
    omega

theorem relink_wellFormed {leafNode : Bool} {prev prev' : Key} {n : IndexNode}
    (hw : n.WellFormed leafNode) (hkey : (nodeKey prev n).length < 2 ^ 14) :
    (relink prev prev' n).WellFormed leafNode := by
  unfold relink
  split_ifs with hl
  · exact hw
  · refine ⟨fun h => absurd h hl, hw.recordNumber, hw.pageNumber, hw.leaf, ?_, ?_⟩
    · exact (lcp_le_right _ _).trans_lt hkey
    · simp only [IndexNode.length, List.length_drop]
      omega

/-- What moves to the prefix of a node behind a new one are bytes of the new node. -/
theorem getNodeSize_le_insert {leafNode : Bool} {prev key : Key} {n : IndexNode}
    {recordNumber pageNumber : ℕ} (hw : n.WellFormed leafNode)
    (hpfx : n.isEndLevel = false →
      n.prefixLen = min (lcp prev key) (lcp key (nodeKey prev n)))
    (hlen : n.isEndLevel = false → (nodeKey prev n).length = n.prefixLen + n.length)
    (hkey : key.length < 2 ^ 14) :
    n.getNodeSize leafNode ≤ (storeNode prev key recordNumber pageNumber).getNodeSize leafNode +
      (relink prev key n).getNodeSize leafNode := by
  cases hl : n.isEndLevel with
  | true =>
    rw [relink, if_pos hl]
    exact Nat.le_add_left _ _
  | false =>
    have hnew := (IndexNode.getNodeSize_bounds leafNode
      (show (storeNode prev key recordNumber pageNumber).isEndLevel = false from rfl)).1
    have htwo := ((storeNode prev key recordNumber pageNumber).headSize_bounds leafNode).1
    have hle := lcp_le_right key (nodeKey prev n)
    have hle' := lcp_le_left key (nodeKey prev n)
    have hmin := hpfx hl
    have hkn := hlen hl
    have hnext := IndexNode.getNodeSize_le_of_moved leafNode (relink prev key n)
      (lcp key (nodeKey prev n) - n.prefixLen) hl (by simpa using hl)
      (by simp) (by simp [relink, hl]) (by simp [relink, hl])
      (by simp only [relink, hl, Bool.false_eq_true, if_false]; omega)
      (by simp only [relink, hl, Bool.false_eq_true, if_false, IndexNode.length, List.length_drop] at *
          omega)
      hw.length (by simp only [relink, hl, Bool.false_eq_true, if_false]; omega)
    simp only [storeNode, IndexNode.length, List.length_drop] at hnew
    simp only [storeNode] at htwo ⊢
    omega

/-! ## Jump nodes into an edited bucket -/

/-- Two ways to split a bucket at a node: the node lies before the cut or behind it. -/
theorem split_cases {A B pre post : List IndexNode} {n : IndexNode}
    (h : A ++ B = pre ++ n :: post) :
    (∃ q, A = pre ++ n :: q ∧ post = q ++ B) ∨ ∃ q, pre = A ++ q ∧ B = q ++ n :: post := by
  rcases List.append_eq_append_iff.1 h with ⟨q, hq, hB⟩ | ⟨q, hA, hq⟩
  · exact .inr ⟨q, hq, hB⟩
  · cases q with
    | nil =>
      simp only [List.append_nil, List.nil_append] at hA hq
      exact .inr ⟨[], by simp [hA], by simp [hq]⟩
    | cons m q =>
      obtain ⟨rfl, rfl⟩ := List.cons.inj hq
      exact .inl ⟨q, hA, rfl⟩

variable {start t : ℕ} {leafNode : Bool} {A A' B C ns ns' : List IndexNode} {prevBytes : Key}
  {j : IndexJumpNode}

/-- A jump node to a node before the cut does not see what follows the cut. -/
theorem JumpTo.front (h : JumpTo start leafNode (A ++ B) prevBytes j)
    (hlt : j.offset < start + nodesSize leafNode A) :
    JumpTo t leafNode (A ++ C) prevBytes { j with offset := j.offset - start + t } := by
  obtain ⟨pre, n, post, hns, hoff, hl, ht, hle, hbytes⟩ := h
  rcases split_cases hns with ⟨q, rfl, rfl⟩ | ⟨q, rfl, rfl⟩
  · exact ⟨pre, n, q ++ C, by simp, by simp only [hoff]; omega, hl, ht, hle, hbytes⟩
  · rw [nodesSize_append] at hoff
    omega

/-- A jump node to a node behind the cut moves with the nodes. -/
theorem JumpTo.back (h : JumpTo start leafNode (A ++ B) prevBytes j)
    (hge : start + nodesSize leafNode A ≤ j.offset) (hlast : lastKey [] A' = lastKey [] A) :
    JumpTo t leafNode (A' ++ B) prevBytes
      { j with offset := j.offset - (start + nodesSize leafNode A) +
        (t + nodesSize leafNode A') } := by
  obtain ⟨pre, n, post, hns, hoff, hl, ht, hle, hbytes⟩ := h
  rcases split_cases hns with ⟨q, rfl, rfl⟩ | ⟨q, rfl, rfl⟩
  · have := n.getNodeSize_pos leafNode
    simp only [nodesSize_append, nodesSize_cons] at hge
    omega
  · refine ⟨A' ++ q, n, post, by simp, ?_, hl, ht, hle, ?_⟩
    · simp only [nodesSize_append] at hoff ⊢
      omega
    · rw [lastKey_append] at hbytes ⊢
      rw [hlast]
      exact hbytes

/-- A jump node that does not lead to a node leads to the end of that node or further. -/
theorem JumpTo.behind {n : IndexNode} (h : JumpTo start leafNode (A ++ n :: B) prevBytes j)
    (hlt : start + nodesSize leafNode A < j.offset) :
    start + nodesSize leafNode (A ++ [n]) ≤ j.offset := by
  obtain ⟨pre, m, post, hns, hoff, -⟩ := h
  rcases split_cases hns with ⟨q, rfl, -⟩ | ⟨q, rfl, hq⟩
  · simp only [nodesSize_append, nodesSize_cons] at hlt
    omega
  · cases q with
    | nil => simp [hoff] at hlt
    | cons a q =>
      obtain ⟨rfl, -⟩ := List.cons.inj hq
      simp only [hoff, nodesSize_append, nodesSize_cons, nodesSize_nil]
      omega

theorem JumpTo.offset_bounds (h : JumpTo start leafNode ns prevBytes j) :
    start ≤ j.offset ∧ j.offset < start + nodesSize leafNode ns := by
  obtain ⟨pre, n, post, rfl, hoff, -⟩ := h
  have := n.getNodeSize_pos leafNode
  simp only [hoff, nodesSize_append, nodesSize_cons]
  omega

/-- A jump node moves with the first node. -/
theorem JumpTo.shift (h : JumpTo start leafNode ns prevBytes j) :
    JumpTo t leafNode ns prevBytes { j with offset := j.offset - start + t } := by
  have hns : ns = ns ++ [] := by simp
  have hb := h.offset_bounds
  rw [hns] at h ⊢
  exact h.front hb.2

/-- A change of the jump nodes that keeps their prefix bytes. -/
theorem JumpChain.map {js : List IndexJumpNode} {f : IndexJumpNode → IndexJumpNode}
    (h : JumpChain start leafNode ns prevBytes js) (hp : ∀ j, (f j).prefixLen = j.prefixLen)
    (hd : ∀ j, (f j).data = j.data)
    (hto : ∀ j ∈ js, ∀ bytes, JumpTo start leafNode ns bytes j →
      JumpTo t leafNode ns' bytes (f j)) :
    JumpChain t leafNode ns' prevBytes (js.map f) := by
  induction js generalizing prevBytes with
  | nil => trivial
  | cons j js ih =>
    refine ⟨hto j (by simp) _ h.1, ?_⟩
    rw [hp, hd]
    exact ih h.2 fun k hk => hto k (by simp [hk])

theorem JumpChain.mem {js : List IndexJumpNode} (h : JumpChain start leafNode ns prevBytes js)
    (hj : j ∈ js) : ∃ bytes, JumpTo start leafNode ns bytes j := by
  induction js generalizing prevBytes with
  | nil => simp at hj
  | cons k js ih =>
    rcases List.mem_cons.1 hj with rfl | hj
    · exact ⟨_, h.1⟩
    · exact ih h.2 hj

/-- Jump nodes change with the nodes when their order is kept. -/
theorem ValidJumps.map {js : List IndexJumpNode} {f : IndexJumpNode → IndexJumpNode}
    (h : ValidJumps start leafNode ns js) (hp : ∀ j, (f j).prefixLen = j.prefixLen)
    (hd : ∀ j, (f j).data = j.data)
    (hto : ∀ j ∈ js, ∀ bytes, JumpTo start leafNode ns bytes j →
      JumpTo t leafNode ns' bytes (f j))
    (hmono : ∀ j ∈ js, ∀ k ∈ js, j.offset < k.offset → (f j).offset < (f k).offset)
    (hfirst : ∀ j ∈ js, start < j.offset → t < (f j).offset) :
    ValidJumps t leafNode ns' (js.map f) where
  chain := h.chain.map hp hd hto
  increasing := by
    have := List.pairwise_map.1 h.increasing
    rw [List.map_map, List.pairwise_map]
    exact this.imp_of_mem fun {a b} ha hb hlt => hmono a ha b hb hlt
  behindFirst := by
    intro k hk
    obtain ⟨j, hj, rfl⟩ := List.mem_map.1 hk
    exact hfirst j hj (h.behindFirst j hj)

theorem ValidJumps.take {js : List IndexJumpNode} (h : ValidJumps start leafNode ns js) (k : ℕ) :
    ValidJumps start leafNode ns (js.take k) where
  chain := by
    have := h.chain
    rw [← List.take_append_drop k js, jumpChain_append] at this
    exact this.1
  increasing := h.increasing.sublist ((List.take_sublist k js).map _)
  behindFirst := fun j hj => h.behindFirst j (List.mem_of_mem_take hj)

/-- The jump nodes of well-formed nodes have lengths that fit the encoding. -/
theorem ValidJumps.lengths {js : List IndexJumpNode} (h : ValidJumps start leafNode ns js)
    (hw : ∀ n ∈ ns, n.WellFormed leafNode) :
    ∀ j ∈ js, j.prefixLen < 2 ^ 14 ∧ j.length < 2 ^ 14 := by
  intro j hj
  obtain ⟨bytes, pre, n, post, rfl, -, -, htotal, -⟩ := h.chain.mem hj
  have := (hw n (by simp)).prefixLen
  rw [← htotal, IndexJumpNode.total] at this
  omega

/-! ## Replacing a run of nodes on the page -/

/-- The bytes of `page` with the nodes `ms'` in the place of those between the two pointers. -/
def spliceNodes (page : BtreePage) (pointer endPointer : ℕ) (ms' : List IndexNode) : List UInt8 :=
  page.btrNodes.take (pointer - btrSize) ++ writeNodes page.leafPage ms' ++
    (page.bytesAt endPointer).take (page.btrLength - endPointer)

theorem Layout.splice {page page' : BtreePage} {js : List IndexJumpNode}
    {pre ms post : List IndexNode} {pointer : ℕ} (ms' : List IndexNode) (endPointer : ℕ)
    (h : Layout page js (pre ++ ms ++ post)) (hms : ∀ n ∈ ms', n.WellFormed page.leafPage)
    (hptr : pointer = page.firstNode + nodesSize page.leafPage pre)
    (hend : endPointer = page.firstNode + nodesSize page.leafPage (pre ++ ms))
    (hnodes : spliceNodes page pointer endPointer ms' <+: page'.btrNodes)
    (hsize : page'.btrJumpSize = page.btrJumpSize) (hlevel : page'.btrLevel = page.btrLevel)
    (hcount : page'.btrJumpCount = page.btrJumpCount)
    (hlen : page'.btrLength = page.firstNode + nodesSize page.leafPage (pre ++ ms' ++ post)) :
    Layout page' js (pre ++ ms' ++ post) := by
  have hleaf : page'.leafPage = page.leafPage := by rw [BtreePage.leafPage, hlevel]; rfl
  have hfirst : page'.firstNode = page.firstNode := by
    rw [BtreePage.firstNode, hsize]
    rfl
  obtain ⟨pad, tail, hb, hl⟩ := h.bytes
  have hpre : (writeNodes page.leafPage pre).length = nodesSize page.leafPage pre :=
    writeNodes_length fun n hn => h.nodes n (by simp [hn])
  have hpost : (writeNodes page.leafPage post).length = nodesSize page.leafPage post :=
    writeNodes_length fun n hn => h.nodes n (by simp [hn])
  have htake : page.btrNodes.take (pointer - btrSize) =
      writeJumpNodes js ++ pad ++ writeNodes page.leafPage pre := by
    rw [hb, writeNodes_append, writeNodes_append, hptr, BtreePage.firstNode]
    simp only [← List.append_assoc]
    rw [List.append_assoc, List.append_assoc (writeJumpNodes js ++ pad ++ _)]
    refine List.take_left' ?_
    rw [List.length_append, hl, hpre]
    omega
  have hrest : (page.bytesAt endPointer).take (page.btrLength - endPointer) =
      writeNodes page.leafPage post := by
    obtain ⟨tail', ht⟩ := Layout.bytesAt_node h
    rw [hend, ht]
    refine List.take_left' ?_
    rw [hpost, h.length, nodesSize_append _ (pre ++ ms)]
    omega
  obtain ⟨t, ht⟩ := hnodes
  refine ⟨⟨pad, t, ?_, by rw [hsize, hl]⟩, hcount.trans h.jumpCount, by rw [hlen, hfirst, hleaf], ?_,
    h.jumps⟩
  · rw [← ht, spliceNodes, htake, hrest, hleaf]
    simp [List.append_assoc]
  · rw [hleaf]
    intro n hn
    simp only [List.mem_append] at hn
    rcases hn with (hn | hn) | hn
    · exact h.nodes n (by simp [hn])
    · exact hms n hn
    · exact h.nodes n (by simp [hn])

end FirebirdCore.Btr
