import FirebirdCore.Btr.Page
import FirebirdCore.Lib.Buffer

/-!
# Generating the jump table

`generateJumpNodes` walks through the nodes of a page and adds a jump node for the first node
behind each further interval. When a split may follow, it also chooses the jump node at which to
split and sums up the prefixes up to its node. That sum is kept in 16 bits.
-/
namespace FirebirdCore.Btr
open FirebirdCore.KeyOrder FirebirdCore.Buffer

/-- `IndexNode::computePrefix`: length of the prefix common to two strings. -/
def computePrefix (prevString string : Key) : ℕ := lcp prevString string

/-- The variables of the loop of `generate_jump_nodes`; `splitIndex` counts from one, with zero
for none. -/
structure JumpState where
  pointer : ℕ
  currentKey : List UInt8
  jumpKey : List UInt8
  jumpLength : ℕ
  newAreaPosition : ℕ
  halfpoint : ℕ
  splitPageSize : ℕ
  jumpNodes : List IndexJumpNode
  jumpersSize : ℕ
  splitIndex : ℕ
  splitPrefix : ℕ
  deriving DecidableEq, Repr

/-- The node at `s.pointer` is read, which ends before `pointer`. Until a split point is found its
prefix is counted, and the point is forced here when the key to insert leaves no more room. -/
def JumpState.readNode (page : BtreePage) (splitting : Bool) (pageSize keyLen : ℕ) (s : JumpState)
    (node : IndexNode) (pointer : ℕ) : JumpState :=
  let currentKey :=
    if node.length ≠ 0 then blit s.currentKey node.prefixLen node.data else s.currentKey
  if splitting ∧ s.splitIndex = 0 then
    let leftPageSize := btrSize + s.jumpersSize + (pointer - page.firstNode)
    let splitPrefix := (s.splitPrefix + node.prefixLen) % 2 ^ 16
    if leftPageSize + keyLen ≥ pageSize then
      { s with
        pointer, currentKey, splitPrefix
        halfpoint := s.pointer - 1
        newAreaPosition := s.pointer - 1 }
    else { s with pointer, currentKey, splitPrefix }
  else { s with pointer, currentKey }

/-- The jump node for the node at `nodePointer`, whose data are in the current key. -/
def JumpState.newJumpNode (s : JumpState) (nodePointer : ℕ) (node : IndexNode) : IndexJumpNode :=
  let prefixLen := computePrefix (s.jumpKey.take s.jumpLength) (s.currentKey.take node.prefixLen)
  ⟨prefixLen, nodePointer, (s.currentKey.drop prefixLen).take (node.prefixLen - prefixLen)⟩

/-- The jump node is added to the list. -/
def JumpState.addJumpNode (page : BtreePage) (splitting : Bool) (s : JumpState)
    (node : IndexNode) (jumpNode : IndexJumpNode) : JumpState :=
  let jumpNodes := s.jumpNodes ++ [jumpNode]
  let isSplit := splitting && s.splitIndex == 0 && decide (s.pointer > s.halfpoint)
  let splitIndex := if isSplit then jumpNodes.length else s.splitIndex
  let splitPageSize :=
    if isSplit then btrSize + (page.btrLength - jumpNode.offset) + node.prefixLen + 4
    else s.splitPageSize
  { s with
    jumpNodes
    jumpKey := blit s.jumpKey jumpNode.prefixLen jumpNode.data
    jumpLength := jumpNode.length + jumpNode.prefixLen
    splitIndex
    newAreaPosition := s.newAreaPosition + page.btrJumpInterval
    jumpersSize := s.jumpersSize + jumpNode.getJumpNodeSize
    splitPageSize :=
      if splitting ∧ splitIndex < jumpNodes.length then
        splitPageSize + jumpNode.getJumpNodeSize +
          (if splitIndex + 1 = jumpNodes.length then jumpNode.prefixLen else 0)
      else splitPageSize }

/-- The new jump node does not fit on the page that is split off. -/
def JumpState.splitOverflow (splitting : Bool) (pageSize : ℕ) (s : JumpState)
    (jumpNode : IndexJumpNode) : Prop :=
  splitting ∧ s.splitIndex ≠ 0 ∧
    s.splitPageSize + jumpNode.getJumpNodeSize +
      (if s.splitIndex = s.jumpNodes.length then jumpNode.prefixLen else 0) > pageSize

instance (splitting : Bool) (pageSize : ℕ) (s : JumpState) (j : IndexJumpNode) :
    Decidable (s.splitOverflow splitting pageSize j) := by
  unfold JumpState.splitOverflow
  infer_instance

def generateLoop (page : BtreePage) (splitting : Bool) (pageSize keyLen : ℕ) :
    ℕ → JumpState → JumpState
  | 0, s => s
  | fuel + 1, s =>
      if s.pointer < page.btrLength ∧ s.newAreaPosition < page.btrLength then
        let r := page.readNode s.pointer
        if r.1.isEndBucket ∨ r.1.isEndLevel then s
        else
          let s' := s.readNode page splitting pageSize keyLen r.1 r.2
          if s.pointer > s'.newAreaPosition then
            let jumpNode := s'.newJumpNode s.pointer r.1
            if s'.splitOverflow splitting pageSize jumpNode then s'
            else
              generateLoop page splitting pageSize keyLen fuel
                (s'.addJumpNode page splitting r.1 jumpNode)
          else generateLoop page splitting pageSize keyLen fuel s'
      else s

/-- The jump nodes for a page. `splitting` says that a split point is asked for too; `keyLen` is
the greatest length of a key of the index. -/
def generateJumpNodes (page : BtreePage) (splitting : Bool) (pageSize keyLen : ℕ) : JumpState :=
  generateLoop page splitting pageSize keyLen (page.btrLength + 1)
    { pointer := page.firstNode
      currentKey := []
      jumpKey := []
      jumpLength := 0
      newAreaPosition := page.firstNode + page.btrJumpInterval
      halfpoint := (btrSize + page.btrJumpSize + page.btrLength) / 2
      splitPageSize := 0
      jumpNodes := []
      jumpersSize := 0
      splitIndex := 0
      splitPrefix := 0 }

/-! ## What the loop keeps -/

/-- Sum of the prefixes of `ns`. -/
def prefixSum (ns : List IndexNode) : ℕ := (ns.map (·.prefixLen)).sum

@[simp] theorem prefixSum_nil : prefixSum [] = 0 := rfl

@[simp] theorem prefixSum_append (ns ms : List IndexNode) :
    prefixSum (ns ++ ms) = prefixSum ns + prefixSum ms := by simp [prefixSum]

@[simp] theorem prefixSum_singleton (n : IndexNode) : prefixSum [n] = n.prefixLen := by
  simp [prefixSum]

theorem prefixTotal_eq (ns : List IndexNode) : prefixTotal ns = prefixSum ns := by
  induction ns with
  | nil => rfl
  | cons n ns ih => simp [ih, prefixSum]

/-- The split point is the node of jump node `splitIndex`, and the prefixes are summed up to it. -/
def SplitAt (start : ℕ) (leafNode : Bool) (ns : List IndexNode) (jumpNodes : List IndexJumpNode)
    (splitIndex splitPrefix : ℕ) : Prop :=
  ∃ p n q j, ns = p ++ n :: q ∧ n.isEndLevel = false ∧ n.isEndBucket = false ∧
    jumpNodes[splitIndex - 1]? = some j ∧ j.offset = start + nodesSize leafNode p ∧
    splitPrefix = prefixSum (p ++ [n]) % 2 ^ 16

/-- The state of the loop behind the nodes `pre`. -/
structure JumpInv (page : BtreePage) (ns : List IndexNode) (splitting : Bool)
    (pre : List IndexNode) (s : JumpState) : Prop where
  pointer : s.pointer = page.firstNode + nodesSize page.leafPage pre
  current : lastKey [] pre <+: s.currentKey
  chain : JumpChain page.firstNode page.leafPage ns [] s.jumpNodes
  jumpKey : jumpBytes [] s.jumpNodes <+: s.jumpKey
  jumpLength : (jumpBytes [] s.jumpNodes).length = s.jumpLength
  size : s.jumpersSize = jumpNodesSize s.jumpNodes
  increasing : (s.jumpNodes.map (·.offset)).Pairwise (· < ·)
  below : ∀ j ∈ s.jumpNodes, page.firstNode < j.offset ∧ j.offset < s.pointer
  area : page.firstNode ≤ s.newAreaPosition
  index : s.splitIndex ≤ s.jumpNodes.length
  noSplit : s.splitIndex = 0 → splitting = true → s.splitPrefix = prefixSum pre % 2 ^ 16
  split : s.splitIndex ≠ 0 → SplitAt page.firstNode page.leafPage ns s.jumpNodes s.splitIndex
    s.splitPrefix

section
variable {page : BtreePage} {ns pre post : List IndexNode} {n : IndexNode} {d splitting : Bool}
  {pageSize keyLen : ℕ} {s : JumpState}

/-- Reading an ordinary node keeps the invariant. The room asked for on the page keeps a forced
split point behind the first node. -/
theorem JumpInv.readNode (h : JumpInv page ns splitting pre s) (hns : ns = pre ++ n :: post)
    (hn : Nodes d page.leafPage ns) (hl : n.isEndLevel = false)
    (hroom : splitting = true →
      ∀ a ∈ ns.head?, btrSize + a.getNodeSize page.leafPage + keyLen < pageSize) :
    JumpInv page ns splitting (pre ++ [n])
      (s.readNode page splitting pageSize keyLen n (s.pointer + n.getNodeSize page.leafPage)) := by
  subst hns
  have hle := hn.prefixLen_le hl
  have hpos := n.getNodeSize_pos page.leafPage
  have hptr : s.pointer + n.getNodeSize page.leafPage =
      page.firstNode + nodesSize page.leafPage (pre ++ [n]) := by
    simp only [h.pointer, nodesSize_append, nodesSize_cons, nodesSize_nil]
    omega
  have hcur : lastKey [] (pre ++ [n]) <+:
      (if n.length ≠ 0 then blit s.currentKey n.prefixLen n.data else s.currentKey) := by
    rw [lastKey_append, lastKey_cons, lastKey_nil, nodeKey]
    split_ifs with hz
    · exact blit_front h.current hle n.data
    · rw [not_not] at hz
      rw [List.length_eq_zero_iff.1 hz, List.append_nil]
      exact (List.take_prefix _ _).trans h.current
  have hbelow : ∀ j ∈ s.jumpNodes, page.firstNode < j.offset ∧
      j.offset < s.pointer + n.getNodeSize page.leafPage := fun j hj =>
    ⟨(h.below j hj).1, (h.below j hj).2.trans (by omega)⟩
  have hpfx : s.splitIndex = 0 → splitting = true → (s.splitPrefix + n.prefixLen) % 2 ^ 16 =
      prefixSum (pre ++ [n]) % 2 ^ 16 := by
    intro h₁ h₂
    rw [h.noSplit h₁ h₂, prefixSum_append, prefixSum_singleton]
    omega
  -- the room is short only behind the first node
  have harea : splitting = true →
      btrSize + s.jumpersSize + (s.pointer + n.getNodeSize page.leafPage - page.firstNode) +
        keyLen ≥ pageSize → page.firstNode ≤ s.pointer - 1 := by
    intro hsplit hfull
    cases pre with
    | nil =>
      have hnone : s.jumpNodes = [] := List.eq_nil_iff_forall_not_mem.2 fun j hj => by
        have := h.below j hj
        have := h.pointer
        simp only [nodesSize_nil] at this
        omega
      have hsz := h.size
      have := hroom hsplit n rfl
      have hp := h.pointer
      simp only [hnone, jumpNodesSize_nil, nodesSize_nil] at hsz hp
      omega
    | cons a pre =>
      have := a.getNodeSize_pos page.leafPage
      have hp := h.pointer
      simp only [nodesSize_cons] at hp
      omega
  unfold JumpState.readNode
  dsimp only
  generalize (if n.length ≠ 0 then blit s.currentKey n.prefixLen n.data else s.currentKey) = cur
    at hcur ⊢
  split_ifs with hsp hfull
  · exact ⟨hptr, hcur, h.chain, h.jumpKey, h.jumpLength, h.size, h.increasing, hbelow,
      harea hsp.1 hfull,
      h.index, fun _ _ => hpfx hsp.2 hsp.1, fun hne => absurd hsp.2 hne⟩
  · exact ⟨hptr, hcur, h.chain, h.jumpKey, h.jumpLength, h.size, h.increasing, hbelow, h.area,
      h.index, fun _ _ => hpfx hsp.2 hsp.1, fun hne => absurd hsp.2 hne⟩
  · exact ⟨hptr, hcur, h.chain, h.jumpKey, h.jumpLength, h.size, h.increasing, hbelow, h.area,
      h.index, fun h₁ h₂ => absurd ⟨h₂, h₁⟩ hsp, h.split⟩

/-- The jump node made for the node just read leads to it. -/
theorem JumpInv.jumpTo_newJumpNode {s' : JumpState} (h : JumpInv page ns splitting pre s)
    (h' : JumpInv page ns splitting (pre ++ [n]) s') (hns : ns = pre ++ n :: post)
    (hn : Nodes d page.leafPage ns) (hl : n.isEndLevel = false) :
    JumpTo page.firstNode page.leafPage ns (jumpBytes [] s'.jumpNodes)
      (s'.newJumpNode s.pointer n) := by
  subst hns
  have hle := hn.prefixLen_le hl
  have hcur : s'.currentKey.take n.prefixLen = (lastKey [] pre).take n.prefixLen := by
    obtain ⟨t, ht⟩ := h'.current
    rw [lastKey_append, lastKey_cons, lastKey_nil, nodeKey, List.append_assoc] at ht
    rw [← ht, List.take_append_of_le_length (by simp [hle]), List.take_take, Nat.min_self]
  have hjump : s'.jumpKey.take s'.jumpLength = jumpBytes [] s'.jumpNodes := by
    rw [← h'.jumpLength]
    exact take_of_front h'.jumpKey
  obtain ⟨c, hc⟩ : ∃ c, c = lcp (jumpBytes [] s'.jumpNodes) (s'.currentKey.take n.prefixLen) :=
    ⟨_, rfl⟩
  have hlen : (s'.currentKey.take n.prefixLen).length = n.prefixLen := by
    rw [hcur, List.length_take]
    omega
  have hcle : c ≤ n.prefixLen := by
    have := lcp_le_right (jumpBytes [] s'.jumpNodes) (s'.currentKey.take n.prefixLen)
    omega
  have hdata : (s'.currentKey.drop c).take (n.prefixLen - c) =
      (s'.currentKey.take n.prefixLen).drop c := by rw [List.drop_take]
  have hdlen : ((s'.currentKey.take n.prefixLen).drop c).length = n.prefixLen - c := by
    rw [List.length_drop, hlen]
  refine ⟨pre, n, post, rfl, h.pointer, hl, ?_, ?_, ?_⟩
  · simp only [JumpState.newJumpNode, computePrefix, IndexJumpNode.total, IndexJumpNode.length,
      hjump, ← hc, hdata, hdlen]
    omega
  · simp only [JumpState.newJumpNode, computePrefix, hjump]
    exact lcp_le_left _ _
  · simp only [JumpState.newJumpNode, computePrefix, hjump, ← hc, hdata]
    rw [take_eq_of_le_lcp hc.le, List.take_append_drop, hcur]

/-- Adding a jump node for the node just read keeps the invariant. -/
theorem JumpInv.addJumpNode {s' : JumpState} (h : JumpInv page ns splitting pre s)
    (h' : JumpInv page ns splitting (pre ++ [n]) s') (hsame : s'.jumpNodes = s.jumpNodes)
    (hns : ns = pre ++ n :: post) (hn : Nodes d page.leafPage ns) (hl : n.isEndLevel = false)
    (hb : n.isEndBucket = false) (harea : s.pointer > s'.newAreaPosition) :
    JumpInv page ns splitting (pre ++ [n])
      (s'.addJumpNode page splitting n (s'.newJumpNode s.pointer n)) := by
  have hto := h.jumpTo_newJumpNode h' hns hn hl
  obtain ⟨j, hj⟩ : ∃ j, j = s'.newJumpNode s.pointer n := ⟨_, rfl⟩
  have hoff : j.offset = s.pointer := by rw [hj]; rfl
  rw [← hj] at hto ⊢
  obtain ⟨-, -, -, -, -, -, -, hjle, -⟩ := hto
  have hbytes : jumpBytes [] (s'.jumpNodes ++ [j]) =
      (jumpBytes [] s'.jumpNodes).take j.prefixLen ++ j.data := by rw [jumpBytes_append]; rfl
  have hlt : s.pointer < s'.pointer := by
    have := n.getNodeSize_pos page.leafPage
    rw [h.pointer, h'.pointer, nodesSize_append, nodesSize_cons]
    omega
  refine ⟨h'.pointer, h'.current, jumpChain_append.2 ⟨h'.chain, hj ▸ h.jumpTo_newJumpNode h' hns hn hl,
    trivial⟩, ?_, ?_, ?_, ?_, ?_, h'.area.trans (Nat.le_add_right _ _), ?_, ?_, ?_⟩
  · rw [show (s'.addJumpNode page splitting n j).jumpNodes = s'.jumpNodes ++ [j] from rfl, hbytes]
    exact blit_front h'.jumpKey hjle j.data
  · rw [show (s'.addJumpNode page splitting n j).jumpNodes = s'.jumpNodes ++ [j] from rfl, hbytes]
    simp only [JumpState.addJumpNode, List.length_append, List.length_take, Nat.min_eq_left hjle,
      IndexJumpNode.length]
    omega
  · simp [JumpState.addJumpNode, h'.size]
  · simp only [JumpState.addJumpNode, List.map_append, List.map_cons, List.map_nil]
    refine List.pairwise_append.2 ⟨h'.increasing, by simp, ?_⟩
    intro a ha b hb'
    obtain ⟨k, hk, rfl⟩ := List.mem_map.1 ha
    rw [List.mem_singleton.1 hb', hoff]
    exact (h.below k (hsame ▸ hk)).2
  · intro k hk
    rcases List.mem_append.1 hk with hk | hk
    · exact h'.below k hk
    · rw [List.mem_singleton.1 hk, hoff]
      exact ⟨by have := h'.area; omega, hlt⟩
  · have := h'.index
    simp only [JumpState.addJumpNode, List.length_append, List.length_singleton]
    split_ifs <;> omega
  · simp only [JumpState.addJumpNode, List.length_append, List.length_singleton]
    split_ifs with hs
    · simp
    · exact h'.noSplit
  · simp only [JumpState.addJumpNode, List.length_append, List.length_singleton]
    split_ifs with hs
    · intro _
      simp only [Bool.and_eq_true, beq_iff_eq] at hs
      refine ⟨pre, n, post, j, hns, hl, hb, by simp, hoff.trans h.pointer, ?_⟩
      exact h'.noSplit hs.1.2 hs.1.1
    · intro hne
      obtain ⟨p, m, q, k, hp, hml, hmb, hk, hrest⟩ := h'.split hne
      refine ⟨p, m, q, k, hp, hml, hmb, ?_, hrest⟩
      rw [List.getElem?_append_left]
      · exact hk
      · exact (List.getElem?_eq_some_iff.1 hk).1

/-- The loop keeps the invariant. -/
theorem generateLoop_inv {js : List IndexJumpNode} (fuel : ℕ) (hlay : Layout page js ns)
    (hn : Nodes d page.leafPage ns)
    (hroom : splitting = true →
      ∀ a ∈ ns.head?, btrSize + a.getNodeSize page.leafPage + keyLen < pageSize)
    (h : JumpInv page ns splitting pre s) (hns : ns = pre ++ post) :
    ∃ pre', JumpInv page ns splitting pre' (generateLoop page splitting pageSize keyLen fuel s) ∧
      pre' <+: ns := by
  induction fuel generalizing pre post s with
  | zero => exact ⟨pre, h, hns ▸ List.prefix_append _ _⟩
  | succ fuel ih =>
    have hstop : ∃ pre', JumpInv page ns splitting pre' s ∧ pre' <+: ns :=
      ⟨pre, h, hns ▸ List.prefix_append _ _⟩
    rw [generateLoop]
    by_cases hgo : s.pointer < page.btrLength ∧ s.newAreaPosition < page.btrLength
    · rw [if_pos hgo]
      cases post with
      | nil =>
        have := h.pointer
        have := hlay.length
        simp only [hns, List.append_nil] at this
        omega
      | cons n post =>
        subst hns
        rw [hlay.readNode h.pointer]
        dsimp only
        by_cases hend : n.isEndBucket = true ∨ n.isEndLevel = true
        · rw [if_pos hend]
          exact hstop
        · rw [if_neg hend]
          simp only [not_or, Bool.not_eq_true] at hend
          have h' := h.readNode rfl hn hend.2 hroom
          have hsplit : pre ++ n :: post = pre ++ [n] ++ post := by simp
          have hsame : (s.readNode page splitting pageSize keyLen n
              (s.pointer + n.getNodeSize page.leafPage)).jumpNodes = s.jumpNodes := by
            unfold JumpState.readNode
            dsimp only
            split_ifs <;> rfl
          split_ifs with harea hover
          · exact ⟨pre ++ [n], h', hsplit ▸ List.prefix_append _ _⟩
          · exact ih (h.addJumpNode h' hsame rfl hn hend.2 hend.1 harea) hsplit
          · exact ih h' hsplit
    · rw [if_neg hgo]
      exact hstop

theorem JumpInv.valid (h : JumpInv page ns splitting pre s) :
    ValidJumps page.firstNode page.leafPage ns s.jumpNodes :=
  ⟨h.chain, h.increasing, fun j hj => (h.below j hj).1⟩

/-- The jump nodes generated for a page. -/
theorem generateJumpNodes_inv {js : List IndexJumpNode} (splitting : Bool) (pageSize keyLen : ℕ)
    (hlay : Layout page js ns)
    (hn : Nodes d page.leafPage ns)
    (hroom : splitting = true →
      ∀ a ∈ ns.head?, btrSize + a.getNodeSize page.leafPage + keyLen < pageSize) :
    ∃ pre, JumpInv page ns splitting pre (generateJumpNodes page splitting pageSize keyLen) ∧
      pre <+: ns := by
  refine generateLoop_inv _ hlay hn hroom (?_ : JumpInv page ns splitting [] _) rfl
  exact ⟨by simp, by simp, trivial, by simp [jumpBytes], rfl, rfl, by simp, by simp,
    Nat.le_add_right _ _, le_rfl, fun _ _ => rfl, fun hne => absurd rfl hne⟩

end

end FirebirdCore.Btr
