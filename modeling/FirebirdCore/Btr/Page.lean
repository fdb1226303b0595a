import FirebirdCore.Btr.Node
import FirebirdCore.Lib.KeyOrder

/-!
# Index buckets

`BtreePage` is the page header together with the bytes behind it; a pointer into the page is
its offset from the start of the page, so that `btrSize` is the offset of `btr_nodes`.
`Layout page js ns` says which jump nodes and nodes the bytes hold, `Chain` that the nodes are
prefix-compressed, sorted and terminated, and `JumpChain` that each jump node leads to the
start of a node and carries its prefix bytes.
-/
namespace FirebirdCore.Btr
open FirebirdCore.KeyOrder

/-- Offset of `btr_nodes` in the page. -/
def btrSize : ℕ := 39

def maxKey : ℕ := 4096

def minPageSize : ℕ := 4096
def maxPageSize : ℕ := 16384

/-- `END_LEVEL` as an unsigned page number; `NO_VALUE` is the record number of this value. -/
def endLevelNumber : ℕ := 2 ^ 32 - 1
def endBucketNumber : ℕ := 2 ^ 32 - 2
def noValue : ℕ := endLevelNumber
def noValuePage : ℕ := endLevelNumber
def noSplit : ℕ := 0

/-- The BUGCHECKs of the index code, by message number 204, 205 and 206. -/
inductive BugCheck where
  | indexInconsistent
  | bucketOverfilled
  | exceededIndexLevel
  deriving DecidableEq, Repr

/-- A computation that succeeds does so step by step. -/
theorem bind_ok {ε α β : Type} {x : Except ε α} {f : α → Except ε β} {b : β}
    (h : x >>= f = .ok b) : ∃ a, x = .ok a ∧ f a = .ok b := by
  cases x with
  | error e => cases h
  | ok a => exact ⟨a, rfl, h⟩

structure BtreePage where
  btrReleased : Bool
  btrSibling : ℕ
  btrLeftSibling : ℕ
  btrPrefixTotal : ℤ
  btrRelation : ℕ
  btrLength : ℕ
  btrId : ℕ
  btrLevel : ℕ
  btrJumpInterval : ℕ
  btrJumpSize : ℕ
  btrJumpCount : ℕ
  /-- The bytes of the page from offset `btrSize` on. -/
  btrNodes : List UInt8
  deriving DecidableEq, Repr

abbrev Key := List UInt8

namespace BtreePage

def leafPage (page : BtreePage) : Bool := page.btrLevel == 0

/-- Offset of the first node. -/
def firstNode (page : BtreePage) : ℕ := btrSize + page.btrJumpSize

def bytesAt (page : BtreePage) (pointer : ℕ) : List UInt8 := page.btrNodes.drop (pointer - btrSize)

/-- `node.readNode(pointer, leafPage)`: the node and the pointer just behind it. -/
def readNode (page : BtreePage) (pointer : ℕ) : IndexNode × ℕ :=
  let r := IndexNode.readNode (page.bytesAt pointer) page.leafPage
  (r.1, pointer + r.2)

def readJumpNode (page : BtreePage) (pointer : ℕ) : IndexJumpNode × ℕ :=
  let r := IndexJumpNode.readJumpNode (page.bytesAt pointer)
  (r.1, pointer + r.2)

end BtreePage

/-! ## Node sequences -/

/-- Key of a node, given the key of the node before it. -/
def nodeKey (prev : Key) (n : IndexNode) : Key := prev.take n.prefixLen ++ n.data

theorem nodeKey_length {prev : Key} {n : IndexNode} (h : n.prefixLen = lcp prev (nodeKey prev n)) :
    (nodeKey prev n).length = n.prefixLen + n.length := by
  have := lcp_le_left prev (nodeKey prev n)
  simp only [nodeKey, List.length_append, List.length_take, IndexNode.length] at *
  omega

/-- Key of the last of `ns`, given the key before them. -/
def lastKey (prev : Key) (ns : List IndexNode) : Key := ns.foldl nodeKey prev

def writeNodes (leafNode : Bool) (ns : List IndexNode) : List UInt8 :=
  ns.flatMap (·.writeNode leafNode)

def nodesSize (leafNode : Bool) (ns : List IndexNode) : ℕ :=
  (ns.map (·.getNodeSize leafNode)).sum

def writeJumpNodes (js : List IndexJumpNode) : List UInt8 := js.flatMap (·.writeJumpNode)

def jumpNodesSize (js : List IndexJumpNode) : ℕ := (js.map (·.getJumpNodeSize)).sum

def prefixTotal (ns : List IndexNode) : ℤ := (ns.map fun n => (n.prefixLen : ℤ)).sum

@[simp] theorem lastKey_nil (prev : Key) : lastKey prev [] = prev := rfl

@[simp] theorem lastKey_cons (prev : Key) (n : IndexNode) (ns : List IndexNode) :
    lastKey prev (n :: ns) = lastKey (nodeKey prev n) ns := rfl

@[simp] theorem lastKey_append (prev : Key) (ns ms : List IndexNode) :
    lastKey prev (ns ++ ms) = lastKey (lastKey prev ns) ms := List.foldl_append

@[simp] theorem nodesSize_nil (leafNode : Bool) : nodesSize leafNode [] = 0 := rfl

@[simp] theorem nodesSize_cons (leafNode : Bool) (n : IndexNode) (ns : List IndexNode) :
    nodesSize leafNode (n :: ns) = n.getNodeSize leafNode + nodesSize leafNode ns := by
  simp [nodesSize]

@[simp] theorem nodesSize_append (leafNode : Bool) (ns ms : List IndexNode) :
    nodesSize leafNode (ns ++ ms) = nodesSize leafNode ns + nodesSize leafNode ms := by
  simp [nodesSize]

@[simp] theorem writeNodes_nil (leafNode : Bool) : writeNodes leafNode [] = [] := rfl

@[simp] theorem writeNodes_cons (leafNode : Bool) (n : IndexNode) (ns : List IndexNode) :
    writeNodes leafNode (n :: ns) = n.writeNode leafNode ++ writeNodes leafNode ns := by
  simp [writeNodes]

@[simp] theorem writeNodes_append (leafNode : Bool) (ns ms : List IndexNode) :
    writeNodes leafNode (ns ++ ms) = writeNodes leafNode ns ++ writeNodes leafNode ms := by
  simp [writeNodes]

@[simp] theorem prefixTotal_nil : prefixTotal [] = 0 := rfl

@[simp] theorem prefixTotal_cons (n : IndexNode) (ns : List IndexNode) :
    prefixTotal (n :: ns) = n.prefixLen + prefixTotal ns := by simp [prefixTotal]

@[simp] theorem prefixTotal_append (ns ms : List IndexNode) :
    prefixTotal (ns ++ ms) = prefixTotal ns + prefixTotal ms := by simp [prefixTotal]

@[simp] theorem jumpNodesSize_nil : jumpNodesSize [] = 0 := rfl

@[simp] theorem jumpNodesSize_cons (j : IndexJumpNode) (js : List IndexJumpNode) :
    jumpNodesSize (j :: js) = j.getJumpNodeSize + jumpNodesSize js := by simp [jumpNodesSize]

@[simp] theorem jumpNodesSize_append (js ks : List IndexJumpNode) :
    jumpNodesSize (js ++ ks) = jumpNodesSize js + jumpNodesSize ks := by simp [jumpNodesSize]

@[simp] theorem writeJumpNodes_nil : writeJumpNodes [] = [] := rfl

@[simp] theorem writeJumpNodes_cons (j : IndexJumpNode) (js : List IndexJumpNode) :
    writeJumpNodes (j :: js) = j.writeJumpNode ++ writeJumpNodes js := by simp [writeJumpNodes]

@[simp] theorem writeJumpNodes_append (js ks : List IndexJumpNode) :
    writeJumpNodes (js ++ ks) = writeJumpNodes js ++ writeJumpNodes ks := by
  simp [writeJumpNodes]

theorem writeNodes_length {leafNode : Bool} {ns : List IndexNode}
    (h : ∀ n ∈ ns, n.WellFormed leafNode) : (writeNodes leafNode ns).length = nodesSize leafNode ns := by
  induction ns with
  | nil => rfl
  | cons n ns ih =>
    rw [writeNodes_cons, nodesSize_cons, List.length_append,
      IndexNode.writeNode_length (h n (by simp)), ih fun m hm => h m (by simp [hm])]

theorem writeJumpNodes_length {js : List IndexJumpNode} (h : ∀ j ∈ js, j.WellFormed) :
    (writeJumpNodes js).length = jumpNodesSize js := by
  induction js with
  | nil => rfl
  | cons j js ih =>
    rw [writeJumpNodes_cons, jumpNodesSize_cons, List.length_append,
      IndexJumpNode.writeJumpNode_length (h j (by simp)), ih fun k hk => h k (by simp [hk])]

/-! ## What the bytes of a page hold -/

structure Layout (page : BtreePage) (js : List IndexJumpNode) (ns : List IndexNode) : Prop where
  bytes : ∃ pad tail, page.btrNodes =
    writeJumpNodes js ++ pad ++ writeNodes page.leafPage ns ++ tail ∧
      (writeJumpNodes js ++ pad).length = page.btrJumpSize
  jumpCount : page.btrJumpCount = js.length
  length : page.btrLength = page.firstNode + nodesSize page.leafPage ns
  nodes : ∀ n ∈ ns, n.WellFormed page.leafPage
  jumps : ∀ j ∈ js, j.WellFormed

/-- The bucket that holds just these jump nodes and nodes. -/
def bucketOf (level : ℕ) (js : List IndexJumpNode) (ns : List IndexNode) : BtreePage where
  btrReleased := false
  btrSibling := 0
  btrLeftSibling := 0
  btrPrefixTotal := prefixTotal ns
  btrRelation := 0
  btrLength := btrSize + jumpNodesSize js + nodesSize (level == 0) ns
  btrId := 0
  btrLevel := level
  btrJumpInterval := 512
  btrJumpSize := jumpNodesSize js
  btrJumpCount := js.length
  btrNodes := writeJumpNodes js ++ writeNodes (level == 0) ns

theorem layout_bucketOf {level : ℕ} {js : List IndexJumpNode} {ns : List IndexNode}
    (hj : ∀ j ∈ js, j.WellFormed) (hn : ∀ n ∈ ns, n.WellFormed (level == 0)) :
    Layout (bucketOf level js ns) js ns where
  bytes := ⟨[], [], by simp [bucketOf, BtreePage.leafPage],
    by simp [bucketOf, writeJumpNodes_length hj]⟩
  jumpCount := rfl
  length := rfl
  nodes := hn
  jumps := hj

/-- The bytes at a node start are the nodes from there on. -/
theorem Layout.bytesAt_node {page : BtreePage} {js : List IndexJumpNode} {pre post : List IndexNode}
    (h : Layout page js (pre ++ post)) :
    ∃ tail, page.bytesAt (page.firstNode + nodesSize page.leafPage pre) =
      writeNodes page.leafPage post ++ tail := by
  obtain ⟨pad, tail, hb, hl⟩ := h.bytes
  refine ⟨tail, ?_⟩
  have hpre : (writeNodes page.leafPage pre).length = nodesSize page.leafPage pre :=
    writeNodes_length fun n hn => h.nodes n (by simp [hn])
  rw [BtreePage.bytesAt, hb, BtreePage.firstNode, Nat.add_assoc, Nat.add_sub_cancel_left,
    ← hl, ← hpre, ← List.drop_drop, List.append_assoc, List.drop_left, writeNodes_append,
    List.append_assoc, List.drop_left]

/-- Reading at a node start yields the node and the start of the next one. -/
theorem Layout.readNode {page : BtreePage} {js : List IndexJumpNode} {p q : List IndexNode}
    {n : IndexNode} (h : Layout page js (p ++ n :: q)) {pointer : ℕ}
    (hp : pointer = page.firstNode + nodesSize page.leafPage p) :
    page.readNode pointer = (n, pointer + n.getNodeSize page.leafPage) := by
  subst hp
  obtain ⟨tail, ht⟩ := h.bytesAt_node
  rw [BtreePage.readNode, ht, writeNodes_cons, List.append_assoc,
    IndexNode.readNode_writeNode (h.nodes n (by simp))]

theorem Layout.readJumpNode {page : BtreePage} {pre post : List IndexJumpNode} {j : IndexJumpNode}
    {ns : List IndexNode} (h : Layout page (pre ++ j :: post) ns) {pointer : ℕ}
    (hp : pointer = btrSize + jumpNodesSize pre) :
    page.readJumpNode pointer = (j, pointer + j.getJumpNodeSize) := by
  subst hp
  obtain ⟨pad, tail, hb, -⟩ := h.bytes
  have hpre : (writeJumpNodes pre).length = jumpNodesSize pre :=
    writeJumpNodes_length fun k hk => h.jumps k (by simp [hk])
  rw [BtreePage.readJumpNode, BtreePage.bytesAt, hb, Nat.add_sub_cancel_left, ← hpre]
  simp only [writeJumpNodes_append, writeJumpNodes_cons, List.append_assoc, List.drop_left]
  rw [IndexJumpNode.readJumpNode_writeJumpNode (h.jumps j (by simp))]

/-- The page with an empty jump table of the same size. -/
def BtreePage.withoutJumps (page : BtreePage) : BtreePage := { page with btrJumpCount := 0 }

@[simp] theorem BtreePage.withoutJumps_readNode (page : BtreePage) (pointer : ℕ) :
    page.withoutJumps.readNode pointer = page.readNode pointer := rfl

@[simp] theorem BtreePage.withoutJumps_firstNode (page : BtreePage) :
    page.withoutJumps.firstNode = page.firstNode := rfl

@[simp] theorem BtreePage.withoutJumps_leafPage (page : BtreePage) :
    page.withoutJumps.leafPage = page.leafPage := rfl

@[simp] theorem BtreePage.withoutJumps_btrLength (page : BtreePage) :
    page.withoutJumps.btrLength = page.btrLength := rfl

theorem Layout.withoutJumps {page : BtreePage} {js : List IndexJumpNode} {ns : List IndexNode}
    (h : Layout page js ns) : Layout page.withoutJumps [] ns := by
  obtain ⟨pad, tail, hb, hl⟩ := h.bytes
  have hb' : page.btrNodes = [] ++ (writeJumpNodes js ++ pad) ++ writeNodes page.leafPage ns ++ tail :=
    hb
  exact ⟨⟨_, tail, hb', hl⟩, rfl, h.length, h.nodes, by simp⟩

-- What is read from a page is known through the lemmas above only.
attribute [irreducible] BtreePage.readNode BtreePage.readJumpNode

/-- An end pointer check never fails behind a node of the page. -/
theorem Layout.node_end_le {page : BtreePage} {js : List IndexJumpNode} {p q : List IndexNode}
    {n : IndexNode} (h : Layout page js (p ++ n :: q)) :
    page.firstNode + nodesSize page.leafPage p + n.getNodeSize page.leafPage ≤ page.btrLength := by
  rw [h.length]
  simp only [nodesSize_append, nodesSize_cons]
  omega

theorem nodesSize_ge_length (leafNode : Bool) (ns : List IndexNode) :
    ns.length ≤ nodesSize leafNode ns := by
  induction ns with
  | nil => exact le_rfl
  | cons n ns ih =>
    have := n.getNodeSize_pos leafNode
    simp only [List.length_cons, nodesSize_cons]
    omega

theorem Layout.length_le {page : BtreePage} {js : List IndexJumpNode} {ns : List IndexNode}
    (h : Layout page js ns) : ns.length ≤ page.btrLength := by
  have := nodesSize_ge_length page.leafPage ns
  rw [h.length]
  omega

/-! ## Sorted, compressed and terminated nodes -/

/-- `n` is compressed against the key before it and does not sort below that key. -/
def Linked (descending : Bool) (prev : Option Key) (n : IndexNode) : Prop :=
  n.prefixLen = lcp (prev.getD []) (nodeKey (prev.getD []) n) ∧
    ∀ k ∈ prev, AtMost descending k (nodeKey k n)

instance (descending : Bool) (prev : Option Key) (n : IndexNode) :
    Decidable (Linked descending prev n) := by
  unfold Linked
  infer_instance

/-- Each node is linked to the one before it and the last, and only the last, is a marker. -/
def Chain (descending : Bool) : Option Key → List IndexNode → Prop
  | _, [] => False
  | prev, n :: ns =>
      if n.isEndLevel then ns = []
      else Linked descending prev n ∧
        if n.isEndBucket then ns = []
        else Chain descending (some (nodeKey (prev.getD []) n)) ns

instance decidableChain (d : Bool) : (prev : Option Key) → (ns : List IndexNode) →
    Decidable (Chain d prev ns)
  | _, [] => inferInstanceAs (Decidable False)
  | prev, n :: ns =>
      have := decidableChain d (some (nodeKey (prev.getD []) n)) ns
      inferInstanceAs (Decidable (if n.isEndLevel then ns = []
        else Linked d prev n ∧
          if n.isEndBucket then ns = [] else Chain d (some (nodeKey (prev.getD []) n)) ns))

/-- The key before the nodes that follow `pre`. -/
def prevKey (prev : Option Key) : List IndexNode → Option Key
  | [] => prev
  | n :: ns => some (lastKey (prev.getD []) (n :: ns))

theorem prevKey_getD (prev : Option Key) (pre : List IndexNode) :
    (prevKey prev pre).getD [] = lastKey (prev.getD []) pre := by
  cases pre <;> rfl

theorem prevKey_cons (prev : Option Key) (n : IndexNode) (ns : List IndexNode) :
    prevKey prev (n :: ns) = prevKey (some (nodeKey (prev.getD []) n)) ns := by
  cases ns <;> rfl

theorem prevKey_of_ne_nil (prev : Option Key) {pre : List IndexNode} (h : pre ≠ []) :
    prevKey prev pre = some (lastKey (prev.getD []) pre) := by
  cases pre with
  | nil => exact absurd rfl h
  | cons n ns => rfl

theorem prevKey_some (prev : Key) (pre : List IndexNode) :
    prevKey (some prev) pre = some (lastKey prev pre) := by
  cases pre <;> rfl

theorem prevKey_append (prev : Option Key) (pre ns : List IndexNode) :
    prevKey prev (pre ++ ns) = prevKey (prevKey prev pre) ns := by
  cases pre with
  | nil => rfl
  | cons n pre =>
    rw [prevKey_of_ne_nil prev (by simp), prevKey_of_ne_nil prev (by simp), prevKey_some,
      lastKey_append]

theorem Chain.ne_nil {d : Bool} {prev : Option Key} {ns : List IndexNode} (h : Chain d prev ns) :
    ns ≠ [] := by
  rintro rfl
  exact h

theorem chain_endLevel {d : Bool} {prev : Option Key} {n : IndexNode} {ns : List IndexNode}
    (hl : n.isEndLevel = true) : Chain d prev (n :: ns) ↔ ns = [] := by
  simp [Chain, hl]

theorem chain_endBucket {d : Bool} {prev : Option Key} {n : IndexNode} {ns : List IndexNode}
    (hl : n.isEndLevel = false) (hb : n.isEndBucket = true) :
    Chain d prev (n :: ns) ↔ Linked d prev n ∧ ns = [] := by
  simp [Chain, hl, hb]

theorem chain_node {d : Bool} {prev : Option Key} {n : IndexNode} {ns : List IndexNode}
    (hl : n.isEndLevel = false) (hb : n.isEndBucket = false) :
    Chain d prev (n :: ns) ↔
      Linked d prev n ∧ Chain d (some (nodeKey (prev.getD []) n)) ns := by
  simp [Chain, hl, hb]

theorem Chain.linked {d : Bool} {prev : Option Key} {n : IndexNode} {ns : List IndexNode}
    (h : Chain d prev (n :: ns)) (hl : n.isEndLevel = false) : Linked d prev n := by
  cases hb : n.isEndBucket with
  | true => exact ((chain_endBucket hl hb).1 h).1
  | false => exact ((chain_node hl hb).1 h).1

theorem Chain.tail {d : Bool} {prev : Option Key} {n : IndexNode} {ns : List IndexNode}
    (h : Chain d prev (n :: ns)) (hne : ns ≠ []) :
    n.isEndLevel = false ∧ n.isEndBucket = false ∧
      Chain d (some (nodeKey (prev.getD []) n)) ns := by
  cases hl : n.isEndLevel with
  | true => exact absurd ((chain_endLevel hl).1 h) hne
  | false =>
    cases hb : n.isEndBucket with
    | true => exact absurd ((chain_endBucket hl hb).1 h).2 hne
    | false => exact ⟨rfl, rfl, ((chain_node hl hb).1 h).2⟩

/-- What follows the first node may depend on the key before it only through the link. -/
theorem Chain.congr_prev {d : Bool} {prev prev' : Option Key} {ns : List IndexNode}
    (h : Chain d prev ns) (hp : prev.getD [] = prev'.getD [])
    (hlink : ∀ n, Linked d prev n → Linked d prev' n) : Chain d prev' ns := by
  cases ns with
  | nil => exact h
  | cons n ns =>
    cases hl : n.isEndLevel with
    | true => exact (chain_endLevel hl).2 ((chain_endLevel hl).1 h)
    | false =>
      cases hb : n.isEndBucket with
      | true =>
        have h := (chain_endBucket hl hb).1 h
        exact (chain_endBucket hl hb).2 ⟨hlink n h.1, h.2⟩
      | false =>
        have h := (chain_node hl hb).1 h
        exact (chain_node hl hb).2 ⟨hlink n h.1, hp ▸ h.2⟩

/-- The nodes before a further one are ordinary, and it is linked to the last of them. -/
theorem Chain.append_right {d : Bool} {prev : Option Key} {pre ns : List IndexNode}
    (h : Chain d prev (pre ++ ns)) (hne : ns ≠ []) :
    (∀ n ∈ pre, n.isEndLevel = false ∧ n.isEndBucket = false) ∧ Chain d (prevKey prev pre) ns := by
  induction pre generalizing prev with
  | nil => exact ⟨by simp, h⟩
  | cons n pre ih =>
    have ht := Chain.tail h (by simp [hne])
    have hi := ih ht.2.2
    refine ⟨?_, by rw [prevKey_cons]; exact hi.2⟩
    simpa using ⟨⟨ht.1, ht.2.1⟩, fun m hm => hi.1 m hm⟩

theorem Linked.of_none {d : Bool} {n : IndexNode} (h : Linked d (some []) n) : Linked d none n :=
  ⟨h.1, by simp⟩

theorem Chain.of_none {d : Bool} {ns : List IndexNode} (h : Chain d (some []) ns) :
    Chain d none ns := h.congr_prev rfl fun _ hn => hn.of_none

/-- In an ascending bucket every key follows the empty one. -/
theorem Chain.of_empty {ns : List IndexNode} (h : Chain false none ns) :
    Chain false (some []) ns := by
  refine h.congr_prev rfl fun n hn => ⟨hn.1, ?_⟩
  rintro k hk
  cases hk
  cases nodeKey ([] : Key) n <;> simp [AtMost, Before]

/-- The degenerate first node of a level: it stands below every key. -/
def Degenerate (leafNode : Bool) (n : IndexNode) : Prop :=
  leafNode = false ∧ n.prefixLen = 0 ∧ n.data = [] ∧ n.isEndBucket = false ∧ n.isEndLevel = false

instance (leafNode : Bool) (n : IndexNode) : Decidable (Degenerate leafNode n) := by
  unfold Degenerate
  infer_instance

theorem Degenerate.nodeKey {leafNode : Bool} {n : IndexNode} (h : Degenerate leafNode n)
    (prev : Key) : nodeKey prev n = [] := by
  rw [Btr.nodeKey, h.2.1, h.2.2.1]
  rfl

/-- The nodes of a bucket. The degenerate node at the front of a level is not compared. -/
def Nodes (descending leafNode : Bool) (ns : List IndexNode) : Prop :=
  Chain descending none ns ∨
    ∃ d rest, ns = d :: rest ∧ Degenerate leafNode d ∧ Chain descending none rest

theorem Nodes.of_degenerate {d leafNode : Bool} {n : IndexNode} {rest : List IndexNode}
    (h : Nodes d leafNode (n :: rest)) (hn : Degenerate leafNode n) : Chain d none rest := by
  rcases h with h | ⟨m, rest', he, -, h⟩
  · have ht := ((chain_node hn.2.2.2.2 hn.2.2.2.1).1 h).2
    rw [hn.nodeKey] at ht
    exact ht.of_none
  · obtain ⟨rfl, rfl⟩ := List.cons.inj he
    exact h

theorem Nodes.chain {d leafNode : Bool} {ns : List IndexNode} (h : Nodes d leafNode ns)
    (hd : d = false ∨ ∀ n ∈ ns.head?, ¬ Degenerate leafNode n) : Chain d none ns := by
  rcases h with h | ⟨n, rest, rfl, hn, h⟩
  · exact h
  · rcases hd with rfl | hd
    · have hlink : Linked false none n := by
        refine ⟨?_, by simp⟩
        rw [hn.nodeKey, hn.2.1]
        rfl
      rw [chain_node hn.2.2.2.2 hn.2.2.2.1, hn.nodeKey]
      exact ⟨hlink, h.of_empty⟩
    · exact absurd hn (hd n rfl)

theorem Nodes.ne_nil {d leafNode : Bool} {ns : List IndexNode} (h : Nodes d leafNode ns) :
    ns ≠ [] := by
  rcases h with h | ⟨n, rest, rfl, -⟩
  · exact h.ne_nil
  · simp

/-- A node behind others is linked to the last of them, up to the degenerate first node. -/
theorem Nodes.linked {d leafNode : Bool} {pre post : List IndexNode} {n : IndexNode}
    (h : Nodes d leafNode (pre ++ n :: post)) (hl : n.isEndLevel = false) :
    n.prefixLen = lcp (lastKey [] pre) (nodeKey (lastKey [] pre) n) ∧
      (lastKey [] pre = [] ∨ AtMost d (lastKey [] pre) (nodeKey (lastKey [] pre) n)) := by
  have key : ∀ pre, Chain d none (pre ++ n :: post) →
      n.prefixLen = lcp (lastKey [] pre) (nodeKey (lastKey [] pre) n) ∧
      (lastKey [] pre = [] ∨ AtMost d (lastKey [] pre) (nodeKey (lastKey [] pre) n)) := by
    intro pre hc
    have hlink := (hc.append_right (by simp)).2.linked hl
    obtain ⟨h₁, h₂⟩ := hlink
    rw [prevKey_getD] at h₁
    refine ⟨h₁, ?_⟩
    cases pre with
    | nil => exact .inl rfl
    | cons m ms => exact .inr (h₂ _ rfl)
  rcases h with h | ⟨m, rest, he, hm, h⟩
  · exact key pre h
  · cases pre with
    | nil =>
      obtain ⟨rfl, rfl⟩ := List.cons.inj he
      exact ⟨by rw [hm.2.1]; simp, .inl rfl⟩
    | cons p pre =>
      obtain ⟨rfl, rfl⟩ := List.cons.inj he
      rw [lastKey_cons, hm.nodeKey]
      exact key pre h

/-- A node does not sort below the last key before it, unless that is the degenerate one. -/
theorem Nodes.atMost {d leafNode : Bool} {pre post : List IndexNode} {n : IndexNode}
    (h : Nodes d leafNode (pre ++ n :: post)) (hl : n.isEndLevel = false) :
    pre = [] ∨ (∃ a, pre = [a] ∧ Degenerate leafNode a) ∨
      AtMost d (lastKey [] pre) (nodeKey (lastKey [] pre) n) := by
  have key : ∀ pre, Chain d none (pre ++ n :: post) → pre ≠ [] →
      AtMost d (lastKey [] pre) (nodeKey (lastKey [] pre) n) := fun pre hc hne =>
    ((hc.append_right (by simp)).2.linked hl).2 _ (prevKey_of_ne_nil none hne)
  by_cases hne : pre = []
  · exact .inl hne
  rcases h with h | ⟨a, rest, he, ha, h⟩
  · exact .inr (.inr (key pre h hne))
  · obtain ⟨b, pre, rfl⟩ := List.exists_cons_of_ne_nil hne
    obtain ⟨rfl, rfl⟩ := List.cons.inj he
    by_cases hne' : pre = []
    · exact .inr (.inl ⟨b, by rw [hne'], ha⟩)
    · rw [lastKey_cons, ha.nodeKey]
      exact .inr (.inr (key pre h hne'))

theorem Chain.last {d : Bool} {prev : Option Key} {pre : List IndexNode} {n : IndexNode}
    (h : Chain d prev (pre ++ [n])) : n.isEndLevel = true ∨ n.isEndBucket = true := by
  have hn := (h.append_right (by simp)).2
  by_contra hne
  rw [not_or, Bool.not_eq_true, Bool.not_eq_true] at hne
  exact ((chain_node hne.1 hne.2).1 hn).2

/-- The last node is a marker. -/
theorem Nodes.last {d leafNode : Bool} {pre : List IndexNode} {n : IndexNode}
    (h : Nodes d leafNode (pre ++ [n])) : n.isEndLevel = true ∨ n.isEndBucket = true := by
  rcases h with h | ⟨a, rest, he, -, h⟩
  · exact h.last
  · cases pre with
    | nil =>
      obtain ⟨-, rfl⟩ := List.cons.inj he
      exact h.elim
    | cons b pre =>
      obtain ⟨-, rfl⟩ := List.cons.inj he
      exact h.last

/-- The nodes before a further one are no markers. -/
theorem Nodes.ordinary {d leafNode : Bool} {pre ns : List IndexNode}
    (h : Nodes d leafNode (pre ++ ns)) (hne : ns ≠ []) :
    ∀ n ∈ pre, n.isEndLevel = false ∧ n.isEndBucket = false := by
  rcases h with h | ⟨a, rest, he, ha, h⟩
  · exact (h.append_right hne).1
  · cases pre with
    | nil => simp
    | cons b pre =>
      obtain ⟨rfl, rfl⟩ := List.cons.inj he
      intro n hn
      rcases List.mem_cons.1 hn with rfl | hn
      · exact ⟨ha.2.2.2.2, ha.2.2.2.1⟩
      · exact (h.append_right hne).1 n hn

/-- The nodes that are compared: all of them, or all but a degenerate first one. -/
def comparedNodes (leafNode : Bool) : List IndexNode → List IndexNode
  | [] => []
  | n :: ns => if Degenerate leafNode n then ns else n :: ns

theorem Nodes.chain_compared {d leafNode : Bool} {ns : List IndexNode} (h : Nodes d leafNode ns) :
    Chain d none (comparedNodes leafNode ns) := by
  cases ns with
  | nil => exact absurd rfl h.ne_nil
  | cons n ns =>
    rw [comparedNodes]
    split_ifs with hn
    · exact h.of_degenerate hn
    · exact h.chain (.inr (by simpa using hn))

theorem comparedNodes_append (leafNode : Bool) (n : IndexNode) (pre rest : List IndexNode) :
    ∃ pre', comparedNodes leafNode (n :: pre ++ rest) = pre' ++ rest ∧
      lastKey [] pre' = lastKey [] (n :: pre) := by
  rw [List.cons_append, comparedNodes]
  split_ifs with hn
  · exact ⟨pre, rfl, by rw [lastKey_cons, hn.nodeKey]⟩
  · exact ⟨n :: pre, rfl, rfl⟩

/-! ## Entries -/

/-- A node with its whole key. -/
structure Entry where
  key : Key
  recordNumber : ℕ
  pageNumber : ℕ
  isEndBucket : Bool
  isEndLevel : Bool
  deriving DecidableEq, Repr

/-- A node behind the key `prev`. -/
def entryOf (prev : Key) (n : IndexNode) : Entry :=
  ⟨nodeKey prev n, n.recordNumber, n.pageNumber, n.isEndBucket, n.isEndLevel⟩

/-- The entries that nodes behind the key `prev` stand for. -/
def decode : Key → List IndexNode → List Entry
  | _, [] => []
  | prev, n :: ns => entryOf prev n :: decode (nodeKey prev n) ns

@[simp] theorem decode_nil (prev : Key) : decode prev [] = [] := rfl

@[simp] theorem decode_cons (prev : Key) (n : IndexNode) (ns : List IndexNode) :
    decode prev (n :: ns) = entryOf prev n :: decode (nodeKey prev n) ns := rfl

@[simp] theorem decode_append (prev : Key) (ns ms : List IndexNode) :
    decode prev (ns ++ ms) = decode prev ns ++ decode (lastKey prev ns) ms := by
  induction ns generalizing prev with
  | nil => rfl
  | cons n ns ih => simp [ih]

theorem decode_length (prev : Key) (ns : List IndexNode) : (decode prev ns).length = ns.length := by
  induction ns generalizing prev with
  | nil => rfl
  | cons n ns ih => simp [ih]

theorem mem_decode {prev : Key} {ns : List IndexNode} {e : Entry} (h : e ∈ decode prev ns) :
    ∃ p n q, ns = p ++ n :: q ∧ e = entryOf (lastKey prev p) n := by
  induction ns generalizing prev with
  | nil => simp at h
  | cons n ns ih =>
    rcases List.mem_cons.1 h with rfl | h
    · exact ⟨[], n, ns, rfl, rfl⟩
    · obtain ⟨p, m, q, rfl, he⟩ := ih h
      exact ⟨n :: p, m, q, rfl, he⟩

/-- The entries of a chain are sorted, and only the last is a marker. -/
theorem Chain.pairwise {d : Bool} {prev : Option Key} {ns : List IndexNode} (h : Chain d prev ns) :
    (decode (prev.getD []) ns).Pairwise fun a b => a.isEndLevel = false ∧ a.isEndBucket = false ∧
      (b.isEndLevel = false → AtMost d a.key b.key) := by
  have hall : ∀ {ns : List IndexNode} {prev : Key}, Chain d (some prev) ns →
      ∀ e ∈ decode prev ns, e.isEndLevel = false → AtMost d prev e.key := by
    intro ns
    induction ns with
    | nil => simp
    | cons n ns ih =>
      intro prev h e he hl
      rcases List.mem_cons.1 he with rfl | he
      · exact (h.linked hl).2 prev rfl
      · have hne : ns ≠ [] := by
          rintro rfl
          simp at he
        have ht := h.tail hne
        exact ((h.linked ht.1).2 prev rfl).trans (ih ht.2.2 e he hl)
  induction ns generalizing prev with
  | nil => simp
  | cons n ns ih =>
    by_cases hne : ns = []
    · simp [hne]
    · have ht := h.tail hne
      exact List.pairwise_cons.2
        ⟨fun e he => ⟨ht.1, ht.2.1, hall ht.2.2 e he⟩, ih ht.2.2⟩

theorem Chain.atMost_lastKey {d : Bool} {prev : Key} {pre rest : List IndexNode}
    (h : Chain d (some prev) (pre ++ rest)) (hne : rest ≠ []) : AtMost d prev (lastKey prev pre) := by
  induction pre generalizing prev with
  | nil => exact AtMost.refl d prev
  | cons n pre ih =>
    have ht := Chain.tail h (by simp [hne])
    exact ((Chain.linked h ht.1).2 prev rfl).trans (ih ht.2.2)

/-- No entry before a further node is above the last one before it. -/
theorem Chain.atMost_prevKey {d : Bool} {pre rest : List IndexNode} {e : Entry}
    (h : Chain d none (pre ++ rest)) (hne : rest ≠ []) (he : e ∈ decode [] pre) :
    ∃ k ∈ prevKey none pre, AtMost d e.key k := by
  obtain ⟨p, n, q, rfl, rfl⟩ := mem_decode he
  rw [List.append_assoc, List.cons_append] at h
  have ht := ((h.append_right (by simp)).2.tail (by simp [hne])).2.2
  rw [prevKey_getD] at ht
  refine ⟨_, prevKey_of_ne_nil none (by simp), ?_⟩
  rw [lastKey_append, lastKey_cons]
  exact ht.atMost_lastKey hne

/-- The record numbers of the entries of a key do not decrease. -/
def RecordsOrdered (key : Key) (es : List Entry) : Prop :=
  es.Pairwise fun a b =>
    b.isEndLevel = false → a.key = key → b.key = key → a.recordNumber ≤ b.recordNumber

instance (key : Key) (es : List Entry) : Decidable (RecordsOrdered key es) := by
  unfold RecordsOrdered
  infer_instance

/-! ## Index descriptions and search keys -/

/-- The fields of `index_desc` that the search and the update of a bucket read. -/
structure IndexDesc where
  idxCount : ℕ
  idxDescending : Bool
  idxPrimary : Bool
  idxUnique : Bool
  deriving DecidableEq, Repr

/-- `temporary_key`; `keyNulls` has a bit for each null segment and `keyEmpty` is the flag
`key_empty`, set when all segments are empty strings. -/
structure TemporaryKey where
  keyData : Key
  keyNulls : ℕ
  keyEmpty : Bool
  deriving DecidableEq, Repr

/-- Duplicates are validated, so that record numbers do not order them. -/
def validateDuplicates (idx : IndexDesc) (key : TemporaryKey) : Bool :=
  let keyAllNulls := key.keyNulls == 2 ^ idx.idxCount - 1
  idx.idxUnique && !keyAllNulls || idx.idxPrimary

/-! ## Jump nodes -/

/-- `j` leads to a node of `ns`, not the end-of-level marker, and together with the bytes of the
jump node before it holds that node's prefix. -/
def JumpTo (start : ℕ) (leafNode : Bool) (ns : List IndexNode) (prevBytes : Key)
    (j : IndexJumpNode) : Prop :=
  ∃ pre n post, ns = pre ++ n :: post ∧ j.offset = start + nodesSize leafNode pre ∧
    n.isEndLevel = false ∧ j.total = n.prefixLen ∧ j.prefixLen ≤ prevBytes.length ∧
    prevBytes.take j.prefixLen ++ j.data = (lastKey [] pre).take n.prefixLen

/-- The jump table: jump nodes are compressed against each other's prefix bytes. -/
def JumpChain (start : ℕ) (leafNode : Bool) (ns : List IndexNode) :
    Key → List IndexJumpNode → Prop
  | _, [] => True
  | prevBytes, j :: js => JumpTo start leafNode ns prevBytes j ∧
      JumpChain start leafNode ns (prevBytes.take j.prefixLen ++ j.data) js

/-- The prefix bytes that the last of `js` stands for. -/
def jumpBytes (prev : Key) (js : List IndexJumpNode) : Key :=
  js.foldl (fun bytes j => bytes.take j.prefixLen ++ j.data) prev

theorem jumpChain_append {start : ℕ} {leafNode : Bool} {ns : List IndexNode} {prev : Key}
    {js ks : List IndexJumpNode} : JumpChain start leafNode ns prev (js ++ ks) ↔
      JumpChain start leafNode ns prev js ∧ JumpChain start leafNode ns (jumpBytes prev js) ks := by
  induction js generalizing prev with
  | nil => simp [JumpChain, jumpBytes]
  | cons j js ih => simp [JumpChain, ih, jumpBytes, and_assoc]

theorem jumpBytes_append (prev : Key) (js ks : List IndexJumpNode) :
    jumpBytes prev (js ++ ks) = jumpBytes (jumpBytes prev js) ks := List.foldl_append

/-- The jump nodes lead to nodes behind the first one, from left to right. -/
structure ValidJumps (start : ℕ) (leafNode : Bool) (ns : List IndexNode)
    (js : List IndexJumpNode) : Prop where
  chain : JumpChain start leafNode ns [] js
  increasing : (js.map (·.offset)).Pairwise (· < ·)
  behindFirst : ∀ j ∈ js, start < j.offset

/-- The prefix of a node is no longer than the key before it. -/
theorem Nodes.prefixLen_le {d leafNode : Bool} {pre post : List IndexNode} {n : IndexNode}
    (h : Nodes d leafNode (pre ++ n :: post)) (hl : n.isEndLevel = false) :
    n.prefixLen ≤ (lastKey [] pre).length := by
  rw [(h.linked hl).1]
  exact lcp_le_left _ _

end FirebirdCore.Btr
