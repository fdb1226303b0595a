import FirebirdCore.Btr.Page
import FirebirdCore.Lib.Buffer

/-!
# Searching a bucket

`findAreaStartPoint` walks the jump table and returns the offset of a node at which the search
may start, together with the common prefix of the key and the node before it.
`findNodeStartPoint` scans from there to the first node that is not passed. The key pointer of
the scans is always `key + prefix`, so only the prefix is kept.
-/
namespace FirebirdCore.Btr
open FirebirdCore.KeyOrder FirebirdCore.Buffer

/-- How the byte loop of a search ends: at a node that is not passed (`equal` tells that key and
node are exhausted together), or behind `matched` common bytes of a node that is passed. -/
inductive Verdict where
  | stop (equal : Bool)
  | pass (matched : ℕ)
  deriving DecidableEq, Repr

/-- The byte loop shared by the searches: `p` is what is left of the key, `q` the node data. The
end of the key is below any byte in an ascending index; in a descending index the end of the
node is above any byte, and a key that ends first passes the node unless `retrieval` is set. -/
def compareBytes (descending retrieval : Bool) : Key → List UInt8 → Verdict
  | [], [] => .stop true
  | [], _ :: _ => if descending && !retrieval then .pass 0 else .stop false
  | _ :: _, [] => if descending then .stop false else .pass 0
  | a :: p, b :: q =>
      if a > b then .pass 0
      else if a < b then .stop false
      else match compareBytes descending retrieval p q with
        | .pass m => .pass (m + 1)
        | v => v

/-- A search for `key` passes the node key `k`. -/
def Passes (descending retrieval : Bool) (key k : Key) : Prop :=
  Before descending k key ∧ ¬ (descending = true ∧ retrieval = true ∧ key <+: k)

instance (d r : Bool) (key k : Key) : Decidable (Passes d r key k) := by
  unfold Passes
  infer_instance

/-- Walk through the jump nodes that lead to duplicates of the key, as long as their record
numbers are below the one to find. -/
def walkDuplicates (bucket : BtreePage) (descending : Bool) (findRecordNumber jumpKeyLength : ℕ) :
    ℕ → ℕ → IndexJumpNode → IndexNode → ℕ × ℕ → ℕ × ℕ
  | 0, _, _, _, prev => prev
  | n + 1, pointer, jumpNode, node, prev =>
      if findRecordNumber ≤ node.recordNumber then prev
      else
        let prevJumpNode := jumpNode
        let (jumpNode, pointer) := bucket.readJumpNode pointer
        let node := (bucket.readNode jumpNode.offset).1
        if node.length ≠ 0 ∨ node.prefixLen ≠ prevJumpNode.total ∨
            (descending = true ∧ node.prefixLen < jumpKeyLength) ∨
            jumpNode.prefixLen ≠ prevJumpNode.total ∨ node.isEndBucket ∨ node.isEndLevel then
          (prevJumpNode.offset, prevJumpNode.total)
        else
          walkDuplicates bucket descending findRecordNumber jumpKeyLength n pointer jumpNode node
            (prevJumpNode.offset, prevJumpNode.total)

/-- The comparison at one jump node; `pass` holds the new `testPrefix`. A jump node whose prefix
exceeds the running one is passed unseen. -/
def compareJumpKey (descending retrieval : Bool) (key jumpKey : Key) (jumpPrefix testPrefix : ℕ) :
    Verdict :=
  if jumpPrefix ≤ testPrefix then
    match compareBytes descending retrieval (key.drop jumpPrefix) (jumpKey.drop jumpPrefix) with
    | .pass matched => .pass (jumpPrefix + matched)
    | v => v
  else .pass testPrefix

/-- The loop over the `n` jump nodes from `pointer` on; `prev` is the offset of the last jump
node passed and the prefix to return with it. -/
def findAreaLoop (bucket : BtreePage) (key : Key) (descending retrieval : Bool)
    (findRecordNumber : ℕ) : ℕ → ℕ → List UInt8 → ℕ → ℕ × ℕ → ℕ × ℕ
  | 0, _, _, _, prev => prev
  | n + 1, pointer, jumpKey, testPrefix, prev =>
      let r := bucket.readJumpNode pointer
      let jumpNode := r.1
      let node := (bucket.readNode jumpNode.offset).1
      -- jumpKey will hold complete data of the referenced node
      let jumpKey := blit (blit jumpKey jumpNode.prefixLen jumpNode.data) node.prefixLen node.data
      let jumpKeyLength := node.prefixLen + node.length
      match compareJumpKey descending retrieval key (jumpKey.take jumpKeyLength)
          jumpNode.prefixLen testPrefix with
      | .stop equal =>
          if equal && findRecordNumber != noValue then
            walkDuplicates bucket descending findRecordNumber jumpKeyLength n r.2 jumpNode node prev
          else prev
      | .pass testPrefix =>
          findAreaLoop bucket key descending retrieval findRecordNumber n r.2 jumpKey testPrefix
            (jumpNode.offset, min jumpNode.total testPrefix)

def findAreaStartPoint (bucket : BtreePage) (key : Key) (descending retrieval : Bool)
    (findRecordNumber : ℕ) : ℕ × ℕ :=
  findAreaLoop bucket key descending retrieval findRecordNumber bucket.btrJumpCount btrSize [] 0
    (bucket.firstNode, 0)

/-- What a scan makes of a node when `pfx` bytes of the key are matched; `pass` holds the new
running prefix. A node of a smaller prefix is above the key and one of a greater prefix below it;
a repeated key is passed unseen in an ascending index, unless it comes first. -/
def compareNode (descending retrieval : Bool) (key : Key) (pfx : ℕ) (firstPass : Bool)
    (node : IndexNode) : Verdict :=
  if node.prefixLen < pfx then .stop false
  else if node.prefixLen = pfx ∧ (descending ∨ node.length > 0 ∨ firstPass) then
    match compareBytes descending retrieval (key.drop pfx) node.data with
    | .pass matched => .pass (pfx + matched)
    | v => v
  else .pass pfx

/-- The scan of `find_node_start_point` at the node read from `nodePointer`. Every node takes at
least one byte, so `fuel` runs out only behind the end of the page. -/
def findNodeLoop (bucket : BtreePage) (key : Key) (descending retrieval pointerByMarker : Bool) :
    ℕ → ℕ → IndexNode → ℕ → ℕ → Bool → Except BugCheck (Option (ℕ × ℕ))
  | 0, _, _, _, _, _ => .error .indexInconsistent
  | fuel + 1, nodePointer, node, pointer, pfx, firstPass =>
      if node.isEndLevel then .ok (some (nodePointer, pfx))
      else
        match compareNode descending retrieval key pfx firstPass node with
        | .stop _ => .ok (some (nodePointer, pfx))
        | .pass pfx' =>
            if node.isEndBucket then
              if pointerByMarker && pfx' == key.length && pfx' == node.prefixLen + node.length then
                .ok (some (nodePointer, pfx'))
              else .ok none
            else
              let r := bucket.readNode pointer
              if r.2 > bucket.btrLength then .error .indexInconsistent
              else findNodeLoop bucket key descending retrieval pointerByMarker fuel pointer r.1 r.2
                pfx' (firstPass && (descending || node.prefixLen != pfx))

/-- The offset of the insertion point and the prefix it shares with the key, or `none` if the key
does not belong in this bucket. -/
def findNodeStartPoint (bucket : BtreePage) (key : Key)
    (descending retrieval pointerByMarker : Bool) (findRecordNumber : ℕ) :
    Except BugCheck (Option (ℕ × ℕ)) :=
  let (nodePointer, pfx) := findAreaStartPoint bucket key descending retrieval findRecordNumber
  let (node, pointer) := bucket.readNode nodePointer
  if pointer > bucket.btrLength then .error .indexInconsistent
  else if !bucket.leafPage && descending && nodePointer == bucket.firstNode && node.length == 0 then
    -- the dummy node on the front would be the first matching node of a descending index
    let (node, pointer') := bucket.readNode pointer
    if pointer' > bucket.btrLength then .error .indexInconsistent
    else findNodeLoop bucket key descending retrieval pointerByMarker (bucket.btrLength + 1)
      pointer node pointer' pfx true
  else findNodeLoop bucket key descending retrieval pointerByMarker (bucket.btrLength + 1)
    nodePointer node pointer pfx true

/-! ## The byte loop -/

theorem passes_append (d r : Bool) (w p q : Key) :
    Passes d r (w ++ p) (w ++ q) ↔ Passes d r p q := by
  simp [Passes, before_append, List.prefix_append_right_inj]

/-- The byte loop decides `Passes` and, where it stops, whether key and node are equal. -/
theorem compareBytes_spec (d r : Bool) (p q : Key) :
    compareBytes d r p q = if Passes d r p q then .pass (lcp q p) else .stop (decide (p = q)) := by
  induction p generalizing q with
  | nil =>
    cases q with
    | nil => simp [compareBytes, Passes, Before]
    | cons b q => cases d <;> cases r <;> simp [compareBytes, Passes, Before]
  | cons a p ih =>
    cases q with
    | nil => cases d <;> cases r <;> simp [compareBytes, Passes, Before]
    | cons b q =>
      rcases lt_trichotomy a b with h | rfl | h
      · have hp : ¬ Passes d r (a :: p) (b :: q) := by
          simp [Passes, Before, h.not_gt, h.ne']
        simp [compareBytes, hp, h, h.not_gt, h.ne]
      · have hp : Passes d r (a :: p) (a :: q) ↔ Passes d r p q := by
          simpa using passes_append d r [a] p q
        simp only [compareBytes, gt_iff_lt, lt_irrefl, if_false, ih, hp]
        split_ifs with hq
        · simp [lcp]
        · simp
      · have hp : Passes d r (a :: p) (b :: q) := by
          refine ⟨.inl h, fun hc => ?_⟩
          have := hc.2.2
          simp only [List.cons_prefix_cons] at this
          exact h.ne' this.1
        simp [compareBytes, hp, h, lcp, h.ne]

/-! ## The scan -/

/-- The scan on whole keys: the first node that is not passed, with the prefix the key shares
with the node before it. -/
def firstNotPassed (d r : Bool) (key : Key) (leafNode : Bool) :
    ℕ → Key → List IndexNode → Option (ℕ × ℕ)
  | _, _, [] => none
  | pointer, prev, n :: ns =>
      if n.isEndLevel ∨ ¬ Passes d r key (nodeKey prev n) then some (pointer, lcp prev key)
      else if n.isEndBucket then none
      else firstNotPassed d r key leafNode (pointer + n.getNodeSize leafNode) (nodeKey prev n) ns

theorem firstNotPassed_pass {d r leafNode : Bool} {key prev : Key} {pointer : ℕ} {n : IndexNode}
    {ns : List IndexNode} (hl : n.isEndLevel = false) (hb : n.isEndBucket = false)
    (hp : Passes d r key (nodeKey prev n)) :
    firstNotPassed d r key leafNode pointer prev (n :: ns) =
      firstNotPassed d r key leafNode (pointer + n.getNodeSize leafNode) (nodeKey prev n) ns := by
  rw [firstNotPassed, if_neg (by simp [hl, hp]), if_neg (by simp [hb])]

theorem Passes.before {d r : Bool} {key k : Key} (h : Passes d r key k) : Before d k key := h.1

theorem Passes.ne {d r : Bool} {key k : Key} (h : Passes d r key k) : k ≠ key := h.1.ne

/-- What stands before a passed key is passed. -/
theorem Passes.of_atMost {d r : Bool} {key k k' : Key} (h : Passes d r key k')
    (hk : AtMost d k k') : Passes d r key k := by
  refine ⟨hk.trans_before h.1, fun ⟨hd, hr, hp⟩ => h.2 ⟨hd, hr, ?_⟩⟩
  exact prefix_of_between d hk h.1.atMost hp (List.prefix_refl key)

/-- A node that leaves the last passed key before the search key does is not passed. -/
theorem not_passes_of_lt {d r : Bool} {key prev k : Key} (hk : AtMost d prev k)
    (h : lcp prev k < lcp prev key) : ¬ Passes d r key k :=
  fun hp => (before_of_lcp_lt d hk h).asymm hp.before

/-- A node that follows the last passed key for longer than the search key does is passed. -/
theorem passes_of_gt {d r : Bool} {key prev k : Key} (hp : Passes d r key prev)
    (h : lcp prev key < lcp prev k) : Passes d r key k ∧ lcp k key = lcp prev key := by
  obtain ⟨hb, hl⟩ := before_of_lcp_gt d hp.before h
  refine ⟨⟨hb, fun ⟨hd, hr, hpre⟩ => hp.2 ⟨hd, hr, ?_⟩⟩, hl⟩
  rw [← lcp_eq_length_iff, lcp_comm] at hpre ⊢
  omega

/-- Where the node prefix is the running one, key and node key are compared behind it. -/
theorem passes_split {d r : Bool} {key prev : Key} {n : IndexNode}
    (h : n.prefixLen = lcp prev key) :
    (Passes d r (key.drop n.prefixLen) n.data ↔ Passes d r key (nodeKey prev n)) ∧
      lcp (nodeKey prev n) key = n.prefixLen + lcp n.data (key.drop n.prefixLen) := by
  have hk : nodeKey prev n = key.take n.prefixLen ++ n.data := by
    rw [nodeKey, take_eq_of_le_lcp h.le]
  have hlen : (key.take n.prefixLen).length = n.prefixLen := by
    have := lcp_le_right prev key
    simp only [List.length_take]
    omega
  have hp := passes_append d r (key.take n.prefixLen) (key.drop n.prefixLen) n.data
  have hl := lcp_append (key.take n.prefixLen) n.data (key.drop n.prefixLen)
  rw [List.take_append_drop, ← hk] at hp hl
  exact ⟨hp.symm, by rw [hl, hlen]⟩

/-- A repeated key needs no comparison when the scan has passed it once. -/
theorem passes_duplicate {r : Bool} {key prev : Key} {n : IndexNode}
    (hp : Passes false r key prev) (h : n.prefixLen = lcp prev key) (hd : n.data = []) :
    Passes false r key (nodeKey prev n) ∧ lcp (nodeKey prev n) key = lcp prev key := by
  have hlt : lcp prev key < key.length := by
    refine lt_of_le_of_ne (lcp_le_right _ _) fun he => ?_
    have hpre : key <+: prev := by rwa [lcp_comm, lcp_eq_length_iff] at he
    exact (before_of_extended hpre hp.ne.symm).asymm hp.before
  obtain ⟨hs, hl⟩ := passes_split (d := false) (r := r) h
  rw [hd] at hs hl
  refine ⟨hs.1 ⟨?_, by simp⟩, by rw [hl, h]; simp⟩
  cases hk : key.drop n.prefixLen with
  | nil =>
    have := congrArg List.length hk
    simp only [List.length_drop, List.length_nil] at this
    omega
  | cons => rfl

/-- Behind passed keys, one step of a scan decides `Passes` and equality for the whole node key. -/
theorem compareNode_spec {d r firstPass : Bool} {key : Key} {prev : Option Key} {n : IndexNode}
    (hlink : Linked d prev n) (hprev : ∀ k ∈ prev, Passes d r key k)
    (hfirst : prev = none → firstPass = true) :
    compareNode d r key (lcp (prev.getD []) key) firstPass n =
      if Passes d r key (nodeKey (prev.getD []) n) then .pass (lcp (nodeKey (prev.getD []) n) key)
      else .stop (decide (key = nodeKey (prev.getD []) n)) := by
  obtain ⟨hpfx, hle⟩ := hlink
  unfold compareNode
  rcases lt_trichotomy n.prefixLen (lcp (prev.getD []) key) with hlt | heq | hgt
  · have hnot : ¬ Passes d r key (nodeKey (prev.getD []) n) := by
      cases prev with
      | none => simp at hlt
      | some k => exact not_passes_of_lt (hle k rfl) (hpfx ▸ hlt)
    have hne : key ≠ nodeKey (prev.getD []) n := fun he => by
      rw [← he] at hpfx
      omega
    rw [if_pos hlt, if_neg hnot, decide_eq_false hne]
  · obtain ⟨hpass, hlcp⟩ := passes_split (d := d) (r := r) heq
    rw [if_neg heq.not_lt]
    by_cases hcmp : d = true ∨ n.length > 0 ∨ firstPass = true
    · rw [if_pos ⟨heq, hcmp⟩, ← heq, compareBytes_spec]
      by_cases hp : Passes d r key (nodeKey (prev.getD []) n)
      · rw [if_pos (hpass.2 hp), if_pos hp, hlcp]
      · rw [if_neg (mt hpass.1 hp), if_neg hp]
        have hiff : key.drop n.prefixLen = n.data ↔ key = nodeKey (prev.getD []) n := by
          have htake : nodeKey (prev.getD []) n = key.take n.prefixLen ++ n.data := by
            rw [nodeKey, take_eq_of_le_lcp heq.le]
          rw [htake]
          conv_rhs => lhs; rw [← List.take_append_drop n.prefixLen key]
          exact List.append_cancel_left_eq .. ▸ Iff.rfl
        simp only [hiff]
    · rw [if_neg fun h => hcmp h.2]
      simp only [not_or, Bool.not_eq_true, gt_iff_lt, Nat.not_lt, Nat.le_zero] at hcmp
      obtain ⟨rfl, hzero, hfp⟩ := hcmp
      cases prev with
      | none => simp [hfirst rfl] at hfp
      | some k =>
        obtain ⟨hp, hsame⟩ := passes_duplicate (hprev k rfl) heq (List.length_eq_zero_iff.1 hzero)
        rw [Option.getD_some, if_pos hp, hsame]
  · rw [if_neg hgt.not_gt, if_neg fun h => hgt.ne' h.1]
    cases prev with
    | none =>
      simp only [Option.getD_none, lcp_nil_left] at hpfx hgt
      omega
    | some k =>
      obtain ⟨hp, hsame⟩ := passes_of_gt (hprev k rfl) (hpfx ▸ hgt)
      simp only [Option.getD_some] at hp hsame ⊢
      rw [if_pos hp, hsame]

/-- A node equal to the key stops a scan that starts there. -/
theorem compareNode_equal {d r : Bool} {key prev : Key} {n : IndexNode}
    (hlink : n.prefixLen = lcp prev key) (hkey : nodeKey prev n = key) :
    compareNode d r key n.prefixLen true n = .stop true := by
  have hdrop : key.drop n.prefixLen = n.data := by
    have htake : (prev.take n.prefixLen).length = n.prefixLen := by
      have := lcp_le_left prev key
      simp only [List.length_take]
      omega
    rw [← hkey, nodeKey, List.drop_left' htake]
  simp [compareNode, hdrop, compareBytes_spec, Passes, before_irrefl]

/-- From a node before which every key is passed, the scan finds the first node that is not. -/
theorem findNodeLoop_spec {page : BtreePage} {js : List IndexJumpNode} {d r marker : Bool}
    {key : Key} {pre post : List IndexNode} {n : IndexNode} {prev : Option Key} {fuel : ℕ}
    {firstPass : Bool} (hlay : Layout page js (pre ++ n :: post)) (hc : Chain d prev (n :: post))
    (hprev : ∀ k ∈ prev, Passes d r key k) (hfirst : prev = none → firstPass = true)
    (hfuel : post.length < fuel) {pointer : ℕ}
    (hptr : pointer = page.firstNode + nodesSize page.leafPage pre) :
    findNodeLoop page key d r marker fuel pointer n (pointer + n.getNodeSize page.leafPage)
      (lcp (prev.getD []) key) firstPass =
    .ok (firstNotPassed d r key page.leafPage pointer (prev.getD []) (n :: post)) := by
  induction fuel generalizing pre n post prev firstPass pointer with
  | zero => omega
  | succ fuel ih =>
    rw [findNodeLoop]
    cases hl : n.isEndLevel with
    | true => simp [firstNotPassed, hl]
    | false =>
      have hlink := hc.linked hl
      rw [if_neg Bool.false_ne_true, compareNode_spec hlink hprev hfirst]
      by_cases hp : Passes d r key (nodeKey (prev.getD []) n)
      · rw [if_pos hp]
        dsimp only
        cases hb : n.isEndBucket with
        | true =>
          -- the marker is passed, so it is not equal to the key
          have hlen := nodeKey_length hlink.1
          have hne : ¬ (lcp (nodeKey (prev.getD []) n) key = key.length ∧
              lcp (nodeKey (prev.getD []) n) key = n.prefixLen + n.length) := fun he =>
            hp.ne (eq_of_lcp_eq_lengths (he.2.trans hlen.symm) he.1)
          have hmark : (marker && lcp (nodeKey (prev.getD []) n) key == key.length &&
              lcp (nodeKey (prev.getD []) n) key == n.prefixLen + n.length) = false := by
            cases marker
            · rfl
            · simpa using fun h₁ h₂ => hne ⟨h₁, h₂⟩
          rw [if_pos rfl, hmark]
          simp [firstNotPassed, hl, hb, hp]
        | false =>
          have ht := (chain_node hl hb).1 hc
          obtain ⟨m, post, rfl⟩ := List.exists_cons_of_ne_nil ht.2.ne_nil
          have hlay' : Layout page js ((pre ++ [n]) ++ m :: post) := by simpa using hlay
          have hptr' : pointer + n.getNodeSize page.leafPage =
              page.firstNode + nodesSize page.leafPage (pre ++ [n]) := by
            simp only [hptr, nodesSize_append, nodesSize_cons, nodesSize_nil]
            omega
          have hend := hlay'.node_end_le
          rw [hlay'.readNode hptr', if_neg Bool.false_ne_true, if_neg (by omega),
            firstNotPassed_pass hl hb hp]
          exact ih hlay' ht.2 (by simpa using hp) (by simp)
            (by simp only [List.length_cons] at hfuel; omega) hptr'
      · rw [if_neg hp]
        simp [firstNotPassed, hp]

/-! ## The walk over the jump table -/

/-- A start the walk may return: the first node of the page, or a node that is passed, or one
equal to the key whose record number is below the one to find; always with the prefix that the
key shares with the node before it. -/
def AreaStart (page : BtreePage) (d r : Bool) (key : Key) (findRecordNumber : ℕ)
    (ns : List IndexNode) (start : ℕ × ℕ) : Prop :=
  ∃ pre n post, ns = pre ++ n :: post ∧
    start.1 = page.firstNode + nodesSize page.leafPage pre ∧
    start.2 = lcp (lastKey [] pre) key ∧
    (pre = [] ∨ n.isEndLevel = false ∧
      (Passes d r key (nodeKey (lastKey [] pre) n) ∨
        findRecordNumber ≠ noValue ∧ nodeKey (lastKey [] pre) n = key ∧
          n.recordNumber < findRecordNumber))

/-- The prefix shared with the node before one that is not above the key. -/
theorem Nodes.lcp_before {d leafNode : Bool} {pre post : List IndexNode} {n : IndexNode} {key : Key}
    (h : Nodes d leafNode (pre ++ n :: post)) (hl : n.isEndLevel = false)
    (hk : AtMost d (nodeKey (lastKey [] pre) n) key) :
    lcp (lastKey [] pre) key = min n.prefixLen (lcp (nodeKey (lastKey [] pre) n) key) := by
  obtain ⟨hp, hle⟩ := h.linked hl
  rcases hle with he | hle
  · rw [he] at hp ⊢
    simp [hp]
  · rw [lcp_of_atMost d hle hk, ← hp]

/-- A walk through duplicates returns a permitted start. -/
theorem walkDuplicates_spec {page : BtreePage} {d r : Bool} {key : Key} {find pointer : ℕ}
    {ns : List IndexNode} {jpre js : List IndexJumpNode} {j : IndexJumpNode} {bytes : Key}
    {pre post : List IndexNode} {n : IndexNode} {prev : ℕ × ℕ}
    (hlay : Layout page (jpre ++ js) ns) (hn : Nodes d page.leafPage ns)
    (hj : JumpChain page.firstNode page.leafPage ns bytes js)
    (hptr : pointer = btrSize + jumpNodesSize jpre) (hfind : find ≠ noValue)
    (hns : ns = pre ++ n :: post) (hl : n.isEndLevel = false)
    (hoff : j.offset = page.firstNode + nodesSize page.leafPage pre)
    (htotal : j.total = n.prefixLen) (hbytes : bytes = (lastKey [] pre).take n.prefixLen)
    (hkey : bytes <+: key) (hlen : bytes.length = j.total)
    (hnode : nodeKey (lastKey [] pre) n = key ∨ d = false ∧ nodeKey (lastKey [] pre) n = bytes)
    (hprev : AreaStart page d r key find ns prev) :
    AreaStart page d r key find ns
      (walkDuplicates page d find key.length js.length pointer j n prev) := by
  induction js generalizing jpre j bytes pre n post prev pointer with
  | nil => exact hprev
  | cons j' js ih =>
    simp only [List.length_cons, walkDuplicates]
    by_cases hrec : find ≤ n.recordNumber
    · rw [if_pos hrec]
      exact hprev
    rw [if_neg hrec]
    -- the node of this jump node is a permitted start
    have hstart : AreaStart page d r key find ns (j.offset, j.total) := by
      refine ⟨pre, n, post, hns, hoff, ?_, ?_⟩
      · have hat : AtMost d (nodeKey (lastKey [] pre) n) key := by
          rcases hnode with he | ⟨rfl, he⟩
          · rw [he]; exact AtMost.refl d key
          · rw [he]
            by_cases hk : bytes = key
            · rw [hk]; exact AtMost.refl _ _
            · exact (before_of_extended hkey hk).atMost
        have hn' : Nodes d page.leafPage (pre ++ n :: post) := hns ▸ hn
        rw [hn'.lcp_before hl hat, htotal]
        have : n.prefixLen ≤ lcp (nodeKey (lastKey [] pre) n) key := by
          rcases hnode with he | ⟨-, he⟩
          · rw [he, lcp_self, ← htotal, ← hlen]
            exact hkey.length_le
          · rw [he, lcp_eq_length_iff.2 hkey, hlen, htotal]
        omega
      · refine .inr ⟨hl, ?_⟩
        rcases hnode with he | ⟨rfl, he⟩
        · exact .inr ⟨hfind, he, by omega⟩
        · by_cases hk : bytes = key
          · exact .inr ⟨hfind, he.trans hk, by omega⟩
          · refine .inl ⟨?_, by simp⟩
            rw [he]
            exact before_of_extended hkey hk
    obtain ⟨⟨pre', n', post', hns', hoff', hl', htotal', hle', hbytes'⟩, hj'⟩ := hj
    have hlay' : Layout page ((jpre ++ [j']) ++ js) ns := by simpa using hlay
    have hread : Layout page ((jpre ++ [j']) ++ js) (pre' ++ n' :: post') := hns' ▸ hlay'
    simp only [hlay.readJumpNode hptr, hread.readNode hoff']
    split_ifs with hbreak
    · exact hstart
    · simp only [not_or, ne_eq, not_not, not_and, Nat.not_lt] at hbreak
      obtain ⟨hz, hpfx, hdesc, hjp, -, -⟩ := hbreak
      have hdata : j'.data = [] := by
        have := htotal'
        simp only [IndexJumpNode.total, hjp, hpfx, Nat.add_eq_left] at this
        exact List.length_eq_zero_iff.1 this
      have hsame : bytes.take j'.prefixLen ++ j'.data = bytes := by
        rw [hdata, hjp, ← hlen, List.take_length, List.append_nil]
      have hkey' : nodeKey (lastKey [] pre') n' = bytes := by
        rw [nodeKey, ← hbytes', hsame, List.length_eq_zero_iff.1 hz, List.append_nil]
      have hlen' : bytes.length = j'.total := by rw [hlen, htotal', hpfx]
      rw [hsame] at hbytes' hj'
      refine ih hlay' hj' ?_ hns' hl' hoff' htotal' hbytes' hkey hlen' ?_ hstart
      · simp only [hptr, jumpNodesSize_append, jumpNodesSize_cons, jumpNodesSize_nil]
        omega
      · cases d with
        | false => exact .inr ⟨rfl, hkey'⟩
        | true =>
          left
          have h₁ := hdesc rfl
          rw [hpfx, ← hlen] at h₁
          rw [hkey', hkey.eq_of_length (Nat.le_antisymm hkey.length_le h₁)]

/-- The walk over the jump nodes returns a permitted start. `prevNode` is the key of the node the
last jump node led to; `testPrefix` is what it shares with the search key. -/
theorem findAreaLoop_spec {page : BtreePage} {d r : Bool} {key : Key} {find pointer : ℕ}
    {ns : List IndexNode} {jpre js : List IndexJumpNode} {bytes prevNode : Key}
    {jumpKey : List UInt8} {prev : ℕ × ℕ}
    (hlay : Layout page (jpre ++ js) ns) (hn : Nodes d page.leafPage ns)
    (hj : JumpChain page.firstNode page.leafPage ns bytes js)
    (hptr : pointer = btrSize + jumpNodesSize jpre)
    (hbuf : prevNode <+: jumpKey) (hbytes : bytes <+: prevNode)
    (hpass : bytes = [] ∨ Passes d r key prevNode)
    (hprev : AreaStart page d r key find ns prev) :
    AreaStart page d r key find ns
      (findAreaLoop page key d r find js.length pointer jumpKey (lcp prevNode key) prev) := by
  induction js generalizing jpre bytes prevNode jumpKey prev pointer with
  | nil => exact hprev
  | cons j js ih =>
    obtain ⟨⟨pre, n, post, hns, hoff, hl, htotal, hle, hjbytes⟩, hj'⟩ := hj
    have hlay' : Layout page ((jpre ++ [j]) ++ js) ns := by simpa using hlay
    have hread : Layout page ((jpre ++ [j]) ++ js) (pre ++ n :: post) := hns ▸ hlay'
    have hn' : Nodes d page.leafPage (pre ++ n :: post) := hns ▸ hn
    simp only [List.length_cons, findAreaLoop, hlay.readJumpNode hptr, hread.readNode hoff]
    obtain ⟨k, hk⟩ : ∃ k, k = nodeKey (lastKey [] pre) n := ⟨_, rfl⟩
    have hkbytes : k = bytes.take j.prefixLen ++ j.data ++ n.data := by
      rw [hk, nodeKey, hjbytes]
    have hjlen : (bytes.take j.prefixLen ++ j.data).length = j.total := by
      simp only [List.length_append, List.length_take, Nat.min_eq_left hle]
      rfl
    have hklen : k.length = n.prefixLen + n.length := by
      rw [hkbytes, List.length_append, hjlen, htotal]
      rfl
    -- the jump key now holds the key of the node
    have hbuf' : k <+: blit (blit jumpKey j.prefixLen j.data) n.prefixLen n.data := by
      have h₁ := blit_front (hbytes.trans hbuf) hle j.data
      have h₂ := blit_front h₁ (show n.prefixLen ≤ _ by rw [hjlen, htotal]) n.data
      rwa [← htotal, ← hjlen, List.take_length, hjlen, htotal, ← hkbytes] at h₂
    have htake : bytes.take j.prefixLen = prevNode.take j.prefixLen := by
      obtain ⟨t, rfl⟩ := hbytes
      rw [List.take_append_of_le_length hle]
    have hshare : j.prefixLen ≤ lcp prevNode k := by
      refine le_lcp_of_take_eq (hle.trans hbytes.length_le) ?_
      rw [← htake, hkbytes, List.append_assoc, List.take_append_of_le_length]
      · rw [List.take_take, Nat.min_self]
      · simp [hle]
    have hptr' : pointer + j.getJumpNodeSize = btrSize + jumpNodesSize (jpre ++ [j]) := by
      simp only [hptr, jumpNodesSize_append, jumpNodesSize_cons, jumpNodesSize_nil]
      omega
    have hsuffix : (bytes.take j.prefixLen ++ j.data) <+: k := by
      rw [hkbytes]
      exact List.prefix_append _ _
    -- a node that is passed is a permitted start, and the walk goes on from it
    have hgo : Passes d r key k →
        AreaStart page d r key find ns
          (findAreaLoop page key d r find js.length (pointer + j.getJumpNodeSize)
            (blit (blit jumpKey j.prefixLen j.data) n.prefixLen n.data) (lcp k key)
            (j.offset, min j.total (lcp k key))) := by
      intro hp
      refine ih hlay' hj' hptr' hbuf' hsuffix (.inr hp) ⟨pre, n, post, hns, hoff, ?_, .inr ⟨hl, ?_⟩⟩
      · rw [hn'.lcp_before hl (hk ▸ hp.before.atMost), htotal, hk]
      · exact .inl (hk ▸ hp)
    rw [← hklen, take_of_front hbuf', compareJumpKey]
    by_cases htest : j.prefixLen ≤ lcp prevNode key
    · rw [if_pos htest, compareBytes_spec]
      -- key and node agree up to the prefix of the jump node
      have hkeyTake : key.take j.prefixLen = k.take j.prefixLen :=
        (take_eq_of_le_lcp htest).symm.trans (take_eq_of_le_lcp hshare)
      have hpa := passes_append d r (k.take j.prefixLen) (key.drop j.prefixLen)
        (k.drop j.prefixLen)
      have hla := lcp_append (k.take j.prefixLen) (k.drop j.prefixLen) (key.drop j.prefixLen)
      rw [List.take_append_drop, ← hkeyTake, List.take_append_drop] at hpa
      rw [List.take_append_drop, ← hkeyTake, List.take_append_drop] at hla
      have hlen : (key.take j.prefixLen).length = j.prefixLen := by
        have := lcp_le_right prevNode key
        simp only [List.length_take]
        omega
      rw [hlen] at hla
      by_cases hp : Passes d r key k
      · rw [if_pos (hpa.1 hp)]
        simp only
        rw [← hla]
        exact hgo hp
      · rw [if_neg (mt hpa.2 hp)]
        simp only
        split_ifs with heq
        · simp only [Bool.and_eq_true, decide_eq_true_eq, bne_iff_ne] at heq
          have hkey : k = key := by
            rw [← List.take_append_drop j.prefixLen k, ← heq.1, ← hkeyTake,
              List.take_append_drop]
          rw [hkey] at hsuffix ⊢
          exact walkDuplicates_spec hlay' hn hj' hptr' heq.2 hns hl hoff htotal hjbytes hsuffix hjlen
            (.inl (hk.symm.trans hkey)) hprev
        · exact hprev
    · rw [if_neg htest]
      have hbne : bytes ≠ [] := by
        rintro rfl
        simp only [List.length_nil, Nat.le_zero] at hle
        omega
      obtain ⟨hp, hsame⟩ := passes_of_gt (hpass.resolve_left hbne)
        (lt_of_lt_of_le (Nat.lt_of_not_le htest) hshare)
      simp only
      rw [← hsame]
      exact hgo hp

theorem findAreaStartPoint_spec {page : BtreePage} {js : List IndexJumpNode} {ns : List IndexNode}
    {d : Bool} (r : Bool) (key : Key) (find : ℕ) (hlay : Layout page js ns) (hn : Nodes d page.leafPage ns)
    (hj : JumpChain page.firstNode page.leafPage ns [] js) :
    AreaStart page d r key find ns (findAreaStartPoint page key d r find) := by
  have hstart : AreaStart page d r key find ns (page.firstNode, 0) := by
    obtain ⟨n, post, rfl⟩ := List.exists_cons_of_ne_nil hn.ne_nil
    exact ⟨[], n, post, rfl, by simp, by simp, .inl rfl⟩
  rw [findAreaStartPoint, hlay.jumpCount, ← lcp_nil_left key]
  exact findAreaLoop_spec (show Layout page ([] ++ js) ns from hlay) hn hj (by simp) (List.prefix_refl _)
    (List.prefix_refl _) (.inl rfl) hstart

/-! ## The jump table does not change the result -/

/-- Nodes up to a passed one are all skipped. -/
theorem firstNotPassed_skip {d r : Bool} {key : Key} {prev : Option Key} {pre rest : List IndexNode}
    (leafNode : Bool) (pointer : ℕ) (h : Chain d prev (pre ++ rest)) (hne : rest ≠ [])
    (hp : ∀ k ∈ prevKey prev pre, Passes d r key k) :
    firstNotPassed d r key leafNode pointer (prev.getD []) (pre ++ rest) =
      firstNotPassed d r key leafNode (pointer + nodesSize leafNode pre)
        (lastKey (prev.getD []) pre) rest := by
  induction pre generalizing prev pointer with
  | nil => rfl
  | cons n pre ih =>
    have ht := Chain.tail h (by simp [hne])
    have hn : Passes d r key (nodeKey (prev.getD []) n) :=
      (hp _ rfl).of_atMost (ht.2.2.atMost_lastKey hne)
    have hi := ih (pointer + n.getNodeSize leafNode) ht.2.2
      (by rwa [prevKey_cons] at hp)
    rw [List.cons_append, firstNotPassed_pass ht.1 ht.2.1 hn, nodesSize_cons, lastKey_cons,
      ← Nat.add_assoc]
    exact hi

/-- The scan stops at the latest at a node that is not passed. -/
theorem firstNotPassed_stop {d r : Bool} {key : Key} {prev : Option Key} {pre post : List IndexNode}
    {n : IndexNode} (leafNode : Bool) (pointer : ℕ) (h : Chain d prev (pre ++ n :: post))
    (hl : n.isEndLevel = false) (hn : ¬ Passes d r key (nodeKey (lastKey (prev.getD []) pre) n)) :
    ∃ p m q, pre ++ n :: post = p ++ m :: q ∧
      (p = pre ∧ m = n ∨ ∃ mid, pre = p ++ m :: mid) ∧
      firstNotPassed d r key leafNode pointer (prev.getD []) (pre ++ n :: post) =
        some (pointer + nodesSize leafNode p, lcp (lastKey (prev.getD []) p) key) ∧
      ¬ Passes d r key (nodeKey (lastKey (prev.getD []) p) m) ∧
      AtMost d (nodeKey (lastKey (prev.getD []) p) m)
        (nodeKey (lastKey (prev.getD []) pre) n) := by
  induction pre generalizing prev pointer with
  | nil =>
    refine ⟨[], n, post, rfl, .inl ⟨rfl, rfl⟩, ?_, hn, AtMost.refl d _⟩
    rw [List.nil_append, firstNotPassed, if_pos (.inr (by simpa using hn))]
    simp
  | cons a pre ih =>
    have ht := Chain.tail h (by simp)
    by_cases ha : Passes d r key (nodeKey (prev.getD []) a)
    · obtain ⟨p, m, q, hs, hor, hf, hm, hle⟩ :=
        ih (pointer + a.getNodeSize leafNode) ht.2.2 hn
      refine ⟨a :: p, m, q, by rw [List.cons_append, hs, List.cons_append], ?_, ?_, hm, hle⟩
      · rcases hor with ⟨rfl, rfl⟩ | ⟨mid, rfl⟩
        · exact .inl ⟨rfl, rfl⟩
        · exact .inr ⟨mid, rfl⟩
      · rw [List.cons_append, firstNotPassed_pass ht.1 ht.2.1 ha]
        simpa [Nat.add_assoc] using hf
    · refine ⟨[], a, pre ++ n :: post, rfl, .inr ⟨pre, rfl⟩, ?_, ha, ?_⟩
      · rw [List.cons_append, firstNotPassed, if_pos (.inr ha)]
        simp
      · have hlink := (ht.2.2.append_right (by simp)).2.linked hl
        have hle := hlink.2 _ (prevKey_some _ _)
        exact (ht.2.2.atMost_lastKey (by simp)).trans hle

theorem findAreaStartPoint_withoutJumps (page : BtreePage) (key : Key) (d r : Bool) (find : ℕ) :
    findAreaStartPoint page.withoutJumps key d r find = (page.firstNode, 0) := rfl

theorem findNodeLoop_withoutJumps (page : BtreePage) (key : Key) (d r marker : Bool) (fuel : ℕ)
    (nodePointer : ℕ) (node : IndexNode) (pointer pfx : ℕ) (firstPass : Bool) :
    findNodeLoop page.withoutJumps key d r marker fuel nodePointer node pointer pfx firstPass =
      findNodeLoop page key d r marker fuel nodePointer node pointer pfx firstPass := by
  induction fuel generalizing nodePointer node pointer pfx firstPass with
  | zero => rfl
  | succ fuel ih =>
    simp only [findNodeLoop, ih, BtreePage.withoutJumps_readNode]
    rfl

/-- A walk that ends at the first node is followed by the linear scan. -/
theorem findNodeStartPoint_of_firstNode {page : BtreePage} {key : Key} {d r marker : Bool}
    {find : ℕ} (h : findAreaStartPoint page key d r find = (page.firstNode, 0)) :
    findNodeStartPoint page key d r marker find =
      findNodeStartPoint page.withoutJumps key d r marker find := by
  simp only [findNodeStartPoint, h, findAreaStartPoint_withoutJumps,
    BtreePage.withoutJumps_readNode, findNodeLoop_withoutJumps]
  rfl

/-- The degenerate node that a scan from the first node leaves out. -/
def skipped (descending leafNode : Bool) : List IndexNode → List IndexNode
  | [] => []
  | n :: _ => if !leafNode && descending && n.length == 0 then [n] else []

/-- The nodes of a scan from the first node. -/
def scanned (descending leafNode : Bool) : List IndexNode → List IndexNode
  | [] => []
  | n :: ns => if !leafNode && descending && n.length == 0 then ns else n :: ns

theorem skipped_append_scanned (d leafNode : Bool) (ns : List IndexNode) :
    skipped d leafNode ns ++ scanned d leafNode ns = ns := by
  cases ns with
  | nil => rfl
  | cons n ns =>
    simp only [skipped, scanned]
    split_ifs <;> rfl

/-- Behind the first node all nodes are scanned. -/
theorem scanned_append {pre : List IndexNode} (d leafNode : Bool) (rest : List IndexNode) (hne : pre ≠ []) :
    ∃ pre', pre = skipped d leafNode (pre ++ rest) ++ pre' ∧
      scanned d leafNode (pre ++ rest) = pre' ++ rest := by
  obtain ⟨a, pre, rfl⟩ := List.exists_cons_of_ne_nil hne
  simp only [List.cons_append, skipped, scanned]
  split_ifs
  · exact ⟨pre, rfl, rfl⟩
  · exact ⟨a :: pre, rfl, rfl⟩

/-- The scanned nodes are a chain, and only a degenerate node is left out. -/
theorem Nodes.scanned {d leafNode : Bool} {ns : List IndexNode} (h : Nodes d leafNode ns)
    (hchild : leafNode = true ∨ 1 < ns.length) :
    Chain d none (scanned d leafNode ns) ∧ (skipped d leafNode ns = [] ∨
      d = true ∧ ∃ a, skipped d leafNode ns = [a] ∧ Degenerate leafNode a) := by
  obtain ⟨n, ns, rfl⟩ := List.exists_cons_of_ne_nil h.ne_nil
  simp only [Btr.scanned, skipped]
  split_ifs with hskip
  · simp only [Bool.and_eq_true, Bool.not_eq_true', beq_iff_eq] at hskip
    have hne : ns ≠ [] := by
      rintro rfl
      simp [hskip.1.1] at hchild
    have hdeg : Degenerate leafNode n := by
      rcases h with h | ⟨m, rest, he, hm, -⟩
      · obtain ⟨hl, hb, -⟩ := h.tail hne
        have hp := (h.linked hl).1
        exact ⟨hskip.1.1, by simpa using hp, List.length_eq_zero_iff.1 hskip.2, hb, hl⟩
      · obtain ⟨rfl, -⟩ := List.cons.inj he
        exact hm
    exact ⟨h.of_degenerate hdeg, .inr ⟨hskip.1.2, n, rfl, hdeg⟩⟩
  · refine ⟨h.chain ?_, .inl rfl⟩
    by_contra hcon
    simp only [not_or, Bool.not_eq_false, List.head?_cons, Option.mem_def, Option.some.injEq,
      forall_eq', not_not] at hcon
    obtain ⟨rfl, hdeg⟩ := hcon
    exact hskip (by simp [hdeg.1, IndexNode.length, hdeg.2.2.1])

/-- The node left out of the scan has no key. -/
theorem Nodes.lastKey_skipped {d leafNode : Bool} {ns : List IndexNode} (h : Nodes d leafNode ns)
    (hchild : leafNode = true ∨ 1 < ns.length) : lastKey [] (skipped d leafNode ns) = [] := by
  rcases (h.scanned hchild).2 with he | ⟨-, a, he, ha⟩
  · rw [he]
    rfl
  · rw [he]
    exact ha.nodeKey []

/-- From a start before which every key is passed, the first node that is not passed is found. -/
theorem findNodeStartPoint_scan {page : BtreePage} {js : List IndexJumpNode}
    {pre post : List IndexNode} {n : IndexNode} {key : Key} {d r : Bool} {find : ℕ}
    (prev : Option Key) (marker : Bool) (hlay : Layout page js (pre ++ n :: post))
    (harea : findAreaStartPoint page key d r find =
      (page.firstNode + nodesSize page.leafPage pre, lcp (prev.getD []) key))
    (hc : Chain d prev (n :: post)) (hprev : ∀ k ∈ prev, Passes d r key k)
    (hskip : pre ≠ [] ∨ (!page.leafPage && d && n.length == 0) = false) :
    findNodeStartPoint page key d r marker find = .ok (firstNotPassed d r key page.leafPage
      (page.firstNode + nodesSize page.leafPage pre) (prev.getD []) (n :: post)) := by
  have hend := hlay.node_end_le
  have hlen := hlay.length_le
  simp only [List.length_append, List.length_cons] at hlen
  have hfirst : (!page.leafPage && d && page.firstNode + nodesSize page.leafPage pre == page.firstNode
      && n.length == 0) = false := by
    rcases hskip with hne | hskip
    · have hge := nodesSize_ge_length page.leafPage pre
      have hpos := List.length_pos_iff.2 hne
      have : (page.firstNode + nodesSize page.leafPage pre == page.firstNode) = false :=
        beq_eq_false_iff_ne.2 (by omega)
      simp [this]
    · rw [Bool.and_right_comm, hskip, Bool.false_and]
  rw [findNodeStartPoint, harea]
  dsimp only
  rw [hlay.readNode rfl]
  dsimp only
  rw [if_neg (by omega), hfirst, if_neg Bool.false_ne_true]
  exact findNodeLoop_spec hlay hc hprev (by simp) (by omega) rfl

/-- From the first page of a level the degenerate node is left out of a descending scan. -/
theorem findNodeStartPoint_skip {page : BtreePage} {js : List IndexJumpNode}
    {post : List IndexNode} {n m : IndexNode} {key : Key} {d r : Bool} {find : ℕ} (marker : Bool)
    (hlay : Layout page js (n :: m :: post))
    (harea : findAreaStartPoint page key d r find = (page.firstNode, 0))
    (hskip : (!page.leafPage && d && n.length == 0) = true) (hc : Chain d none (m :: post)) :
    findNodeStartPoint page key d r marker find = .ok (firstNotPassed d r key page.leafPage
      (page.firstNode + n.getNodeSize page.leafPage) [] (m :: post)) := by
  have hend := hlay.node_end_le (p := [])
  have hend' := hlay.node_end_le (p := [n])
  have hlen := hlay.length_le
  have hptr : page.firstNode + n.getNodeSize page.leafPage =
    page.firstNode + nodesSize page.leafPage [n] := by simp
  have hskip' : (!page.leafPage && d && page.firstNode == page.firstNode && n.length == 0) = true := by
    rw [Bool.and_right_comm, hskip, beq_self_eq_true, Bool.true_and]
  simp only [List.length_cons, nodesSize_cons, nodesSize_nil, Nat.add_zero] at hend hend' hlen
  rw [findNodeStartPoint, harea]
  dsimp only
  rw [hlay.readNode (p := []) (by simp)]
  dsimp only
  rw [if_neg (by omega), if_pos hskip', hlay.readNode (p := [n]) hptr]
  dsimp only
  rw [if_neg (by omega), ← lcp_nil_left key]
  exact findNodeLoop_spec (show Layout page js ([n] ++ m :: post) from hlay) hc (by simp) (by simp) (by omega) hptr

/-- The scan from the first node finds the first scanned node that is not passed. -/
theorem findNodeStartPoint_first {page : BtreePage} {js : List IndexJumpNode} {ns : List IndexNode}
    {key : Key} {d r : Bool} {find : ℕ} (marker : Bool) (hlay : Layout page js ns)
    (hn : Nodes d page.leafPage ns) (hchild : page.leafPage = true ∨ 1 < ns.length)
    (harea : findAreaStartPoint page key d r find = (page.firstNode, 0)) :
    findNodeStartPoint page key d r marker find =
      .ok (firstNotPassed d r key page.leafPage
        (page.firstNode + nodesSize page.leafPage (skipped d page.leafPage ns)) []
        (scanned d page.leafPage ns)) := by
  have hc := (hn.scanned hchild).1
  obtain ⟨n, ns, rfl⟩ := List.exists_cons_of_ne_nil hn.ne_nil
  by_cases hskip : (!page.leafPage && d && n.length == 0) = true
  · simp only [scanned, skipped, if_pos hskip] at hc ⊢
    obtain ⟨m, post, rfl⟩ := List.exists_cons_of_ne_nil hc.ne_nil
    simpa using findNodeStartPoint_skip marker hlay harea hskip hc
  · simp only [scanned, skipped, if_neg hskip] at hc ⊢
    exact findNodeStartPoint_scan none marker (show Layout page js ([] ++ n :: ns) from hlay)
      (harea.trans (by simp)) hc (by simp) (.inr (by simpa using hskip))

/-- A start behind the first node, relative to the scanned nodes. -/
theorem AreaStart.scanned {page : BtreePage} {d r : Bool} {key : Key} {find : ℕ}
    {ns : List IndexNode} {start : ℕ × ℕ} (h : AreaStart page d r key find ns start)
    (hn : Nodes d page.leafPage ns) (hchild : page.leafPage = true ∨ 1 < ns.length) :
    start = (page.firstNode, 0) ∨
      ∃ pre n post, scanned d page.leafPage ns = pre ++ n :: post ∧
        start = (page.firstNode + nodesSize page.leafPage (skipped d page.leafPage ns ++ pre),
          lcp (lastKey [] pre) key) ∧
        skipped d page.leafPage ns ++ pre ≠ [] ∧ n.isEndLevel = false ∧
        ((∀ k ∈ prevKey none pre, Passes d r key k) ∧ Passes d r key (nodeKey (lastKey [] pre) n) ∨
          find ≠ noValue ∧ nodeKey (lastKey [] pre) n = key ∧ n.recordNumber < find) := by
  obtain ⟨pre, n, post, rfl, hptr, hpfx, hor⟩ := h
  by_cases hpre : pre = []
  · subst hpre
    exact .inl (Prod.ext (by simpa using hptr) (by simpa using hpfx))
  obtain ⟨hl, hor⟩ := hor.resolve_left hpre
  have hlast := hn.lastKey_skipped hchild
  have hc := (hn.scanned hchild).1
  obtain ⟨pre', hpre', hsc⟩ := scanned_append d page.leafPage (n :: post) hpre
  have hkey : lastKey [] pre = lastKey [] pre' := by rw [hpre', lastKey_append, hlast]
  rw [hsc] at hc
  have hlink := ((hc.append_right (by simp)).2).linked hl
  have hpk : (prevKey none pre').getD [] = lastKey [] pre' := prevKey_getD none pre'
  rw [hkey] at hpfx hor
  refine .inr ⟨pre', n, post, hsc, ?_, hpre' ▸ hpre, hl, hor.imp (fun hp => ⟨fun k hk => ?_, hp⟩) id⟩
  · rw [← hpre']
    exact Prod.ext hptr hpfx
  · have hle := hlink.2 k hk
    rw [← hpk, hk] at hp
    exact hp.of_atMost hle

/-- A start equal to the key is the insertion point. -/
theorem findNodeStartPoint_equal {page : BtreePage} {js : List IndexJumpNode}
    {pre post : List IndexNode} {n : IndexNode} {key : Key} {d r : Bool} (marker : Bool) (find : ℕ)
    (hlay : Layout page js (pre ++ n :: post))
    (harea : findAreaStartPoint page key d r find =
      (page.firstNode + nodesSize page.leafPage pre, lcp (lastKey [] pre) key))
    (hpre : pre ≠ []) (hl : n.isEndLevel = false) (hkey : nodeKey (lastKey [] pre) n = key)
    (hlink : n.prefixLen = lcp (lastKey [] pre) key) :
    findNodeStartPoint page key d r marker find =
      .ok (some (page.firstNode + nodesSize page.leafPage pre, lcp (lastKey [] pre) key)) := by
  have hend := hlay.node_end_le
  have hge := nodesSize_ge_length page.leafPage pre
  have hpos := List.length_pos_iff.2 hpre
  have hptr : (page.firstNode + nodesSize page.leafPage pre == page.firstNode) = false :=
    beq_eq_false_iff_ne.2 (by omega)
  rw [findNodeStartPoint, harea]
  dsimp only
  rw [hlay.readNode rfl]
  dsimp only
  rw [if_neg (by omega), hptr, Bool.and_false, Bool.false_and, if_neg Bool.false_ne_true,
    findNodeLoop, hl, if_neg Bool.false_ne_true, ← hlink, compareNode_equal hlink hkey]

/-- Either all nodes are passed, or the scan stops at the first one that is not. -/
theorem firstNotPassed_spec {d r : Bool} {prev : Option Key} {ns : List IndexNode} (key : Key)
    (leafNode : Bool) (pointer : ℕ) (h : Chain d prev ns) (hprev : ∀ k ∈ prev, Passes d r key k) :
    (firstNotPassed d r key leafNode pointer (prev.getD []) ns = none ∧
        ∀ e ∈ decode (prev.getD []) ns, e.isEndLevel = false ∧ Passes d r key e.key) ∨
      ∃ pre n post, ns = pre ++ n :: post ∧
        firstNotPassed d r key leafNode pointer (prev.getD []) ns =
          some (pointer + nodesSize leafNode pre, lcp (lastKey (prev.getD []) pre) key) ∧
        (∀ k ∈ prevKey prev pre, Passes d r key k) ∧
        (n.isEndLevel = true ∨ ¬ Passes d r key (nodeKey (lastKey (prev.getD []) pre) n)) := by
  induction ns generalizing prev pointer with
  | nil => exact absurd rfl h.ne_nil
  | cons n ns ih =>
    by_cases hstop : n.isEndLevel = true ∨ ¬ Passes d r key (nodeKey (prev.getD []) n)
    · refine .inr ⟨[], n, ns, rfl, ?_, hprev, hstop⟩
      rw [firstNotPassed, if_pos hstop]
      simp
    · simp only [not_or, Bool.not_eq_true, not_not] at hstop
      obtain ⟨hl, hp⟩ := hstop
      cases hb : n.isEndBucket with
      | true =>
        obtain rfl := ((chain_endBucket hl hb).1 h).2
        refine .inl ⟨?_, by simpa [entryOf] using ⟨hl, hp⟩⟩
        simp [firstNotPassed, hl, hb, hp]
      | false =>
        rw [firstNotPassed_pass hl hb hp]
        rcases ih (pointer + n.getNodeSize leafNode) ((chain_node hl hb).1 h).2
          (by simpa using hp) with ⟨hf, hall⟩ | ⟨pre, m, post, rfl, hf, hpre, hm⟩
        · refine .inl ⟨hf, ?_⟩
          rw [decode_cons]
          intro e he
          rcases List.mem_cons.1 he with rfl | he
          · exact ⟨hl, hp⟩
          · exact hall e he
        · refine .inr ⟨n :: pre, m, post, rfl, ?_, by rwa [prevKey_cons], hm⟩
          simpa [Nat.add_assoc] using hf

/-- Where a search stops: all nodes are passed and the bucket is not the right one; or behind
passed nodes at the first one that is not; or at a duplicate of the key whose record number is
below the one to find. -/
theorem findNodeStartPoint_spec {page : BtreePage} {js : List IndexJumpNode} {ns : List IndexNode}
    {d r : Bool} (marker : Bool) (key : Key) (find : ℕ) (hlay : Layout page js ns)
    (hn : Nodes d page.leafPage ns) (hj : JumpChain page.firstNode page.leafPage ns [] js)
    (hchild : page.leafPage = true ∨ 1 < ns.length) :
    (findNodeStartPoint page key d r marker find = .ok none ∧
        ∀ e ∈ decode [] (scanned d page.leafPage ns), e.isEndLevel = false ∧ Passes d r key e.key) ∨
      ∃ pre n post, scanned d page.leafPage ns = pre ++ n :: post ∧
        findNodeStartPoint page key d r marker find =
          .ok (some (page.firstNode + nodesSize page.leafPage (skipped d page.leafPage ns ++ pre),
            lcp (lastKey [] pre) key)) ∧
        ((∀ k ∈ prevKey none pre, Passes d r key k) ∧
            (n.isEndLevel = true ∨ ¬ Passes d r key (nodeKey (lastKey [] pre) n)) ∨
          find ≠ noValue ∧ n.isEndLevel = false ∧ nodeKey (lastKey [] pre) n = key ∧
            n.recordNumber < find) := by
  have hc := (hn.scanned hchild).1
  rcases (findAreaStartPoint_spec r key find hlay hn hj).scanned hn hchild
    with harea | ⟨pre, n, post, hsc, harea, hne, hl, hor⟩
  · rw [findNodeStartPoint_first marker hlay hn hchild harea]
    rcases firstNotPassed_spec (r := r) key page.leafPage
      (page.firstNode + nodesSize page.leafPage (skipped d page.leafPage ns)) hc (by simp) with ⟨hf, hall⟩ | ⟨pre, m, post, hs, hf, hp, hm⟩
    · exact .inl ⟨congrArg _ hf, hall⟩
    · refine .inr ⟨pre, m, post, hs, ?_, .inl ⟨hp, hm⟩⟩
      rw [nodesSize_append, ← Nat.add_assoc]
      exact congrArg _ hf
  have hns : ns = skipped d page.leafPage ns ++ pre ++ n :: post := by
    rw [List.append_assoc, ← hsc, skipped_append_scanned]
  have hlay' : Layout page js (skipped d page.leafPage ns ++ pre ++ n :: post) := hns ▸ hlay
  rw [hsc] at hc ⊢
  have hpk : (prevKey none pre).getD [] = lastKey [] pre := prevKey_getD none pre
  have hn' : Chain d (prevKey none pre) (n :: post) := (hc.append_right (by simp)).2
  rcases hor with ⟨hprev, hp⟩ | ⟨hfind, hkey, hrec⟩
  · rw [findNodeStartPoint_scan (prevKey none pre) marker hlay'
      (by rw [harea, hpk]) hn' hprev (.inl hne)]
    rcases firstNotPassed_spec (r := r) key page.leafPage
      (page.firstNode + nodesSize page.leafPage (skipped d page.leafPage ns ++ pre)) hn'
      hprev with ⟨hf, hall⟩ | ⟨pre', m, post', hs, hf, hp', hm⟩
    · refine .inl ⟨congrArg _ hf, ?_⟩
      have hpair := hc.pairwise
      simp only [Option.getD_none, decode_append] at hpair ⊢
      intro e he
      rcases List.mem_append.1 he with he | he
      · -- what stands before the start is not above it
        have := (List.pairwise_append.1 hpair).2.2 e he (entryOf (lastKey [] pre) n) (by simp)
        exact ⟨this.1, hp.of_atMost (this.2.2 hl)⟩
      · exact hall e (by rwa [hpk])
    · refine .inr ⟨pre ++ pre', m, post', by rw [hs, List.append_assoc], ?_, .inl ⟨?_, ?_⟩⟩
      · rw [← List.append_assoc, nodesSize_append _ (skipped d page.leafPage ns ++ pre),
          ← Nat.add_assoc, lastKey_append, ← hpk]
        exact congrArg _ hf
      · rwa [prevKey_append]
      · rwa [lastKey_append, ← hpk]
  · refine .inr ⟨pre, n, post, rfl, ?_, .inr ⟨hfind, hl, hkey, hrec⟩⟩
    have hlink : n.prefixLen = lcp (lastKey [] pre) key := by rw [(hn'.linked hl).1, hpk, hkey]
    have hlast : lastKey [] (skipped d page.leafPage ns ++ pre) = lastKey [] pre := by
      rw [lastKey_append, hn.lastKey_skipped hchild]
    rw [← hlast] at harea hkey hlink ⊢
    exact findNodeStartPoint_equal marker find hlay' harea hne hl hkey hlink

/-- What the jump table changes of a search: nothing, or, when a record number is looked for, the
search stops at a later one of the nodes that match the key. -/
theorem findNodeStartPoint_eq_linear_or_duplicate {page : BtreePage} {js : List IndexJumpNode}
    {ns : List IndexNode} {d : Bool} (r marker : Bool) (key : Key) (find : ℕ)
    (hlay : Layout page js ns) (hn : Nodes d page.leafPage ns)
    (hj : JumpChain page.firstNode page.leafPage ns [] js) :
    findNodeStartPoint page key d r marker find =
        findNodeStartPoint page.withoutJumps key d r marker find ∨
      find ≠ noValue ∧ ∃ pre n mid m post, ns = pre ++ n :: mid ++ m :: post ∧
        findNodeStartPoint page.withoutJumps key d r marker find =
          .ok (some (page.firstNode + nodesSize page.leafPage pre, lcp (lastKey [] pre) key)) ∧
        findNodeStartPoint page key d r marker find =
          .ok (some (page.firstNode + nodesSize page.leafPage (pre ++ n :: mid), key.length)) ∧
        key <+: nodeKey (lastKey [] pre) n ∧
        ((d && r) = false → nodeKey (lastKey [] pre) n = key) ∧
        nodeKey (lastKey [] (pre ++ n :: mid)) m = key ∧ m.recordNumber < find := by
  have hstart := findAreaStartPoint_spec r key find hlay hn hj
  by_cases hchild : page.leafPage = true ∨ 1 < ns.length
  swap
  · -- a bucket of one node has no other place to start at
    obtain ⟨pre, n, post, rfl, hptr, hpfx, -⟩ := hstart
    simp only [not_or, List.length_append, List.length_cons] at hchild
    obtain rfl := List.length_eq_zero_iff.1 (show pre.length = 0 by omega)
    exact .inl (findNodeStartPoint_of_firstNode (Prod.ext (by simpa using hptr) (by simpa using hpfx)))
  rcases hstart.scanned hn hchild with harea | ⟨pre, n, post, hsc, harea, hne, hl, hor⟩
  · exact .inl (findNodeStartPoint_of_firstNode harea)
  have hc := (hn.scanned hchild).1
  have hlinear := findNodeStartPoint_first marker hlay.withoutJumps hn hchild
    (findAreaStartPoint_withoutJumps page key d r find)
  have hlast := hn.lastKey_skipped hchild
  obtain ⟨skip, hskip⟩ : ∃ skip, skip = skipped d page.leafPage ns := ⟨_, rfl⟩
  have hns : ns = skip ++ pre ++ n :: post := by
    rw [hskip, List.append_assoc, ← hsc, skipped_append_scanned]
  simp only [BtreePage.withoutJumps_leafPage, BtreePage.withoutJumps_firstNode, hsc, ← hskip]
    at hlinear
  rw [← hskip] at harea hne hlast
  rw [hsc] at hc
  have hlay' : Layout page js (skip ++ pre ++ n :: post) := hns ▸ hlay
  have hpk : (prevKey none pre).getD [] = lastKey [] pre := prevKey_getD none pre
  have hn' : Chain d (prevKey none pre) (n :: post) := (hc.append_right (by simp)).2
  rcases hor with ⟨hprev, hp⟩ | ⟨hfind, hkey, hrec⟩
  · -- every node before the start is passed by both scans
    left
    have hjump := findNodeStartPoint_scan (prevKey none pre) marker hlay'
      (by rw [harea, hpk]) hn' hprev (.inl hne)
    have hlin := firstNotPassed_skip page.leafPage
      (page.firstNode + nodesSize page.leafPage skip) hc (by simp) hprev
    rw [hjump, hlinear, hpk]
    simp only [Option.getD_none] at hlin
    rw [hlin, nodesSize_append, Nat.add_assoc]
  · have hnot : ¬ Passes d r key (nodeKey (lastKey [] pre) n) := fun hp => hp.ne hkey
    have hlink : n.prefixLen = lcp (lastKey [] pre) key := by
      rw [(hn'.linked hl).1, hpk, hkey]
    have hkey' : nodeKey (lastKey [] (skip ++ pre)) n = key := by simpa [hlast] using hkey
    have hjump := findNodeStartPoint_equal (r := r) marker find hlay'
      (by simpa [hlast] using harea) hne hl hkey' (by simpa [hlast] using hlink)
    obtain ⟨p, m, q, hs, hor, hf, hm, hle⟩ := firstNotPassed_stop page.leafPage
      (page.firstNode + nodesSize page.leafPage skip) hc hl hnot
    simp only [Option.getD_none] at hf hm hle
    rcases hor with ⟨rfl, rfl⟩ | ⟨mid, rfl⟩
    · left
      rw [hjump, hlinear, hf, nodesSize_append, lastKey_append, hlast, Nat.add_assoc]
    · right
      rw [hkey] at hle
      -- the linear scan stops at a node that matches the key
      have hmatch : key <+: nodeKey (lastKey [] p) m ∧
          ((d && r) = false → nodeKey (lastKey [] p) m = key) := by
        rcases hle.eq_or_before with he | hb
        · exact ⟨he ▸ List.prefix_refl _, fun _ => he⟩
        · have := not_and.1 hm hb
          rw [not_not] at this
          exact ⟨this.2.2, fun hdr => absurd hdr (by simp [this.1, this.2.1])⟩
      have hext : key <+: lastKey [] (p ++ m :: mid) := by
        have hrest : Chain d none (p ++ m :: (mid ++ n :: post)) := by simpa using hc
        have hmid := ((hrest.append_right (by simp)).2.tail (by simp)).2.2
        rw [prevKey_getD] at hmid
        have hbelow := hmid.atMost_lastKey (by simp)
        have habove := (hn'.linked hl).2 _ (prevKey_of_ne_nil none (by simp))
        simp only [Option.getD_none, lastKey_append, lastKey_cons] at hbelow habove hkey ⊢
        exact prefix_of_between d hbelow habove hmatch.1 (hkey ▸ List.prefix_refl _)
      refine ⟨hfind, skip ++ p, m, mid, n, post, by rw [hns]; simp, ?_, ?_, ?_, ?_, ?_, hrec⟩
      · rw [hlinear, hf, nodesSize_append, lastKey_append, hlast, Nat.add_assoc]
      · rw [hjump, List.append_assoc, lastKey_append, hlast, lcp_comm, lcp_eq_length_iff.2 hext]
      · simpa [hlast] using hmatch.1
      · simpa [hlast] using hmatch.2
      · simpa [hlast] using hkey

/-- A run of duplicates of one key in which two jump nodes point. -/
def duplicateNodes : List IndexNode :=
  [⟨0, [65], 1, 0, false, false⟩, ⟨1, [], 2, 0, false, false⟩, ⟨1, [], 3, 0, false, false⟩,
    IndexNode.endLevel]

def duplicateJumps : List IndexJumpNode := [⟨0, 52, [65]⟩, ⟨1, 55, []⟩]

theorem layout_duplicate : Layout (bucketOf 0 duplicateJumps duplicateNodes) duplicateJumps
    duplicateNodes := layout_bucketOf (by decide) (by decide)

theorem nodes_duplicate : Nodes false true duplicateNodes := .inl (by decide)

theorem jumpChain_duplicate : JumpChain 48 true duplicateNodes [] duplicateJumps :=
  ⟨⟨duplicateNodes.take 1, ⟨1, [], 2, 0, false, false⟩, duplicateNodes.drop 2, by decide⟩,
    ⟨duplicateNodes.take 2, ⟨1, [], 3, 0, false, false⟩, duplicateNodes.drop 3, by decide⟩, trivial⟩

/-- Among duplicates the walk does not stop where the linear scan does. -/
theorem findNodeStartPoint_ne_linear :
    ¬ ∀ (page : BtreePage) (js : List IndexJumpNode) (ns : List IndexNode) (d r marker : Bool)
      (key : Key) (find : ℕ), Layout page js ns → Nodes d page.leafPage ns →
      JumpChain page.firstNode page.leafPage ns [] js →
      findNodeStartPoint page key d r marker find =
        findNodeStartPoint page.withoutJumps key d r marker find := by
  intro h
  have heq := h _ _ _ false false false [65] 4 layout_duplicate nodes_duplicate jumpChain_duplicate
  revert heq
  decide +kernel

theorem findNodeStartPoint_eq_linear_or_duplicate_witness :
    let page := bucketOf 0 duplicateJumps duplicateNodes
    findNodeStartPoint page [65] false false false noValue =
        findNodeStartPoint page.withoutJumps [65] false false false noValue := by
  have h := findNodeStartPoint_eq_linear_or_duplicate false false [65] noValue layout_duplicate nodes_duplicate jumpChain_duplicate
  exact h.resolve_right fun hr => hr.1 rfl

end FirebirdCore.Btr