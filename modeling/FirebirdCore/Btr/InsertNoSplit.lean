import FirebirdCore.Btr.InsertNode

/-!
# Inserting without a split

The insertion point is a place for the key among the scanned nodes. The bucket keeps all its
entries around the new one, and the jump nodes, patched or generated, lead to its nodes.
-/
namespace FirebirdCore.Btr
open FirebirdCore.KeyOrder FirebirdCore.Buffer

/-! ## The insertion point -/

/-- `pre` holds what belongs before a node of this key and record number. -/
structure StandBefore (d : Bool) (key : Key) (validate : Bool) (recordNumber : ℕ)
    (pre : List IndexNode) : Prop where
  keys : ∀ k ∈ prevKey none pre, AtMost d k key
  records : validate = false → ∀ e ∈ decode [] pre, e.key = key → e.recordNumber < recordNumber

/-- The node `n` behind `pre` belongs behind a node of this key and record number. -/
def StandsBehind (d : Bool) (key : Key) (validate : Bool) (recordNumber : ℕ)
    (pre : List IndexNode) (n : IndexNode) : Prop :=
  n.isEndLevel = true ∨ AtMost d key (nodeKey (lastKey [] pre) n) ∧
    (validate = false → nodeKey (lastKey [] pre) n = key → recordNumber ≤ n.recordNumber)

/-- The insertion point before the node `n` that follows `pre`. -/
def pointAt (page : BtreePage) (skip : List IndexNode) (key : Key) (pre : List IndexNode)
    (n : IndexNode) : InsertPoint :=
  ⟨page.firstNode + nodesSize page.leafPage (skip ++ pre), n, lcp (lastKey [] pre) key,
    lcp key (nodeKey (lastKey [] pre) n)⟩

section
variable {page : BtreePage} {js : List IndexJumpNode} {skip pre post : List IndexNode}
  {n : IndexNode} {d : Bool} {key : Key} {validate : Bool} {rec : ℕ}

/-- Where a key stands before a node, the node's prefix is the smaller of those that the key
shares with the nodes around it. -/
theorem Chain.prefixLen_eq_min (hc : Chain d (prevKey none pre) (n :: post))
    (hw : n.WellFormed page.leafPage) (hpre : ∀ k ∈ prevKey none pre, AtMost d k key)
    (hn : n.isEndLevel = true ∨ AtMost d key (nodeKey (lastKey [] pre) n)) :
    n.prefixLen = min (lcp (lastKey [] pre) key) (lcp key (nodeKey (lastKey [] pre) n)) := by
  cases hl : n.isEndLevel with
  | true =>
    rw [hw.endLevel hl]
    simp [nodeKey, IndexNode.endLevel]
  | false =>
    have hlink := (hc.linked hl).1
    rw [prevKey_getD, Option.getD_none] at hlink
    cases pre with
    | nil => simp [hlink]
    | cons a pre =>
      have hbefore : AtMost d (lastKey [] (a :: pre)) key := hpre _ rfl
      rw [hlink, lcp_of_atMost d hbefore (hn.resolve_left (by simp [hl]))]

theorem Chain.nodeKey_length (hc : Chain d (prevKey none pre) (n :: post))
    (hw : n.WellFormed page.leafPage) :
    (nodeKey (lastKey [] pre) n).length = n.prefixLen + n.length := by
  cases hl : n.isEndLevel with
  | true => simp [hw.endLevel hl, nodeKey, IndexNode.endLevel, IndexNode.length]
  | false =>
    have hlink := (hc.linked hl).1
    rw [prevKey_getD, Option.getD_none] at hlink
    exact Btr.nodeKey_length hlink

/-- The common prefix that the insertion loop computes. -/
theorem newPrefix_eq {prev : Key} (h : n.prefixLen ≤ lcp prev key) :
    n.prefixLen + computePrefix (key.drop n.prefixLen) n.data = lcp key (nodeKey prev n) := by
  have hlen : (key.take n.prefixLen).length = n.prefixLen := by
    have := lcp_le_right prev key
    simp only [List.length_take]
    omega
  have hl := lcp_append (key.take n.prefixLen) (key.drop n.prefixLen) n.data
  rw [List.take_append_drop, hlen] at hl
  rw [nodeKey, take_eq_of_le_lcp h, hl, computePrefix]

/-- The test of the insertion loop for a node equal to the key. -/
theorem ne_key_iff (hc : Chain d (prevKey none pre) (n :: post)) (hw : n.WellFormed page.leafPage) :
    (lcp key (nodeKey (lastKey [] pre) n) ≠ key.length ∨
      lcp key (nodeKey (lastKey [] pre) n) ≠ n.length + n.prefixLen) ↔
      nodeKey (lastKey [] pre) n ≠ key := by
  have hlen := hc.nodeKey_length hw
  rw [Nat.add_comm] at hlen
  rw [← hlen, ← not_and_or, not_iff_not]
  refine ⟨fun h => (eq_of_lcp_eq_lengths h.1 h.2).symm, fun h => ?_⟩
  simp [h]

/-- The loop stops at a place for the key, unless the marker at the end of the bucket is equal to
it too. -/
theorem insertionLoop_spec {fuel : ℕ} (unique : Bool) (duplicates : List ℕ)
    (hlay : Layout page js (skip ++ pre ++ n :: post))
    (hc : Chain d none (pre ++ n :: post)) (hpre : StandBefore d key validate rec pre)
    (hn : n.isEndLevel = true ∨ AtMost d key (nodeKey (lastKey [] pre) n))
    (hfuel : (n :: post).length ≤ fuel) :
    (∃ pre' m, pre ++ n :: post = pre' ++ [m] ∧ m.isEndLevel = false ∧
        nodeKey (lastKey [] pre') m = key ∧ (validate = true ∨ m.recordNumber ≤ rec) ∧
        (insertionLoop page key validate unique rec fuel
          (page.firstNode + nodesSize page.leafPage (skip ++ pre)) n
          (page.firstNode + nodesSize page.leafPage (skip ++ pre) + n.getNodeSize page.leafPage)
          (lcp (lastKey [] pre) key) duplicates).1 = none) ∨
      ∃ pre' m post', pre ++ n :: post = pre' ++ m :: post' ∧
        StandBefore d key validate rec pre' ∧ StandsBehind d key validate rec pre' m ∧
        (insertionLoop page key validate unique rec fuel
          (page.firstNode + nodesSize page.leafPage (skip ++ pre)) n
          (page.firstNode + nodesSize page.leafPage (skip ++ pre) + n.getNodeSize page.leafPage)
          (lcp (lastKey [] pre) key) duplicates).1 = some (pointAt page skip key pre' m) := by
  induction fuel generalizing pre n post duplicates with
  | zero => simp at hfuel
  | succ fuel ih =>
    have hw := hlay.nodes n (by simp)
    have hn' := (hc.append_right (by simp)).2
    have hmin := hn'.prefixLen_eq_min hw hpre.keys hn
    have hpfx := newPrefix_eq (hmin.trans_le (Nat.min_le_left _ _))
    rw [insertionLoop]
    dsimp only
    rw [hpfx]
    simp only [ne_key_iff hn' hw]
    by_cases hne : nodeKey (lastKey [] pre) n ≠ key
    · rw [if_pos hne]
      exact .inr ⟨pre, n, post, rfl, hpre, hn.imp_right fun h => ⟨h, fun _ he => absurd he hne⟩, rfl⟩
    rw [if_neg hne]
    rw [not_not] at hne
    have hstop : (validate = false → rec ≤ n.recordNumber) → StandsBehind d key validate rec pre n :=
      fun h => hn.imp_right fun ha => ⟨ha, fun hv _ => h hv⟩
    by_cases hb : n.isEndBucket = true
    · rw [if_pos hb]
      by_cases hrec : (!validate && decide (rec < n.recordNumber)) = true
      · rw [if_pos hrec]
        simp only [Bool.and_eq_true, decide_eq_true_eq] at hrec
        exact .inr ⟨pre, n, post, rfl, hpre, hstop fun _ => hrec.2.le, rfl⟩
      · rw [if_neg hrec]
        have hl : n.isEndLevel = false := by
          by_contra hcon
          rw [hw.endLevel (by simpa using hcon)] at hb
          exact absurd hb (by decide)
        obtain rfl := ((chain_endBucket hl hb).1 hn').2
        refine .inl ⟨pre, n, rfl, hl, hne, ?_, rfl⟩
        cases hv : validate with
        | true => exact .inl rfl
        | false => exact .inr (by simpa [hv] using hrec)
    rw [if_neg hb]
    by_cases hl : n.isEndLevel = true
    · rw [if_pos hl]
      exact .inr ⟨pre, n, post, rfl, hpre, .inl hl, rfl⟩
    rw [if_neg hl]
    by_cases hrec : (!validate && decide (rec ≤ n.recordNumber)) = true
    · rw [if_pos hrec]
      simp only [Bool.and_eq_true, decide_eq_true_eq] at hrec
      exact .inr ⟨pre, n, post, rfl, hpre, hstop fun _ => hrec.2, rfl⟩
    rw [if_neg hrec]
    by_cases hu : (validate && !unique) = true
    · rw [if_pos hu]
      simp only [Bool.and_eq_true] at hu
      exact .inr ⟨pre, n, post, rfl, hpre, hstop fun hv => by simp [hv] at hu, rfl⟩
    rw [if_neg hu]
    -- the node is passed, and the next one takes its place
    simp only [Bool.not_eq_true] at hl hb
    have ht := (chain_node hl hb).1 hn'
    rw [prevKey_getD, Option.getD_none] at ht
    obtain ⟨m, post, rfl⟩ := List.exists_cons_of_ne_nil ht.2.ne_nil
    have hlast : lastKey [] (pre ++ [n]) = key := by simp [hne]
    have hlay' : Layout page js (skip ++ (pre ++ [n]) ++ m :: post) := by simpa using hlay
    have hptr : page.firstNode + nodesSize page.leafPage (skip ++ pre) + n.getNodeSize page.leafPage =
        page.firstNode + nodesSize page.leafPage (skip ++ (pre ++ [n])) := by
      simp only [nodesSize_append, nodesSize_cons, nodesSize_nil]
      omega
    rw [hlay'.readNode hptr, hptr, hne]
    have hself : lcp key key = lcp (lastKey [] (pre ++ [n])) key := by rw [hlast]
    rw [hself]
    have hsplit : pre ++ n :: m :: post = pre ++ [n] ++ m :: post := by simp
    rw [hsplit] at hc ⊢
    refine ih _ hlay' hc ⟨?_, ?_⟩ ?_ (by simpa using hfuel)
    · rw [prevKey_of_ne_nil none (by simp), Option.getD_none, hlast]
      simp
    · intro hv e he hk
      rw [decode_append] at he
      rcases List.mem_append.1 he with he | he
      · exact hpre.records hv e he hk
      · obtain rfl := List.mem_singleton.1 he
        have : n.recordNumber < rec := by simpa [hv] using hrec
        exact this
    · cases hlm : m.isEndLevel with
      | true => exact .inl rfl
      | false =>
        rw [hne] at ht
        rw [hlast]
        exact .inr ((ht.2.linked hlm).2 key rfl)

/-- Either the key belongs behind all nodes of the bucket, or the insertion point is a place for it
among the scanned nodes. -/
theorem findInsertPoint_spec {ns : List IndexNode} {key : TemporaryKey} {idx : IndexDesc}
    {pageSize : ℕ} (rec : ℕ) (hlay : Layout page js ns)
    (hn : Nodes idx.idxDescending page.leafPage ns) (hj : JumpChain page.firstNode page.leafPage ns [] js)
    (hchild : page.leafPage = true ∨ 1 < ns.length) (hfits : page.btrLength ≤ pageSize)
    (ho : validateDuplicates idx key = false →
      RecordsOrdered key.keyData (decode [] (scanned idx.idxDescending page.leafPage ns))) :
    ∃ duplicates,
      findInsertPoint pageSize page key idx rec = .ok (none, duplicates) ∧
          (∀ e ∈ decode [] (scanned idx.idxDescending page.leafPage ns),
            e.isEndLevel = false ∧ AtMost idx.idxDescending e.key key.keyData) ∨
        ∃ pre m post, scanned idx.idxDescending page.leafPage ns = pre ++ m :: post ∧
          StandBefore idx.idxDescending key.keyData (validateDuplicates idx key) rec pre ∧
          StandsBehind idx.idxDescending key.keyData (validateDuplicates idx key) rec pre m ∧
          findInsertPoint pageSize page key idx rec =
            .ok (some (pointAt page (skipped idx.idxDescending page.leafPage ns) key.keyData pre m),
              duplicates) := by
  obtain ⟨validate, hv⟩ : ∃ v, v = validateDuplicates idx key := ⟨_, rfl⟩
  have hc := (hn.scanned hchild).1
  rcases findNodeStartPoint_spec (r := false) true key.keyData
    (if validate then noValue else rec) hlay hn hj hchild with
    ⟨hf, hall⟩ | ⟨pre, n, post, hsc, hf, hor⟩
  · refine ⟨[], .inl ⟨?_, fun e he => ⟨(hall e he).1, (hall e he).2.before.atMost⟩⟩⟩
    rw [findInsertPoint, ← hv]
    dsimp only
    rw [hf]
  rw [← hv] at ho ⊢
  rw [hsc] at hc ho ⊢
  have hns : ns = skipped idx.idxDescending page.leafPage ns ++ pre ++ n :: post := by
    rw [List.append_assoc, ← hsc, skipped_append_scanned]
  have hlay' := hns ▸ hlay
  have hend := hlay'.node_end_le
  have hlen := hlay'.length_le
  have hn' := (hc.append_right (by simp)).2
  simp only [List.length_append, List.length_cons] at hlen
  have hrun : findInsertPoint pageSize page key idx rec =
      (let point := insertionLoop page key.keyData validate idx.idxUnique rec (page.btrLength + 1)
        (page.firstNode +
          nodesSize page.leafPage (skipped idx.idxDescending page.leafPage ns ++ pre)) n
        (page.firstNode +
          nodesSize page.leafPage (skipped idx.idxDescending page.leafPage ns ++ pre) +
          n.getNodeSize page.leafPage) (lcp (lastKey [] pre) key.keyData) []
      if point.1.any fun p => p.nodeOffset > pageSize then .error .bucketOverfilled
        else .ok point) := by
    rw [findInsertPoint, ← hv]
    dsimp only
    rw [hf]
    dsimp only
    rw [if_neg (by omega), hlay'.readNode rfl]
  have hstart : StandBefore idx.idxDescending key.keyData validate rec pre ∧
      (n.isEndLevel = true ∨
        AtMost idx.idxDescending key.keyData (nodeKey (lastKey [] pre) n)) := by
    rcases hor with ⟨hp, hm⟩ | ⟨hfind, hl, hkey, hrec⟩
    · refine ⟨⟨fun k hk => (hp k hk).before.atMost, fun _ e he hk => ?_⟩,
        hm.imp_right fun hnot hb => hnot ⟨hb, by simp⟩⟩
      -- the keys before the start are all below the key
      obtain ⟨k, hk', hle⟩ := hc.atMost_prevKey (by simp) he
      exact absurd hk (hle.trans_before (hp k hk').before).ne
    · have hfalse : validate = false := by
        by_contra hcon
        simp [hcon] at hfind
      simp only [hfalse, Bool.false_eq_true, if_false] at hrec
      refine ⟨⟨fun k hk => ?_, fun _ e he hk => ?_⟩, .inr (by rw [hkey]; simp)⟩
      · have hk' : lastKey [] pre = k := by
          have := prevKey_getD none pre
          rw [hk] at this
          exact this.symm
        have := (hn'.linked hl).2 k hk
        rwa [← hk', hkey, hk'] at this
      · have hord := ho hfalse
        rw [decode_append] at hord
        have := (List.pairwise_append.1 hord).2.2 e he (entryOf (lastKey [] pre) n) (by simp) hl hk hkey
        exact this.trans_lt hrec
  obtain ⟨point, hpoint⟩ : ∃ point, point = insertionLoop page key.keyData validate idx.idxUnique rec
        (page.btrLength + 1)
        (page.firstNode +
          nodesSize page.leafPage (skipped idx.idxDescending page.leafPage ns ++ pre)) n
        (page.firstNode +
          nodesSize page.leafPage (skipped idx.idxDescending page.leafPage ns ++ pre) +
          n.getNodeSize page.leafPage) (lcp (lastKey [] pre) key.keyData) [] := ⟨_, rfl⟩
  rw [← hpoint] at hrun
  dsimp only at hrun
  refine ⟨point.2, ?_⟩
  rcases insertionLoop_spec idx.idxUnique [] hlay' hc hstart.1 hstart.2
    (show (n :: post).length ≤ page.btrLength + 1 by simp only [List.length_cons]; omega) with
    ⟨pre', m, hs, hl, hkey, -, hnone⟩ | ⟨pre', m, post', hs, hbefore, hbehind, hsome⟩
  · rw [← hpoint] at hnone
    refine .inl ⟨?_, ?_⟩
    · rw [hrun, hnone, Option.any_none, if_neg Bool.false_ne_true]
      exact congrArg Except.ok (Prod.ext hnone rfl)
    · rw [hs] at hc ⊢
      have hpair := hc.pairwise
      simp only [Option.getD_none, decode_append] at hpair ⊢
      intro e he
      rcases List.mem_append.1 he with he | he
      · have := (List.pairwise_append.1 hpair).2.2 e he (entryOf (lastKey [] pre') m) (by simp)
        exact ⟨this.1, hkey ▸ this.2.2 hl⟩
      · obtain rfl := List.mem_singleton.1 he
        refine ⟨hl, ?_⟩
        rw [show (entryOf (lastKey [] pre') m).key = key.keyData from hkey]
        simp
  · rw [← hpoint] at hsome
    refine .inr ⟨pre', m, post', hs, hbefore, hbehind, ?_⟩
    have hlay'' : Layout page js (skipped idx.idxDescending page.leafPage ns ++ pre' ++ m :: post') := by
      rw [List.append_assoc, ← hs, ← List.append_assoc]
      exact hlay'
    have hend' := hlay''.node_end_le
    have hoff : ¬ decide ((pointAt page (skipped idx.idxDescending page.leafPage ns) key.keyData
        pre' m).nodeOffset > pageSize) = true := by
      rw [decide_eq_true_eq, pointAt]
      dsimp only
      omega
    rw [hrun, hsome, Option.any_some, if_neg hoff]
    exact congrArg Except.ok (Prod.ext hsome rfl)

end

/-! ## The scratch page -/

/-- The place of a key among the nodes of a bucket: before the node `n`. -/
structure Place (d leafNode validate : Bool) (key : Key) (recordNumber : ℕ) (ns pre : List IndexNode)
    (n : IndexNode) (post : List IndexNode) : Prop where
  scanned_eq : scanned d leafNode ns = pre ++ n :: post
  before : StandBefore d key validate recordNumber pre
  behind : StandsBehind d key validate recordNumber pre n

/-- The nodes of the bucket with a new one in its place. -/
def insertedNodes (skip pre : List IndexNode) (key : Key) (recordNumber pageNumber : ℕ)
    (n : IndexNode) (post : List IndexNode) : List IndexNode :=
  skip ++ pre ++ [storeNode (lastKey [] pre) key recordNumber pageNumber,
    relink (lastKey [] pre) key n] ++ post

section
variable {pageSize : ℕ} {page : BtreePage} {js : List IndexJumpNode} {ns pre post : List IndexNode}
  {n : IndexNode} {d validate : Bool} {key : Key} {rec pageNumber : ℕ}

theorem Place.eq {leafNode : Bool} (h : Place d leafNode validate key rec ns pre n post) :
    ns = skipped d leafNode ns ++ pre ++ [n] ++ post := by
  have := skipped_append_scanned d leafNode ns
  rw [h.scanned_eq] at this
  simpa using this.symm

theorem Place.chain {leafNode : Bool} (h : Place d leafNode validate key rec ns pre n post)
    (hn : Nodes d leafNode ns) (hchild : leafNode = true ∨ 1 < ns.length) :
    Chain d none (pre ++ n :: post) := h.scanned_eq ▸ (hn.scanned hchild).1

theorem nextNode_pointAt {skip : List IndexNode} (hw : n.WellFormed page.leafPage)
    (hc : Chain d none (pre ++ n :: post)) (hpre : StandBefore d key validate rec pre)
    (hn : StandsBehind d key validate rec pre n) :
    (pointAt page skip key pre n).nextNode = relink (lastKey [] pre) key n := by
  have hn' := (hc.append_right (by simp)).2
  have hmin := hn'.prefixLen_eq_min hw hpre.keys (hn.imp_right fun h => h.1)
  have hlast := lcp_le_left (lastKey [] pre) key
  unfold InsertPoint.nextNode pointAt relink
  split_ifs with hl
  · rw [hw.endLevel hl]
    simp [nodeKey, IndexNode.endLevel]
  · have hdrop : n.data.drop (lcp key (nodeKey (lastKey [] pre) n) - n.prefixLen) =
        (nodeKey (lastKey [] pre) n).drop (lcp key (nodeKey (lastKey [] pre) n)) := by
      have htake : ((lastKey [] pre).take n.prefixLen).length = n.prefixLen := by
        rw [List.length_take]
        omega
      have hnil : ((lastKey [] pre).take n.prefixLen).drop
          (lcp key (nodeKey (lastKey [] pre) n)) = [] := List.drop_of_length_le (by omega)
      conv_rhs => arg 2; rw [nodeKey]
      rw [List.drop_append, htake, hnil, List.nil_append]
    rw [hdrop]

/-- What the new nodes are on the scratch page, and what they take there. -/
theorem Place.wellFormed (h : Place d page.leafPage validate key rec ns pre n post)
    (hv : ValidBucket pageSize d page js ns) (hchild : page.leafPage = true ∨ 1 < ns.length)
    (hps : pageSize ≤ maxPageSize) (hkey : key.length < pageSize / 4) (hrec : rec < 2 ^ 40)
    (hpage : pageNumber < 2 ^ 32) (hleaf : page.leafPage = true → pageNumber = 0) :
    (∀ a ∈ [storeNode (lastKey [] pre) key rec pageNumber, relink (lastKey [] pre) key n],
        a.WellFormed page.leafPage) ∧
      n.getNodeSize page.leafPage ≤
        (storeNode (lastKey [] pre) key rec pageNumber).getNodeSize page.leafPage +
          (relink (lastKey [] pre) key n).getNodeSize page.leafPage := by
  have hns := h.eq
  have hw : n.WellFormed page.leafPage := hv.layout.nodes n (by rw [hns]; simp)
  have hn' := ((h.chain hv.nodes hchild).append_right (by simp)).2
  have hlen : (nodeKey (lastKey [] pre) n).length < pageSize / 4 := by
    refine hv.keys (entryOf (lastKey [] pre) n) ?_
    rw [hns, List.append_assoc, List.append_assoc, decode_append,
      hv.nodes.lastKey_skipped hchild]
    simp
  rw [maxPageSize] at hps
  refine ⟨?_, getNodeSize_le_insert hw (fun _ => ?_) (fun _ => hn'.nodeKey_length hw) (by omega)⟩
  · simp only [List.mem_cons, List.not_mem_nil, or_false]
    rintro a (rfl | rfl)
    · exact storeNode_wellFormed (by omega) hrec hpage hleaf
    · exact relink_wellFormed hw (by omega)
  · exact hn'.prefixLen_eq_min hw h.before.keys (h.behind.imp_right fun h => h.1)

/-- The nodes stay sorted, compressed and terminated. -/
theorem Place.nodes {leafNode : Bool} (h : Place d leafNode validate key rec ns pre n post)
    (hn : Nodes d leafNode ns) (hchild : leafNode = true ∨ 1 < ns.length) :
    Nodes d leafNode (insertedNodes (skipped d leafNode ns) pre key rec pageNumber n post) := by
  have hc := h.chain hn hchild
  have hpk : (prevKey none pre).getD [] = lastKey [] pre := prevKey_getD none pre
  have hnew : Chain d (prevKey none pre) (storeNode (lastKey [] pre) key rec pageNumber ::
      relink (lastKey [] pre) key n :: post) := by
    refine (chain_node rfl rfl).2 ⟨hpk ▸ linked_storeNode h.before.keys, ?_⟩
    rw [hpk, nodeKey_storeNode, ← hpk]
    refine Chain.relink (some key) (hc.append_right (by simp)).2 fun hl k hk => ?_
    cases hk
    rw [hpk]
    exact (h.behind.resolve_left (by simp [hl])).1
  have hchain := hc.replace (by simp) hnew
  have heq : insertedNodes (skipped d leafNode ns) pre key rec pageNumber n post =
      skipped d leafNode ns ++ (pre ++ storeNode (lastKey [] pre) key rec pageNumber ::
        relink (lastKey [] pre) key n :: post) := by simp [insertedNodes]
  rw [heq]
  rcases (hn.scanned hchild).2 with he | ⟨-, a, he, ha⟩
  · rw [he]
    exact .inl hchain
  · rw [he]
    exact .inr ⟨a, _, rfl, ha, hchain⟩

/-- The degenerate first node stays, and no other is taken for it. -/
theorem Place.scanned_inserted {leafNode : Bool}
    (h : Place d leafNode validate key rec ns pre n post) (hn : Nodes d leafNode ns)
    (hchild : leafNode = true ∨ 1 < ns.length) :
    skipped d leafNode (insertedNodes (skipped d leafNode ns) pre key rec pageNumber n post) =
        skipped d leafNode ns ∧
      scanned d leafNode (insertedNodes (skipped d leafNode ns) pre key rec pageNumber n post) =
        pre ++ storeNode (lastKey [] pre) key rec pageNumber ::
          relink (lastKey [] pre) key n :: post := by
  have hscan := h.scanned_eq
  obtain ⟨a, rest, rfl⟩ := List.exists_cons_of_ne_nil hn.ne_nil
  by_cases hskip : (!leafNode && d && a.length == 0) = true
  · rw [insertedNodes]
    simp [skipped, scanned, hskip]
  simp only [scanned, if_neg hskip] at hscan
  have hfirst : ∀ b tail, (!leafNode && d && b.length == 0) = false →
      skipped d leafNode (b :: tail) = [] ∧ scanned d leafNode (b :: tail) = b :: tail := by
    intro b tail hb
    simp [skipped, scanned, hb]
  rw [(hfirst a rest (by simpa using hskip)).1, insertedNodes]
  cases pre with
  | cons b pre =>
    obtain ⟨rfl, -⟩ := List.cons.inj hscan
    have := hfirst a (pre ++ storeNode (lastKey [] (a :: pre)) key rec pageNumber ::
      relink (lastKey [] (a :: pre)) key n :: post) (by simpa using hskip)
    simpa using this
  | nil =>
    obtain ⟨rfl, rfl⟩ := List.cons.inj hscan
    have := hfirst (storeNode [] key rec pageNumber) (relink [] key a :: rest) ?_
    · simpa using this
    -- an empty key would stand behind the first key of a descending page
    by_contra hcon
    simp only [Bool.not_eq_false, Bool.and_eq_true, Bool.not_eq_true', beq_iff_eq] at hcon hskip
    obtain ⟨⟨rfl, rfl⟩, hlen⟩ := hcon
    have hempty : key = [] := by simpa [storeNode, IndexNode.length] using hlen
    have hl : a.isEndLevel = false := by
      have hc := h.chain hn hchild
      have : rest ≠ [] := by
        rintro rfl
        simp at hchild
      exact (hc.tail this).1
    have hle := (h.behind.resolve_left (by simp [hl])).1
    rw [hempty, lastKey_nil, nodeKey, List.take_nil, List.nil_append] at hle
    refine hskip ⟨⟨rfl, rfl⟩, ?_⟩
    cases hd : a.data with
    | nil => simp [IndexNode.length, hd]
    | cons x xs => exact absurd (hd ▸ hle) (by simp [AtMost, Before])

/-- The entries are the old ones around the new one. -/
theorem Place.decode_inserted {leafNode : Bool} (pageNumber : ℕ) (h : Place d leafNode validate key rec ns pre n post)
    (hn : Nodes d leafNode ns) (hchild : leafNode = true ∨ 1 < ns.length)
    (hw : n.WellFormed leafNode) :
    decode [] ns = decode [] (skipped d leafNode ns) ++ decode [] pre ++
        decode (lastKey [] pre) (n :: post) ∧
      decode [] (insertedNodes (skipped d leafNode ns) pre key rec pageNumber n post) =
        decode [] (skipped d leafNode ns) ++ decode [] pre ++
          ⟨key, rec, pageNumber, false, false⟩ :: decode (lastKey [] pre) (n :: post) := by
  have hlast := hn.lastKey_skipped hchild
  have hpost : n.isEndLevel = true → post = [] := fun hl =>
    (chain_endLevel hl).1 ((h.chain hn hchild).append_right (by simp)).2
  constructor
  · conv_lhs => rw [h.eq]
    simp [hlast]
  · have := decode_relink (lastKey [] pre) key hw hpost
    rw [← this]
    simp [insertedNodes, hlast]

/-- The scratch page holds the new nodes behind the old jump table. -/
theorem Place.layout_scratch (pageNumber : ℕ) (h : Place d page.leafPage validate key rec ns pre n post)
    (hv : ValidBucket pageSize d page js ns) (hchild : page.leafPage = true ∨ 1 < ns.length)
    (hps : pageSize ≤ maxPageSize) (hkey : key.length < pageSize / 4) (hrec : rec < 2 ^ 40)
    (hpage : pageNumber < 2 ^ 32) :
    let p := pointAt page (skipped d page.leafPage ns) key pre n
    let newNode := p.newNode page.leafPage key rec pageNumber
    let newBucket := insertScratch page p newNode
    let ns' := insertedNodes (skipped d page.leafPage ns) pre key rec
      (if page.leafPage then 0 else pageNumber) n post
    Layout newBucket js ns' ∧ newBucket.btrPrefixTotal = prefixTotal ns' ∧
      nodesSize page.leafPage ns' = nodesSize page.leafPage ns + p.delta page.leafPage newNode := by
  intro p newNode newBucket ns'
  have hns := h.eq
  have hlay : Layout page js (skipped d page.leafPage ns ++ pre ++ [n] ++ post) := hns ▸ hv.layout
  have hw : n.WellFormed page.leafPage := hlay.nodes n (by simp)
  have hnew : newNode = storeNode (lastKey [] pre) key rec (if page.leafPage then 0 else pageNumber) :=
    rfl
  have hnext : p.nextNode = relink (lastKey [] pre) key n :=
    nextNode_pointAt hw (h.chain hv.nodes hchild) h.before h.behind
  have hpg : (if page.leafPage then 0 else pageNumber) < 2 ^ 32 := by split_ifs <;> omega
  have hwf := h.wellFormed hv hchild hps hkey hrec hpg (by simp +contextual)
  have hdelta : p.delta page.leafPage newNode = newNode.getNodeSize page.leafPage +
      (relink (lastKey [] pre) key n).getNodeSize page.leafPage - n.getNodeSize page.leafPage := by
    rw [InsertPoint.delta, hnext]
    rfl
  rw [← hnew] at hwf
  have hsize : nodesSize page.leafPage ns' =
      nodesSize page.leafPage ns + p.delta page.leafPage newNode := by
    have hold := congrArg (nodesSize page.leafPage) hns
    simp only [ns', insertedNodes, ← hnew, nodesSize_append, nodesSize_cons, nodesSize_nil] at hold ⊢
    omega
  refine ⟨?_, ?_, hsize⟩
  · refine Layout.splice [newNode, relink (lastKey [] pre) key n]
      (p.nodeOffset + n.getNodeSize page.leafPage) hlay hwf.1 rfl ?_ ?_ rfl rfl rfl ?_
    · simp only [p, pointAt, nodesSize_append, nodesSize_cons, nodesSize_nil]
      omega
    · rw [← hnext]
      exact List.prefix_refl _
    · have : newBucket.btrLength = page.btrLength + p.delta page.leafPage newNode := rfl
      rw [this, hv.layout.length, Nat.add_assoc, ← hsize]
      rfl
  · have hold := congrArg prefixTotal hns
    have htotal := hv.prefixTotal
    have hpfx : (relink (lastKey [] pre) key n).prefixLen = p.newPrefix := by
      rw [← hnext]
      rfl
    have : newBucket.btrPrefixTotal =
      page.btrPrefixTotal + (newNode.prefixLen - n.prefixLen) + p.newPrefix := rfl
    simp only [ns', insertedNodes, ← hnew, prefixTotal_append, prefixTotal_cons, prefixTotal_nil,
      hpfx] at hold ⊢
    omega

end

/-! ## The jump table -/

/-- The offset of a jump node behind the new node grows. -/
def patchOffset (nodeOffset delta : ℕ) (j : IndexJumpNode) : IndexJumpNode :=
  if j.offset > nodeOffset then { j with offset := j.offset + delta } else j

@[simp] theorem patchOffset_prefixLen (nodeOffset delta : ℕ) (j : IndexJumpNode) :
    (patchOffset nodeOffset delta j).prefixLen = j.prefixLen := by
  unfold patchOffset
  split_ifs <;> rfl

@[simp] theorem patchOffset_data (nodeOffset delta : ℕ) (j : IndexJumpNode) :
    (patchOffset nodeOffset delta j).data = j.data := by
  unfold patchOffset
  split_ifs <;> rfl

theorem patchOffset_offset (nodeOffset delta : ℕ) (j : IndexJumpNode) :
    (patchOffset nodeOffset delta j).offset =
      if j.offset > nodeOffset then j.offset + delta else j.offset := by
  unfold patchOffset
  split_ifs <;> rfl

theorem jumpNodesSize_map {f : IndexJumpNode → IndexJumpNode} (js : List IndexJumpNode)
    (hp : ∀ j, (f j).prefixLen = j.prefixLen) (hd : ∀ j, (f j).data = j.data) :
    jumpNodesSize (js.map f) = jumpNodesSize js := by
  induction js with
  | nil => rfl
  | cons j js ih =>
    simp [ih, IndexJumpNode.getJumpNodeSize, IndexJumpNode.length, hp, hd]

/-- The jump nodes that are kept are the old ones with patched offsets, and none of them leads to
the node behind the new one. -/
theorem keepJumpNodes_spec {newBucket : BtreePage} {js js' : List IndexJumpNode}
    {ns : List IndexNode} {nodeOffset delta index pointer : ℕ} (before : List IndexJumpNode)
    (hlay : Layout newBucket (before ++ js) ns) (hptr : pointer = btrSize + jumpNodesSize before)
    (h : keepJumpNodes newBucket nodeOffset delta js.length index pointer = some js') :
    js' = js.map (patchOffset nodeOffset delta) ∧ ∀ j ∈ js, j.offset ≠ nodeOffset := by
  induction js generalizing before js' index pointer with
  | nil =>
    rw [List.length_nil, keepJumpNodes] at h
    cases h
    simp
  | cons j js ih =>
    rw [List.length_cons, keepJumpNodes] at h
    dsimp only at h
    rw [hlay.readJumpNode hptr] at h
    dsimp only at h
    by_cases hne : j.offset = nodeOffset
    · simp [hne] at h
    rw [if_neg hne] at h
    split_ifs at h
    all_goals
      obtain ⟨rest, hrest, rfl⟩ := Option.map_eq_some_iff.1 h
      have hi := ih (before ++ [j]) (by simpa using hlay)
        (by simp [hptr, Nat.add_assoc]) hrest
      refine ⟨?_, by simpa using ⟨hne, hi.2⟩⟩
      rw [hi.1, List.map_cons]
      simp [patchOffset, *]

section
variable {pageSize keyLen : ℕ} {page : BtreePage} {js : List IndexJumpNode}
  {ns pre post : List IndexNode} {n : IndexNode} {d validate : Bool} {key : Key}
  {rec pageNumber : ℕ}

/-- Patched jump nodes lead to the nodes they led to before. -/
theorem Place.jumps_patched (h : Place d page.leafPage validate key rec ns pre n post)
    (hv : ValidBucket pageSize d page js ns) (hchild : page.leafPage = true ∨ 1 < ns.length)
    {nodeOffset delta : ℕ} {ns' : List IndexNode}
    (hns' : ns' = insertedNodes (skipped d page.leafPage ns) pre key rec pageNumber n post)
    (hoffset : nodeOffset =
      page.firstNode + nodesSize page.leafPage (skipped d page.leafPage ns ++ pre))
    (hsize : nodesSize page.leafPage ns' = nodesSize page.leafPage ns + delta)
    (hne : ∀ j ∈ js, j.offset ≠ nodeOffset) :
    ValidJumps page.firstNode page.leafPage ns' (js.map (patchOffset nodeOffset delta)) := by
  have hns := h.eq
  obtain ⟨front, hfront⟩ : ∃ front, front = skipped d page.leafPage ns ++ pre := ⟨_, rfl⟩
  have hkey : lastKey [] front = lastKey [] pre := by
    rw [hfront, lastKey_append, hv.nodes.lastKey_skipped hchild]
  rw [insertedNodes, ← hfront] at hns'
  rw [← hfront] at hns hoffset
  subst hns'
  have hw : n.WellFormed page.leafPage := hv.layout.nodes n (by rw [hns]; simp)
  refine hv.jumps.map (by simp) (by simp) ?_ ?_ ?_
  · intro j hj bytes hto
    rw [hns] at hto
    rcases lt_or_gt_of_ne (hne j hj) with hlt | hgt
    · have hb := hto.offset_bounds
      rw [List.append_assoc] at hto
      have hfrontTo := hto.front (t := page.firstNode)
        (C := [storeNode (lastKey [] pre) key rec pageNumber, relink (lastKey [] pre) key n] ++ post)
        (by omega)
      rw [Nat.sub_add_cancel hb.1, ← List.append_assoc] at hfrontTo
      rw [patchOffset, if_neg (by omega)]
      exact hfrontTo
    · have hge : page.firstNode + nodesSize page.leafPage (front ++ [n]) ≤ j.offset := by
        rw [List.append_assoc] at hto
        exact JumpTo.behind hto (by omega)
      have hlast : lastKey [] (front ++ [storeNode (lastKey [] pre) key rec pageNumber,
          relink (lastKey [] pre) key n]) = lastKey [] (front ++ [n]) := by
        simp [hkey, nodeKey_relink_of_wellFormed hw]
      have hbackTo := hto.back (t := page.firstNode) hge hlast
      rw [patchOffset, if_pos hgt]
      convert hbackTo using 2
      have := congrArg (nodesSize page.leafPage) hns
      simp only [nodesSize_append] at hsize this hge ⊢
      omega
  · intro j _ k _ hlt
    simp only [patchOffset_offset]
    split_ifs <;> omega
  · intro j _ hlt
    simp only [patchOffset_offset]
    split_ifs <;> omega

/-- The first node takes little more than its key. -/
theorem head_getNodeSize_le {leafNode : Bool} {ns : List IndexNode} {maxLength : ℕ}
    (hw : ∀ a ∈ ns, a.WellFormed leafNode) (hkeys : ∀ e ∈ decode [] ns, e.key.length < maxLength) :
    ∀ a ∈ ns.head?, a.getNodeSize leafNode ≤ 15 + maxLength := by
  intro a ha
  obtain ⟨rest, rfl⟩ : ∃ rest, ns = a :: rest := by
    cases ns with
    | nil => simp at ha
    | cons b rest => exact ⟨rest, by simpa using ha⟩
  have hkey := hkeys (entryOf [] a) (by simp)
  have hlen : a.length ≤ (nodeKey [] a).length := by simp [nodeKey, IndexNode.length]
  cases hl : a.isEndLevel with
  | true =>
    rw [IndexNode.getNodeSize, if_pos hl]
    omega
  | false =>
    have hbound := (IndexNode.getNodeSize_bounds leafNode hl).2
    have hhead := (a.headSize_bounds leafNode).2
    have hp := IndexNode.lengthSize_le (hw a (by simp)).prefixLen
    have hd := IndexNode.lengthSize_le (hw a (by simp)).length
    simp only [entryOf] at hkey
    omega

/-- The new jump nodes lead to the new nodes. -/
theorem Place.jumps_updated (h : Place d page.leafPage validate key rec ns pre n post)
    (hv : ValidBucket pageSize d page js ns) (hchild : page.leafPage = true ∨ 1 < ns.length)
    (hps : minPageSize ≤ pageSize) {newBucket : BtreePage} {nodeOffset delta : ℕ} {ns' : List IndexNode}
    (hns' : ns' = insertedNodes (skipped d page.leafPage ns) pre key rec pageNumber n post)
    (hlay : Layout newBucket js ns') (hfirst : newBucket.firstNode = page.firstNode)
    (hleaf : newBucket.leafPage = page.leafPage)
    (hkeys : ∀ e ∈ decode [] ns', e.key.length < pageSize / 4) (hkeyLen : keyLen < pageSize / 4)
    (hoffset : nodeOffset =
      page.firstNode + nodesSize page.leafPage (skipped d page.leafPage ns ++ pre))
    (hsize : nodesSize page.leafPage ns' = nodesSize page.leafPage ns + delta)
    (ensureEndInsert : ℕ) :
    let t := updateJumpNodes pageSize keyLen newBucket nodeOffset delta ensureEndInsert
    ValidJumps page.firstNode page.leafPage ns' t.jumpNodes ∧
      jumpNodesSize t.jumpNodes ≤ t.jumpersSize := by
  have hnodes : Nodes d page.leafPage ns' := by
    rw [hns']
    exact h.nodes hv.nodes hchild
  obtain ⟨kept, hkept⟩ : ∃ kept, kept =
      if nodeOffset ≥ btrSize + newBucket.btrJumpSize +
          (newBucket.btrJumpCount + 1) * newBucket.btrJumpInterval ∨
        newBucket.btrLength + ensureEndInsert > pageSize then none
      else keepJumpNodes newBucket nodeOffset delta newBucket.btrJumpCount 1 btrSize := ⟨_, rfl⟩
  rw [updateJumpNodes]
  dsimp only
  rw [← hkept]
  cases kept with
  | some js' =>
    split_ifs at hkept
    rw [hlay.jumpCount] at hkept
    obtain ⟨rfl, hne⟩ := keepJumpNodes_spec [] hlay (by simp) hkept.symm
    refine ⟨h.jumps_patched hv hchild hns' hoffset hsize hne, ?_⟩
    obtain ⟨pad, tail, -, hlen⟩ := hlay.bytes
    rw [jumpNodesSize_map js (by simp) (by simp), ← hlen, List.length_append,
      writeJumpNodes_length hlay.jumps]
    exact Nat.le_add_right _ _
  | none =>
    obtain ⟨pre', hinv, -⟩ := generateJumpNodes_inv true pageSize keyLen hlay
      (hleaf ▸ hnodes) fun _ a ha => by
        have := head_getNodeSize_le hlay.nodes hkeys a ha
        rw [minPageSize] at hps
        rw [btrSize]
        omega
    exact ⟨hfirst ▸ hleaf ▸ hinv.valid, hinv.size.ge⟩

end

/-! ## Writing the page back -/

/-- The page that is written back holds the nodes of the scratch page and the jump nodes, shifted
with the first node. -/
theorem writeBack_valid {pageSize count jumpersSize : ℕ} {d : Bool} {bucket newBucket : BtreePage}
    {js jumpNodes : List IndexJumpNode} {ns : List IndexNode} (hlay : Layout newBucket js ns)
    (hlevel : newBucket.btrLevel = bucket.btrLevel) (hn : Nodes d bucket.leafPage ns)
    (hj : ValidJumps newBucket.firstNode newBucket.leafPage ns jumpNodes)
    (hsize : jumpNodesSize jumpNodes ≤ jumpersSize) (hcount : count ≤ jumpNodes.length)
    (hbyte : count < 256) (hkeys : ∀ e ∈ decode [] ns, e.key.length < pageSize / 4)
    (hfits : newBucket.btrLength + jumpersSize ≤ pageSize + newBucket.btrJumpSize)
    (hps : pageSize ≤ maxPageSize) :
    ∃ js', ValidBucket pageSize d
      (writeBack bucket newBucket jumpNodes count jumpersSize (prefixTotal ns)) js' ns := by
  have hleaf : newBucket.leafPage = bucket.leafPage := by rw [BtreePage.leafPage, hlevel]; rfl
  have hlen := hlay.length
  rw [BtreePage.firstNode] at hlen hj
  rw [hleaf] at hlen hj
  obtain ⟨shift, hshift⟩ : ∃ shift : IndexJumpNode → IndexJumpNode, shift = fun j =>
      { j with offset := j.offset + jumpersSize - newBucket.btrJumpSize } := ⟨_, rfl⟩
  have hshifted : ValidJumps (btrSize + jumpersSize) bucket.leafPage ns (jumpNodes.map shift) := by
    refine hj.map (by simp [hshift]) (by simp [hshift]) (fun j _ bytes hto => ?_) ?_ ?_
    · have hb := hto.offset_bounds
      have := hto.shift (t := btrSize + jumpersSize)
      rw [hshift]
      convert this using 2
      omega
    · intro j hjm k _ hlt
      have := hj.behindFirst j hjm
      simp only [hshift]
      omega
    · intro j _ hlt
      simp only [hshift]
      omega
  have hwf : ∀ j ∈ jumpNodes.map shift, j.WellFormed := by
    intro j hjm
    obtain ⟨bytes, hto⟩ := hshifted.chain.mem hjm
    have hb := hto.offset_bounds
    have hl := hshifted.lengths (hleaf ▸ hlay.nodes) j hjm
    rw [maxPageSize] at hps
    exact ⟨hl.1, hl.2, by omega⟩
  have hsize' : (writeJumpNodes (jumpNodes.map shift)).length ≤ jumpersSize := by
    rw [writeJumpNodes_length hwf, jumpNodesSize_map _ (by simp [hshift]) (by simp [hshift])]
    exact hsize
  obtain ⟨pad, tail, hbytes, hpad⟩ := hlay.bytes
  refine ⟨(jumpNodes.map shift).take count, ?_, hn, hshifted.take count, ?_, rfl, hkeys, ?_⟩
  · obtain ⟨pad', hpre, hpadlen⟩ := takeD_of_front_le
      (blit_front (List.nil_prefix (l := bucket.btrNodes)) (Nat.zero_le 0)
        (writeJumpNodes (jumpNodes.map shift))) hsize'
    have hnodes : (newBucket.btrNodes.drop newBucket.btrJumpSize).take
        (newBucket.btrLength - btrSize - newBucket.btrJumpSize) = writeNodes bucket.leafPage ns := by
      rw [hbytes, hleaf, List.append_assoc, List.drop_left' hpad]
      refine List.take_left' ?_
      rw [writeNodes_length (hleaf ▸ hlay.nodes)]
      omega
    have hsplit : writeJumpNodes (jumpNodes.map shift) =
        writeJumpNodes ((jumpNodes.map shift).take count) ++
          writeJumpNodes ((jumpNodes.map shift).drop count) := by
      rw [← writeJumpNodes_append, List.take_append_drop]
    simp only [List.take_zero, List.nil_append, hsplit, List.append_assoc] at hpre hpadlen
    obtain ⟨rest, hrest⟩ : ∃ rest,
        (writeBack bucket newBucket jumpNodes count jumpersSize (prefixTotal ns)).btrNodes =
          writeJumpNodes ((jumpNodes.map shift).take count) ++
            (writeJumpNodes ((jumpNodes.map shift).drop count) ++ pad') ++
            writeNodes bucket.leafPage ns ++ rest := by
      simp only [writeBack, ← hshift]
      rw [hsplit, blit, hpre, hnodes]
      exact ⟨_, rfl⟩
    refine ⟨⟨_, rest, hrest, hpadlen⟩, ?_, ?_, hleaf ▸ hlay.nodes,
      fun j hjm => hwf j (List.mem_of_mem_take hjm)⟩
    · simp only [writeBack, List.length_take, List.length_map]
      omega
    · simp only [writeBack, BtreePage.firstNode]
      rw [hlen]
      simp only [BtreePage.leafPage]
      omega
  · simp only [List.length_take, List.length_map]
    omega
  · have : (writeBack bucket newBucket jumpNodes count jumpersSize (prefixTotal ns)).btrLength =
      newBucket.btrLength + jumpersSize - newBucket.btrJumpSize := rfl
    omega

/-! ## The bucket after an insertion -/

/-- `es'` are the entries `es` with `e` added at its place: by its key and, unless duplicates are
validated, among equal keys by its record number. -/
def InsertedAt (d validate : Bool) (e : Entry) (es es' : List Entry) : Prop :=
  ∃ es₁ es₂, es = es₁ ++ es₂ ∧ es' = es₁ ++ e :: es₂ ∧
    (∀ a ∈ es₁, a.isEndLevel = false ∧ AtMost d a.key e.key ∧
      (validate = false → a.key = e.key → a.recordNumber < e.recordNumber)) ∧
    ∀ b ∈ es₂, b.isEndLevel = true ∨ AtMost d e.key b.key ∧
      (validate = false → b.key = e.key → e.recordNumber ≤ b.recordNumber)

/-- Records stay ordered, those of the new key if duplicates are not validated. -/
theorem InsertedAt.recordsOrdered {d validate : Bool} {e : Entry} {es es' : List Entry} {key : Key}
    (h : InsertedAt d validate e es es') (hk : e.key = key → validate = false)
    (ho : RecordsOrdered key es) : RecordsOrdered key es' := by
  obtain ⟨es₁, es₂, rfl, rfl, hbefore, hbehind⟩ := h
  obtain ⟨h₁, h₂, h₁₂⟩ := List.pairwise_append.1 ho
  refine List.pairwise_append.2 ⟨h₁, List.pairwise_cons.2 ⟨?_, h₂⟩, ?_⟩
  · intro b hb hl he hbk
    exact ((hbehind b hb).resolve_left (by simp [hl])).2 (hk he) (hbk.trans he.symm)
  · intro a ha b hb
    rcases List.mem_cons.1 hb with rfl | hb
    · intro _ hak hbk
      exact ((hbefore a ha).2.2 (hk hbk) (hak.trans hbk.symm)).le
    · exact h₁₂ a ha b hb

section
variable {ns pre post : List IndexNode} {n : IndexNode} {d leafNode validate : Bool} {key : Key}
  {rec : ℕ}

theorem Place.insertedAt (pageNumber : ℕ) (h : Place d leafNode validate key rec ns pre n post)
    (hn : Nodes d leafNode ns) (hchild : leafNode = true ∨ 1 < ns.length)
    (hw : n.WellFormed leafNode)
    (ho : validate = false → RecordsOrdered key (decode [] (scanned d leafNode ns))) :
    InsertedAt d validate ⟨key, rec, pageNumber, false, false⟩
      (decode [] (scanned d leafNode ns))
      (decode [] (scanned d leafNode
        (insertedNodes (skipped d leafNode ns) pre key rec pageNumber n post))) := by
  have hc := h.chain hn hchild
  have hpost : n.isEndLevel = true → post = [] := fun hl =>
    (chain_endLevel hl).1 (hc.append_right (by simp)).2
  have hpair := hc.pairwise
  rw [h.scanned_eq] at ho ⊢
  rw [(h.scanned_inserted hn hchild).2]
  simp only [Option.getD_none, decode_append] at hpair ho
  refine ⟨decode [] pre, decode (lastKey [] pre) (n :: post), by simp, ?_, ?_, ?_⟩
  · have := decode_relink (lastKey [] pre) key hw hpost
    rw [decode_append, decode_cons, entryOf_storeNode, nodeKey_storeNode, this]
  · intro a ha
    obtain ⟨k, hk, hle⟩ := hc.atMost_prevKey (by simp) ha
    exact ⟨((List.pairwise_append.1 hpair).2.2 a ha (entryOf (lastKey [] pre) n) (by simp)).1,
      hle.trans (h.before.keys k hk), fun hv => h.before.records hv a ha⟩
  · intro b hb
    rcases List.mem_cons.1 hb with rfl | hb
    · exact h.behind
    · -- what follows the node is above it
      have hrest := (List.pairwise_append.1 hpair).2.1
      obtain ⟨hl, -, hle⟩ := (List.pairwise_cons.1 hrest).1 b hb
      have hbehind := h.behind.resolve_left (by simpa [entryOf] using hl)
      cases hbl : b.isEndLevel with
      | true => exact .inl rfl
      | false =>
        refine .inr ⟨hbehind.1.trans (hle hbl), fun hv hbk => ?_⟩
        have heq : nodeKey (lastKey [] pre) n = key := by
          refine AtMost.antisymm (e := d) ?_ hbehind.1
          have := hle hbl
          rwa [hbk] at this
        have hord := (List.pairwise_append.1 (ho hv)).2.1
        exact (hbehind.2 hv heq).trans ((List.pairwise_cons.1 hord).1 b hb hbl heq hbk)

end

/-- The new bucket where the insertion point is a place for the key. -/
theorem Place.insertAt {ctx : InsertContext} {bucket bucket' : BtreePage} {js : List IndexJumpNode}
    {ns pre post : List IndexNode} {n : IndexNode} {d validate : Bool} {key : Key} {idx : IndexDesc}
    {rec pageNumber : ℕ} (h : Place d bucket.leafPage validate key rec ns pre n post)
    (hv : ValidBucket ctx.pageSize d bucket js ns) (hchild : bucket.leafPage = true ∨ 1 < ns.length)
    (hmin : minPageSize ≤ ctx.pageSize) (hmax : ctx.pageSize ≤ maxPageSize)
    (hkey : key.length < ctx.pageSize / 4) (hkeyLen : ctx.keyLength < ctx.pageSize / 4)
    (hrec : rec < 2 ^ 40) (hpage : pageNumber < 2 ^ 32)
    (hrun : Btr.insertAt ctx bucket key idx rec pageNumber
      (pointAt bucket (skipped d bucket.leafPage ns) key pre n) = .ok (.noSplit bucket')) :
    bucket'.btrLevel = bucket.btrLevel ∧ ∃ js', ValidBucket ctx.pageSize d bucket' js'
      (insertedNodes (skipped d bucket.leafPage ns) pre key rec
        (if bucket.leafPage then 0 else pageNumber) n post) := by
  obtain ⟨hlay, htotal, hsize⟩ := h.layout_scratch pageNumber hv hchild hmax hkey
    hrec hpage
  obtain ⟨p, hp⟩ : ∃ p, p = pointAt bucket (skipped d bucket.leafPage ns) key pre n := ⟨_, rfl⟩
  obtain ⟨ns', hns'⟩ : ∃ ns', ns' = insertedNodes (skipped d bucket.leafPage ns) pre key rec
    (if bucket.leafPage then 0 else pageNumber) n post := ⟨_, rfl⟩
  rw [← hp, ← hns'] at hlay htotal hsize
  rw [← hp] at hrun
  rw [← hns']
  have hnodes : Nodes d bucket.leafPage ns' := hns' ▸ h.nodes hv.nodes hchild
  have hw : n.WellFormed bucket.leafPage := hv.layout.nodes n (by rw [h.eq]; simp)
  have hkeys : ∀ e ∈ decode [] ns', e.key.length < ctx.pageSize / 4 := by
    obtain ⟨hold, hnew⟩ := h.decode_inserted
      (if bucket.leafPage then 0 else pageNumber) hv.nodes hchild hw
    have hk := hv.keys
    rw [hns', hnew]
    rw [hold] at hk
    intro e he
    rcases List.mem_append.1 he with he | he
    · exact hk e (List.mem_append_left _ he)
    rcases List.mem_cons.1 he with rfl | he
    · exact hkey
    · exact hk e (List.mem_append_right _ he)
  rw [Btr.insertAt] at hrun
  generalize (if p.node.isEndBucket || p.node.isEndLevel then 6 + key.length else 0) = ensureEndInsert
    at hrun
  obtain ⟨hj, hjsize⟩ := h.jumps_updated hv hchild hmin hns' hlay rfl rfl hkeys hkeyLen
    (show p.nodeOffset = _ by rw [hp]; rfl) hsize ensureEndInsert
  generalize updateJumpNodes ctx.pageSize ctx.keyLength
    (insertScratch bucket p (p.newNode bucket.leafPage key rec pageNumber)) p.nodeOffset
    (p.delta bucket.leafPage (p.newNode bucket.leafPage key rec pageNumber)) ensureEndInsert = t
    at hrun hj hjsize
  split_ifs at hrun with hfits
  · cases hrun
    refine ⟨rfl, ?_⟩
    rw [htotal]
    exact writeBack_valid hlay rfl hnodes hj hjsize (Nat.mod_le _ _) (Nat.mod_lt _ (by decide)) hkeys
      (by omega) hmax
  · -- a split gives two buckets
    rw [splitBucket] at hrun
    split at hrun
    · cases hrun
    · split at hrun <;> cases hrun

/-- An insertion without a split is made at a place for the key. -/
theorem insertNode_place {ctx : InsertContext} {bucket bucket' : BtreePage} {js : List IndexJumpNode}
    {ns : List IndexNode} {key : TemporaryKey} {idx : IndexDesc} {rec pageNumber : ℕ} {duplicates : List ℕ}
    (hv : ValidBucket ctx.pageSize idx.idxDescending bucket js ns)
    (hchild : bucket.leafPage = true ∨ 1 < ns.length)
    (ho : validateDuplicates idx key = false →
      RecordsOrdered key.keyData (decode [] (scanned idx.idxDescending bucket.leafPage ns)))
    (h : insertNode ctx bucket key idx rec pageNumber = .ok (.noSplit bucket', duplicates)) :
    ∃ pre n post,
      Place idx.idxDescending bucket.leafPage (validateDuplicates idx key) key.keyData rec ns pre n post ∧
      Btr.insertAt ctx bucket key.keyData idx rec pageNumber
        (pointAt bucket (skipped idx.idxDescending bucket.leafPage ns) key.keyData pre n) =
          .ok (.noSplit bucket') := by
  obtain ⟨dups, ⟨hf, -⟩ | ⟨pre, n, post, hsc, hbefore, hbehind, hf⟩⟩ :=
    findInsertPoint_spec rec hv.layout hv.nodes hv.jumps.chain hchild hv.fits ho
  · rw [insertNode, hf] at h
    cases h
  rw [insertNode, hf] at h
  dsimp only at h
  refine ⟨pre, n, post, ⟨hsc, hbefore, hbehind⟩, ?_⟩
  cases hrun : Btr.insertAt ctx bucket key.keyData idx rec pageNumber
      (pointAt bucket (skipped idx.idxDescending bucket.leafPage ns) key.keyData pre n) with
  | error e =>
    rw [hrun] at h
    cases h
  | ok result =>
    rw [hrun] at h
    simp only [Except.map, Except.ok.injEq, Prod.mk.injEq] at h
    obtain ⟨rfl, -⟩ := h
    rfl

/-- A bucket that is not split holds the new entry at its place among the old ones. -/
theorem insertNode_noSplit {ctx : InsertContext} {bucket bucket' : BtreePage}
    {js : List IndexJumpNode} {ns : List IndexNode} {key : TemporaryKey} {idx : IndexDesc}
    {rec pageNumber : ℕ} {duplicates : List ℕ}
    (hv : ValidBucket ctx.pageSize idx.idxDescending bucket js ns)
    (hchild : bucket.leafPage = true ∨ 1 < ns.length) (hmin : minPageSize ≤ ctx.pageSize)
    (hmax : ctx.pageSize ≤ maxPageSize) (hkey : key.keyData.length < ctx.pageSize / 4)
    (hkeyLen : ctx.keyLength < ctx.pageSize / 4) (hrec : rec < 2 ^ 40) (hpage : pageNumber < 2 ^ 32)
    (ho : validateDuplicates idx key = false →
      RecordsOrdered key.keyData (decode [] (scanned idx.idxDescending bucket.leafPage ns)))
    (h : insertNode ctx bucket key idx rec pageNumber = .ok (.noSplit bucket', duplicates)) :
    ∃ js' ns', bucket'.btrLevel = bucket.btrLevel ∧
      ValidBucket ctx.pageSize idx.idxDescending bucket' js' ns' ∧
      skipped idx.idxDescending bucket.leafPage ns' = skipped idx.idxDescending bucket.leafPage ns ∧
      InsertedAt idx.idxDescending (validateDuplicates idx key)
        ⟨key.keyData, rec, if bucket.leafPage then 0 else pageNumber, false, false⟩
        (decode [] (scanned idx.idxDescending bucket.leafPage ns))
        (decode [] (scanned idx.idxDescending bucket.leafPage ns')) ∧
      ∀ k, (k = key.keyData → validateDuplicates idx key = false) →
        RecordsOrdered k (decode [] (scanned idx.idxDescending bucket.leafPage ns)) →
        RecordsOrdered k (decode [] (scanned idx.idxDescending bucket.leafPage ns')) := by
  obtain ⟨pre, n, post, hplace, hrun⟩ := insertNode_place hv hchild ho h
  have hw : n.WellFormed bucket.leafPage := hv.layout.nodes n (by rw [hplace.eq]; simp)
  obtain ⟨hlevel, js', hvalid⟩ := hplace.insertAt hv hchild hmin hmax hkey hkeyLen hrec hpage hrun
  have hinserted := hplace.insertedAt
    (if bucket.leafPage then 0 else pageNumber) hv.nodes hchild hw ho
  exact ⟨js', _, hlevel, hvalid, (hplace.scanned_inserted hv.nodes hchild).1, hinserted,
    fun k hk hok => hinserted.recordsOrdered (fun he => hk he.symm) hok⟩

theorem validBucket_duplicate :
    ValidBucket 4096 false (bucketOf 0 duplicateJumps duplicateNodes) duplicateJumps duplicateNodes where
  layout := layout_duplicate
  nodes := nodes_duplicate
  jumps := ⟨jumpChain_duplicate, by decide, by decide⟩
  jumpCount := by decide
  prefixTotal := rfl
  keys := by decide
  fits := by decide

/-- The bucket of duplicates behind which the key `[65, 66]` of record 7 is inserted. -/
def duplicateInserted : BtreePage :=
  { bucketOf 0 [] (duplicateNodes.take 3 ++
      [⟨1, [66], 7, 0, false, false⟩, IndexNode.endLevel]) with
    btrNodes := [161, 0, 0, 65, 130, 0, 1, 131, 0, 1, 167, 0, 1, 66, 32, 1, 131, 0, 1, 32] }

theorem insertNode_noSplit_witness :
    ∃ js' ns', ValidBucket 4096 false duplicateInserted js' ns' ∧
      InsertedAt false false ⟨[65, 66], 7, 0, false, false⟩ (decode [] duplicateNodes)
        (decode [] (scanned false true ns')) := by
  obtain ⟨js', ns', -, hv, -, hins, -⟩ := @insertNode_noSplit
    ⟨4096, 4, 10, 11, ⟨[], 1, false⟩⟩ _ duplicateInserted _ _ ⟨[65, 66], 0, false⟩
    ⟨1, false, false, false⟩ 7 0 [] validBucket_duplicate (.inl rfl) (by decide) (by decide)
    (by decide) (by decide) (by decide) (by decide) (fun _ => by decide) (by decide +kernel)
  exact ⟨js', ns', hv, hins⟩

end FirebirdCore.Btr
