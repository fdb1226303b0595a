import FirebirdCore.Btr.DeleteNode
import FirebirdCore.Btr.Find

/-!
# Finding the node to remove

`remove_leaf_node` starts at the first node of the key and walks over the duplicates to the one of the record. On a
valid page it finds that node, and stops in front of or behind the page only if there is no such node.
-/
namespace FirebirdCore.Btr
open FirebirdCore.KeyOrder

/-- How the search ends: at a node, without one, or at the right sibling. -/
inductive Removal where
  | found (pointer : ℕ)
  | missing
  | sibling
  deriving DecidableEq, Repr

/-- The loop over the duplicates. -/
def removeLoop (page : BtreePage) (key : Key) (recordNumber : ℕ) : ℕ → ℕ → Removal
  | 0, _ => .missing
  | fuel + 1, pointer =>
      let r := page.readNode pointer
      -- if we find the right one, quit
      if recordNumber = r.1.recordNumber ∧ r.1.isEndBucket = false ∧ r.1.isEndLevel = false then .found pointer
      else if r.1.isEndLevel then .missing
      else if r.1.isEndBucket then .sibling
      else
        -- go to the next node and check that it is a duplicate
        let next := (page.readNode r.2).1
        if next.length ≠ 0 ∨ next.prefixLen ≠ key.length then .missing
        else removeLoop page key recordNumber fuel r.2

/-- The search of `remove_leaf_node` on one page. -/
def removeLeafNode (page : BtreePage) (key : TemporaryKey) (idx : IndexDesc) (recordNumber : ℕ) :
    Except BugCheck Removal :=
  (findNodeStartPoint page key.keyData idx.idxDescending false false
      (if validateDuplicates idx key then noValue else recordNumber)).map fun
    | none => .sibling
    | some (pointer, pfx) =>
        let node := (page.readNode pointer).1
        -- make sure first node looks ok
        if pfx > node.prefixLen ∨ key.keyData.length ≠ node.length + node.prefixLen then .missing
        else if node.length ≠ 0 ∧ node.data ≠ (key.keyData.drop node.prefixLen).take node.length then .missing
        else removeLoop page key.keyData recordNumber (page.btrLength + 1) pointer

/-- The entry of a key and a record. -/
def Entry.IsOf (e : Entry) (key : Key) (recordNumber : ℕ) : Prop :=
  e.key = key ∧ e.recordNumber = recordNumber ∧ e.isEndBucket = false ∧ e.isEndLevel = false

/-- What the end of the search says of the nodes `B` behind `A`: where the entry is, or that there is none. -/
def Removal.Of (page : BtreePage) (key : Key) (recordNumber : ℕ) (A B : List IndexNode) : Removal → Prop
  | found pointer => ∃ C x D, B = C ++ x :: D ∧ pointer = page.firstNode + nodesSize page.leafPage (A ++ C) ∧
      (entryOf (lastKey [] (A ++ C)) x).IsOf key recordNumber
  | missing => ∀ e ∈ decode (lastKey [] A) B, ¬ e.IsOf key recordNumber
  | sibling => ∀ e ∈ decode (lastKey [] A) B, ¬ e.IsOf key recordNumber

section
variable {page : BtreePage} {js : List IndexJumpNode} {ns A B C D : List IndexNode} {x : IndexNode} {d : Bool}
variable {key : Key} {rec : ℕ}

theorem scanned_leaf (d : Bool) (ns : List IndexNode) : scanned d true ns = ns := by
  cases ns <;> simp [scanned]

theorem skipped_leaf (d : Bool) (ns : List IndexNode) : skipped d true ns = [] := by
  cases ns <;> simp [skipped]

/-- Nodes in front that are not of the key and the record may be left out. -/
theorem Removal.Of.append {result : Removal} (hC : ∀ e ∈ decode (lastKey [] A) C, ¬ e.IsOf key rec)
    (h : result.Of page key rec (A ++ C) B) : result.Of page key rec A (C ++ B) := by
  have hnot (hB : ∀ e ∈ decode (lastKey [] (A ++ C)) B, ¬ e.IsOf key rec) :
      ∀ e ∈ decode (lastKey [] A) (C ++ B), ¬ e.IsOf key rec := by
    intro e he
    rw [decode_append, ← lastKey_append] at he
    rcases List.mem_append.1 he with he | he
    · exact hC e he
    · exact hB e he
  cases result with
  | found pointer =>
    obtain ⟨C', x, D, rfl, hpointer, hof⟩ := h
    rw [List.append_assoc] at hpointer hof
    exact ⟨C ++ C', x, D, by rw [List.append_assoc], hpointer, hof⟩
  | missing => exact hnot h
  | sibling => exact hnot h

/-- No entry is of the key from one on that ends the level or stands behind the key. -/
theorem not_isOf_behind {a : Entry} {es : List Entry}
    (hpair : (a :: es).Pairwise fun a b => a.isEndLevel = false ∧ a.isEndBucket = false ∧
      (b.isEndLevel = false → AtMost d a.key b.key))
    (ha : a.isEndLevel = true ∨ a.key ≠ key ∧ AtMost d key a.key) : ∀ e ∈ a :: es, ¬ e.IsOf key rec := by
  obtain ⟨hhead, -⟩ := List.pairwise_cons.1 hpair
  rintro e he ⟨hkey, -, -, hlevel⟩
  rcases List.mem_cons.1 he with rfl | he
  · rcases ha with ha | ha
    · rw [ha] at hlevel
      cases hlevel
    · exact ha.1 hkey
  · obtain ⟨hl, -, hmost⟩ := hhead e he
    rcases ha with ha | ⟨hne, hbehind⟩
    · rw [ha] at hl
      cases hl
    · have hle := hmost hlevel
      rw [hkey] at hle
      exact hne (hle.antisymm hbehind)

/-- A node behind one of the key is a duplicate just if it has no bytes but those of the key. -/
theorem nodeKey_eq_iff (hlink : x.prefixLen = lcp key (nodeKey key x)) :
    nodeKey key x = key ↔ x.length = 0 ∧ x.prefixLen = key.length := by
  constructor
  · intro hkey
    have hlength := nodeKey_length hlink
    rw [hkey, lcp_self] at hlink
    rw [hkey] at hlength
    omega
  · rintro ⟨hlength, hshared⟩
    rw [nodeKey, hshared, List.take_length, List.eq_nil_of_length_eq_zero hlength, List.append_nil]

/-- By induction on the fuel: every node that is walked over is of the key. -/
theorem removeLoop_spec {fuel pointer : ℕ} (hlay : Layout page js (A ++ x :: D))
    (hc : Chain d none (A ++ x :: D)) (hx : x.isEndLevel = true ∨ nodeKey (lastKey [] A) x = key)
    (hfuel : D.length < fuel) (hpointer : pointer = page.firstNode + nodesSize page.leafPage A) :
    (removeLoop page key rec fuel pointer).Of page key rec A (x :: D) := by
  induction fuel generalizing A x D pointer with
  | zero => omega
  | succ fuel ih =>
    have hxc := (hc.append_right (by simp)).2
    rw [removeLoop, hlay.readNode hpointer]
    dsimp only
    by_cases hfound : rec = x.recordNumber ∧ x.isEndBucket = false ∧ x.isEndLevel = false
    · rw [if_pos hfound]
      refine ⟨[], x, D, rfl, by rw [hpointer, List.append_nil], ?_⟩
      rw [List.append_nil]
      exact ⟨hx.resolve_left (by simp [hfound.2.2]), hfound.1.symm, hfound.2⟩
    rw [if_neg hfound]
    have hone : ∀ e ∈ decode (lastKey [] A) [x], ¬ e.IsOf key rec := by
      intro e he hof
      rw [decode_cons, decode_nil, List.mem_singleton] at he
      rw [he] at hof
      exact hfound ⟨hof.2.1.symm, hof.2.2⟩
    cases hl : x.isEndLevel with
    | true =>
      rw [if_pos rfl]
      obtain rfl := (chain_endLevel hl).1 hxc
      exact hone
    | false =>
      rw [if_neg Bool.false_ne_true]
      cases hb : x.isEndBucket with
      | true =>
        rw [if_pos rfl]
        obtain ⟨-, rfl⟩ := (chain_endBucket hl hb).1 hxc
        exact hone
      | false =>
        rw [if_neg Bool.false_ne_true]
        obtain ⟨m, D, rfl⟩ := List.exists_cons_of_ne_nil ((chain_node hl hb).1 hxc).2.ne_nil
        have hlast : lastKey [] (A ++ [x]) = key := by
          rw [lastKey_append, lastKey_cons, lastKey_nil]
          exact hx.resolve_left (by simp [hl])
        have hsplit : A ++ x :: m :: D = (A ++ [x]) ++ m :: D := by simp
        rw [hsplit] at hlay hc
        have hmc := (hc.append_right (by simp)).2
        have hnext : pointer + x.getNodeSize page.leafPage =
            page.firstNode + nodesSize page.leafPage (A ++ [x]) := by
          rw [hpointer, nodesSize_append, nodesSize_cons, nodesSize_nil, Nat.add_zero, Nat.add_assoc]
        rw [hlay.readNode hnext]
        dsimp only
        refine Removal.Of.append (C := [x]) hone ?_
        have hlink (hml : m.isEndLevel = false) : m.prefixLen = lcp key (nodeKey key m) := by
          have h := (hmc.linked hml).1
          rwa [prevKey_getD, Option.getD_none, hlast] at h
        split_ifs with hdup
        · have hpair := hmc.pairwise
          rw [prevKey_getD, Option.getD_none] at hpair
          refine not_isOf_behind hpair ?_
          cases hml : m.isEndLevel with
          | true => exact .inl hml
          | false =>
            have hmost := (hmc.linked hml).2 _ (prevKey_of_ne_nil none (by simp))
            rw [Option.getD_none, hlast] at hmost
            rw [hlast]
            refine .inr ⟨fun hkey => ?_, hmost⟩
            obtain ⟨hlength, hshared⟩ := (nodeKey_eq_iff (hlink hml)).1 hkey
            exact hdup.elim (fun h => h hlength) fun h => h hshared
        · rw [not_or, not_not, not_not] at hdup
          refine ih hlay hc ?_ (by rw [List.length_cons] at hfuel; omega) hnext
          cases hml : m.isEndLevel with
          | true => exact .inl rfl
          | false =>
            rw [hlast]
            exact .inr ((nodeKey_eq_iff (hlink hml)).2 hdup)

/-- A node that is not passed shares no more with the one before than the key does. -/
theorem prefixLen_le {prev : Key} (hpasses : Passes d false key prev) (hlink : x.prefixLen = lcp prev (nodeKey prev x))
    (hstop : AtMost d key (nodeKey prev x)) : x.prefixLen ≤ lcp prev key := by
  rw [hlink, lcp_of_atMost d hpasses.before.atMost hstop]
  exact Nat.min_le_left _ _

/-- The first node looks ok just if it is of the key. -/
theorem nodeKey_of_check {prev : Key} (hle : x.prefixLen ≤ lcp prev key) (hlength : key.length = x.length + x.prefixLen)
    (hdata : x.length = 0 ∨ x.data = (key.drop x.prefixLen).take x.length) : nodeKey prev x = key := by
  have hrest : (key.drop x.prefixLen).take x.length = key.drop x.prefixLen :=
    List.take_of_length_le (by rw [List.length_drop]; omega)
  have hsame : x.data = key.drop x.prefixLen := by
    rcases hdata with hzero | hdata
    · rw [List.eq_nil_of_length_eq_zero hzero, List.drop_eq_nil_of_le (by omega)]
    · rw [hdata, hrest]
  rw [nodeKey, hsame, take_eq_of_le_lcp hle, List.take_append_drop]

theorem check_of_nodeKey {prev : Key} (hlink : x.prefixLen = lcp prev (nodeKey prev x)) (hkey : nodeKey prev x = key) :
    x.prefixLen = lcp prev key ∧ key.length = x.length + x.prefixLen ∧
      x.data = (key.drop x.prefixLen).take x.length := by
  have hlength := nodeKey_length hlink
  rw [hkey] at hlink hlength
  refine ⟨hlink, by omega, ?_⟩
  have htake : (prev.take x.prefixLen).length = x.prefixLen :=
    List.length_take_of_le (by rw [hlink]; exact lcp_le_left _ _)
  have hdrop : key.drop x.prefixLen = x.data := by
    rw [← hkey, nodeKey, List.drop_left' htake]
  rw [hdrop]
  exact (List.take_length).symm

/-- On a valid leaf page the search ends at the entry of the key and the record, if there is one. -/
theorem removeLeafNode_spec {key : TemporaryKey} {idx : IndexDesc} (hlay : Layout page js ns)
    (hn : Nodes idx.idxDescending page.leafPage ns) (hj : JumpChain page.firstNode page.leafPage ns [] js)
    (hleaf : page.leafPage = true)
    (ho : validateDuplicates idx key = false → RecordsOrdered key.keyData (decode [] ns)) :
    ∃ result, removeLeafNode page key idx rec = .ok result ∧ result.Of page key.keyData rec [] ns := by
  have hscan : scanned idx.idxDescending page.leafPage ns = ns := by
    rw [hleaf]
    exact scanned_leaf _ _
  have hskip : skipped idx.idxDescending page.leafPage ns = [] := by
    rw [hleaf]
    exact skipped_leaf _ _
  have hc := (hn.scanned (.inl hleaf)).1
  rw [hscan] at hc
  have hspec := findNodeStartPoint_spec (r := false) false key.keyData
    (if validateDuplicates idx key then noValue else rec) hlay hn hj (.inl hleaf)
  rw [hscan, hskip] at hspec
  rcases hspec with ⟨hf, hall⟩ | ⟨pre, n, post, rfl, hf, hor⟩
  · refine ⟨.sibling, by rw [removeLeafNode, hf]; rfl, fun e he hof => ?_⟩
    exact (hall e he).2.ne hof.1
  rw [List.nil_append] at hf
  have hnc := (hc.append_right (by simp)).2
  have hpair := hnc.pairwise
  rw [prevKey_getD, Option.getD_none] at hpair
  have hlink (hl : n.isEndLevel = false) :
      n.prefixLen = lcp (lastKey [] pre) (nodeKey (lastKey [] pre) n) := by
    have h := (hnc.linked hl).1
    rwa [prevKey_getD, Option.getD_none] at h
  have hbefore : ∀ e ∈ decode [] pre, ¬ e.IsOf key.keyData rec := by
    intro e he hof
    rcases hor with ⟨hpasses, -⟩ | ⟨hfind, hl, hkey, hless⟩
    · obtain ⟨k, hk, hle⟩ := hc.atMost_prevKey (by simp) he
      exact ((hpasses k hk).of_atMost hle).ne hof.1
    · -- its record is not behind that of the node
      cases hvalidate : validateDuplicates idx key with
      | true =>
        rw [hvalidate, if_pos rfl] at hfind
        exact hfind rfl
      | false =>
        rw [hvalidate, if_neg Bool.false_ne_true] at hless
        have hordered := ho hvalidate
        rw [RecordsOrdered, decode_append, decode_cons] at hordered
        have hle := (List.pairwise_append.1 hordered).2.2 e he _ List.mem_cons_self hl hof.1 hkey
        rw [hof.2.1] at hle
        exact absurd hless (not_lt_of_ge hle)
  have hcheck (hl : n.isEndLevel = false) : AtMost idx.idxDescending key.keyData (nodeKey (lastKey [] pre) n) ∧
      n.prefixLen ≤ lcp (lastKey [] pre) key.keyData := by
    rcases hor with ⟨hpasses, hstop⟩ | ⟨-, -, hkey, -⟩
    · have hmost : AtMost idx.idxDescending key.keyData (nodeKey (lastKey [] pre) n) := fun hless =>
        hstop.resolve_left (by simp [hl]) ⟨hless, fun h => Bool.false_ne_true h.2.1⟩
      refine ⟨hmost, ?_⟩
      cases pre with
      | nil =>
        rw [hlink hl, lastKey_nil, lcp_nil_left]
        exact Nat.zero_le _
      | cons a pre => exact prefixLen_le (hpasses _ (by rw [prevKey_of_ne_nil none (by simp)]; rfl)) (hlink hl) hmost
    · rw [hlink hl, hkey]
      exact ⟨AtMost.refl _ _, le_rfl⟩
  have hfuel : post.length < page.btrLength + 1 := by
    have h := hlay.length_le
    rw [List.length_append, List.length_cons] at h
    omega
  refine ⟨_, by rw [removeLeafNode, hf]; rfl, ?_⟩
  dsimp only
  rw [hlay.readNode rfl]
  dsimp only
  refine Removal.Of.append (A := []) (C := pre) hbefore ?_
  rw [List.nil_append]
  by_cases hsame : n.isEndLevel = false ∧ nodeKey (lastKey [] pre) n = key.keyData
  · obtain ⟨hshared, hlength, hdata⟩ := check_of_nodeKey (hlink hsame.1) hsame.2
    rw [if_neg (by omega), if_neg (fun h => h.2 hdata)]
    exact removeLoop_spec hlay hc (.inr hsame.2) hfuel rfl
  · have hnot : ∀ e ∈ decode (lastKey [] pre) (n :: post), ¬ e.IsOf key.keyData rec := by
      refine not_isOf_behind hpair ?_
      cases hl : n.isEndLevel with
      | true => exact .inl hl
      | false => exact .inr ⟨fun hkey => hsame ⟨hl, hkey⟩, (hcheck hl).1⟩
    split_ifs with hshape hbytes
    · exact hnot
    · exact hnot
    · refine removeLoop_spec hlay hc (.inl ?_) hfuel rfl
      by_contra hl
      rw [Bool.not_eq_true] at hl
      refine hsame ⟨hl, nodeKey_of_check (hcheck hl).2 (by omega) ?_⟩
      by_cases hzero : n.length = 0
      · exact .inl hzero
      · exact .inr (by_contra fun hne => hbytes ⟨hzero, hne⟩)

end

end FirebirdCore.Btr
