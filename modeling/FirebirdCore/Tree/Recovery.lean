import FirebirdCore.Tree.SortedSet

/-!
# Adding when memory is low

`add` with allocations that throw. What was done up to then is undone with the help of a map that has
the place of the element that was added on each level. The items and the children come back to where
they were; but the new pages are freed without taking them off the rows that they were put into.
-/
namespace FirebirdCore.Tree
open FirebirdCore.LowerBound FirebirdCore.LinkedRow FirebirdCore.Run BePlusTree

/-- An entry of the recovery map, `none` for `MAP_NEW_PAGE`. -/
def mapEntry (pos count : ℕ) : Option ℕ := if pos = count then none else some pos

namespace BePlusTree

variable {V K : Type*} [Inhabited V]

/-- Recover the tree to innocent state. -/
def recover (recoveryMap : ℕ → Option ℕ) : ℕ → BePlusTree V → ℕ → BePlusTree V
  | 0, t, newNode =>
      match recoveryMap 0 with
      | none => t
      | some pos =>
          let prev := ((t.page 0).prev newNode).getD 0
          t.setItems prev ((t.items prev).eraseIdx pos ++ [(t.items newNode).getD 0 default])
  | curLevel + 1, t, newNode =>
      let L := t.page (curLevel + 1)
      let first := (L.children newNode).getD 0 0
      match recoveryMap (curLevel + 1) with
      | none => recover recoveryMap curLevel t first
      | some pos =>
          let prev := (L.prev newNode).getD 0
          let lower := (L.children prev).getD pos 0
          let t := t.setChildren (curLevel + 1) prev ((L.children prev).eraseIdx pos ++ [first])
          recover recoveryMap curLevel (t.setNodeParent curLevel first (some prev)) lower

variable [LinearOrder K] (C : Config V K)

/-- `addNode` with a number of allocations of which the next one throws. -/
def addNodeThrowing : ℕ → ℕ → BePlusTree V → ℕ → ℕ → Option ℕ → (ℕ → Option ℕ) →
    Except (BePlusTree V) (BePlusTree V)
  | 0, _, t, _, _, _, _ => .ok t
  | _ + 1, allocs, t, curLevel, newNode, none, recoveryMap =>
      if allocs = 0 then .error (t.recover recoveryMap curLevel newNode)
      else .ok (t.newRoot C newNode)
  | fuel + 1, allocs, t, curLevel, newNode, some nodeList, recoveryMap =>
      let h := curLevel + 1
      if ((t.page h).children nodeList).length < C.nodeCount then
        .ok ((t.setNodeParentAndLevel curLevel newNode nodeList).addChild C h nodeList newNode)
      else
        let key := t.generate C ((t.page h).nodeLevel nodeList) newNode
        let pos := (t.findNode C h nodeList key).2
        match t.withSpace C h ((t.page h).next nodeList) with
        | some list => .ok (t.spillNext C curLevel nodeList newNode pos list)
        | none =>
            match t.withSpace C h ((t.page h).prev nodeList) with
            | some list => .ok (t.spillPrev curLevel nodeList newNode pos list)
            | none =>
                if allocs = 0 then .error (t.recover recoveryMap curLevel newNode)
                else
                  let newList := t.fresh
                  let parent := (t.page h).parent nodeList
                  let t := (t.newAfter h nodeList).spillNext C curLevel nodeList newNode pos newList
                  addNodeThrowing fuel (allocs - 1) t h newList parent
                    (Function.update recoveryMap h (mapEntry pos C.nodeCount))

def addItemThrowing (allocs : ℕ) (t : BePlusTree V) (leaf pos : ℕ) (item : V) :
    Except (BePlusTree V) (BePlusTree V) :=
  let space := Option.filter fun temp => (t.items temp).length < C.leafCount
  if (t.items leaf).length < C.leafCount then .ok (t.setItems leaf (insertAt (t.items leaf) pos item))
  else
    match space ((t.page 0).next leaf) with
    | some temp => .ok (t.spillItemNext C leaf pos item temp)
    | none =>
        match space ((t.page 0).prev leaf) with
        | some temp => .ok (t.spillItemPrev leaf pos item temp)
        | none =>
            -- Nothing has been done yet, thus nothing is to be recovered.
            if allocs = 0 then .error t
            else
              let newLeaf := t.fresh
              let parent := (t.page 0).parent leaf
              let t := ((t.newAfter 0 leaf).setItems newLeaf []).spillItemNext C leaf pos item newLeaf
              t.addNodeThrowing C (t.level + 1) (allocs - 1) 0 newLeaf parent
                (Function.update (fun _ => none) 0 (mapEntry pos C.leafCount))

/-- `add` when this many allocations do not throw but the next one does. The error is the tree that is
left. -/
def addThrowing (allocs : ℕ) (t : BePlusTree V) (item : V) :
    Except (BePlusTree V) (BePlusTree V × Bool) :=
  if t.root = none ∧ allocs = 0 then .error t
  else
    let allocs := if t.root = none then allocs - 1 else allocs
    let t := match t.root with
      | some _ => t
      | none => { (t.newFirst 0).setItems t.fresh [] with root := some t.fresh }
    let leaf := t.findLeaf C (C.key item) t.level (t.root.getD 0)
    let r := t.findItem C leaf (C.key item)
    if r.1 then .ok ({ t with defaultAccessor := ⟨some leaf, r.2⟩ }, false)
    else (t.addItemThrowing C allocs leaf r.2 item).map fun t => (t, true)

end BePlusTree

/-! ## When nothing throws -/

section Ok
variable {V K : Type*} [Inhabited V] [LinearOrder K] {C : Config V K} {t t' : BePlusTree V}

theorem addNodeThrowing_ok {fuel allocs curLevel newNode : ℕ} {nodeList : Option ℕ}
    {recoveryMap : ℕ → Option ℕ}
    (h : t.addNodeThrowing C fuel allocs curLevel newNode nodeList recoveryMap = .ok t') :
    t' = t.addNode C fuel curLevel newNode nodeList := by
  induction fuel generalizing allocs t curLevel newNode nodeList recoveryMap with
  | zero =>
    rw [addNodeThrowing] at h
    exact (Except.ok.inj h).symm
  | succ fuel ih =>
    cases nodeList with
    | none =>
      rw [addNodeThrowing] at h
      split_ifs at h
      exact (Except.ok.inj h).symm
    | some nodeList =>
      rw [addNodeThrowing] at h
      rw [addNode]
      dsimp only at h ⊢
      by_cases hspace : ((t.page (curLevel + 1)).children nodeList).length < C.nodeCount
      · rw [if_pos hspace] at h ⊢
        exact (Except.ok.inj h).symm
      rw [if_neg hspace] at h ⊢
      cases hnext : t.withSpace C (curLevel + 1) ((t.page (curLevel + 1)).next nodeList) with
      | some list =>
        rw [hnext] at h
        exact (Except.ok.inj h).symm
      | none =>
        rw [hnext] at h
        dsimp only at h ⊢
        cases hprev : t.withSpace C (curLevel + 1) ((t.page (curLevel + 1)).prev nodeList) with
        | some list =>
          rw [hprev] at h
          exact (Except.ok.inj h).symm
        | none =>
          rw [hprev] at h
          dsimp only at h ⊢
          split_ifs at h
          exact ih h

theorem addItemThrowing_ok {allocs leaf pos : ℕ} {item : V}
    (h : t.addItemThrowing C allocs leaf pos item = .ok t') : t' = t.addItem C leaf pos item := by
  rw [addItemThrowing] at h
  rw [addItem]
  dsimp only at h ⊢
  by_cases hspace : (t.items leaf).length < C.leafCount
  · rw [if_pos hspace] at h ⊢
    exact (Except.ok.inj h).symm
  rw [if_neg hspace] at h ⊢
  cases hnext : ((t.page 0).next leaf).filter
      fun temp => decide ((t.items temp).length < C.leafCount) with
  | some temp =>
    rw [hnext] at h
    exact (Except.ok.inj h).symm
  | none =>
    rw [hnext] at h
    dsimp only at h ⊢
    cases hprev : ((t.page 0).prev leaf).filter
        fun temp => decide ((t.items temp).length < C.leafCount) with
    | some temp =>
      rw [hprev] at h
      exact (Except.ok.inj h).symm
    | none =>
      rw [hprev] at h
      dsimp only at h ⊢
      split_ifs at h
      exact addNodeThrowing_ok h

/-- An `add` that does not throw is `add`. -/
theorem addThrowing_ok {allocs : ℕ} {item : V} {r : BePlusTree V × Bool}
    (h : t.addThrowing C allocs item = .ok r) : r = t.add C item := by
  have hgo : ∀ (u : BePlusTree V) (allocs leaf pos : ℕ) (hit : Bool),
      (if hit then .ok ({ u with defaultAccessor := ⟨some leaf, pos⟩ }, false)
        else (u.addItemThrowing C allocs leaf pos item).map fun t => (t, true)) = Except.ok r →
      r = if hit then ({ u with defaultAccessor := ⟨some leaf, pos⟩ }, false)
        else (u.addItem C leaf pos item, true) := by
    intro u allocs leaf pos hit h
    cases hit with
    | true => exact (Except.ok.inj h).symm
    | false =>
      change (u.addItemThrowing C allocs leaf pos item).map (fun t => (t, true)) = .ok r at h
      cases hadd : u.addItemThrowing C allocs leaf pos item with
      | error t' =>
        rw [hadd] at h
        cases h
      | ok t' =>
        rw [hadd] at h
        rw [← addItemThrowing_ok hadd]
        exact (Except.ok.inj h).symm
  rw [addThrowing] at h
  rw [add]
  by_cases hfirst : t.root = none ∧ allocs = 0
  · rw [if_pos hfirst] at h
    cases h
  rw [if_neg hfirst] at h
  cases hroot : t.root with
  | none =>
    rw [hroot] at h
    exact hgo _ _ _ _ _ h
  | some root =>
    rw [hroot] at h
    exact hgo _ _ _ _ _ h

end Ok

/-! ## What the recovery restores -/

/-- Root, items, children and parents are as before on the pages that there were. -/
structure SameContents {V : Type*} (t t' : BePlusTree V) : Prop where
  root : t'.root = t.root
  level : t'.level = t.level
  defaultAccessor : t'.defaultAccessor = t.defaultAccessor
  items : ∀ i < t.fresh, t'.items i = t.items i
  children : ∀ h, ∀ i < t.fresh, (t'.page h).children i = (t.page h).children i
  parent : ∀ h, ∀ i < t.fresh, (t'.page h).parent i = (t.page h).parent i
  nodeLevel : ∀ h, ∀ i < t.fresh, (t'.page h).nodeLevel i = (t.page h).nodeLevel i

/-- The rows of all heights are linked as before. -/
structure SameLinks {V : Type*} (t t' : BePlusTree V) : Prop where
  next : ∀ h, ∀ i < t.fresh, (t'.page h).next i = (t.page h).next i
  prev : ∀ h, ∀ i < t.fresh, (t'.page h).prev i = (t.page h).prev i

/-- The tree is as before. -/
structure Restored {V : Type*} (t t' : BePlusTree V) : Prop extends SameContents t t', SameLinks t t'

/-- The tree `v` is as good as `s` for the recovery from the new page `n` of height `h`, and above it
is as the tree `t` was. -/
structure Alike {V : Type*} (t s v : BePlusTree V) (h n : ℕ) : Prop where
  root : v.root = t.root
  level : v.level = t.level
  defaultAccessor : v.defaultAccessor = t.defaultAccessor
  items : v.items = s.items
  below : ∀ k < h, v.page k = s.page k
  prev : (v.page h).prev = (s.page h).prev
  children : (v.page h).children = (s.page h).children
  parent : ∀ i ≠ n, (v.page h).parent i = (s.page h).parent i
  nodeLevel : ∀ i ≠ n, (v.page h).nodeLevel i = (s.page h).nodeLevel i
  above : ∀ k > h, ∀ i < t.fresh, (v.page k).children i = (t.page k).children i ∧
    (v.page k).parent i = (t.page k).parent i ∧ (v.page k).nodeLevel i = (t.page k).nodeLevel i

/-- The tree `s` is as `t` above the height `h`, where a new page has been made. -/
structure SameAbove {V : Type*} (t s : BePlusTree V) (h : ℕ) : Prop where
  root : s.root = t.root
  level : s.level = t.level
  defaultAccessor : s.defaultAccessor = t.defaultAccessor
  fresh : t.fresh ≤ s.fresh
  page : ∀ k > h, s.page k = t.page k

theorem SameAbove.alike {V : Type*} {t s : BePlusTree V} {h : ℕ} (hs : SameAbove t s h) (n : ℕ) :
    Alike t s s h n where
  root := hs.root
  level := hs.level
  defaultAccessor := hs.defaultAccessor
  items := rfl
  below _ _ := rfl
  prev := rfl
  children := rfl
  parent _ _ := rfl
  nodeLevel _ _ := rfl
  above k hk i _ := by
    rw [hs.page k hk]
    exact ⟨rfl, rfl, rfl⟩

section Recovers
variable {V K : Type*} [Inhabited V] {C : Config V K} {t s v : BePlusTree V} {h n x list : ℕ}
  {c d : List ℕ} {recoveryMap recoveryMap' : ℕ → Option ℕ}

/-- The recovery from the new page `n` of height `h` brings the contents of `t` back. -/
def Recovers (t s : BePlusTree V) (recoveryMap : ℕ → Option ℕ) (h n : ℕ) : Prop :=
  ∀ v, Alike t s v h n → SameContents t (v.recover recoveryMap h n)

/-- Entries for higher levels are not read. -/
theorem recover_congr (hmap : ∀ k ≤ h, recoveryMap' k = recoveryMap k) (v : BePlusTree V) (n : ℕ) :
    v.recover recoveryMap' h n = v.recover recoveryMap h n := by
  induction h generalizing v n with
  | zero => rw [recover, recover, hmap 0 le_rfl]
  | succ h ih =>
    have hlow := fun k (hk : k ≤ h) => hmap k (hk.trans (Nat.le_succ h))
    rw [recover, recover, hmap _ le_rfl]
    cases recoveryMap (h + 1) with
    | none => exact ih hlow _ _
    | some pos => exact ih hlow _ _

/-- A new leaf got the last one of the items and the new one. -/
theorem recovers_leaf {p : ℕ} {lo up : List V} (item : V) (hp : t.items p = lo ++ up)
    (hfull : (lo ++ up).length = C.leafCount) (hused : p < t.fresh) :
    Recovers t (((t.newAfter 0 p).setItems t.fresh []).spillItemNext C p lo.length item t.fresh)
      (Function.update (fun _ => none) 0 (mapEntry lo.length C.leafCount)) 0 t.fresh := by
  intro v hv
  obtain ⟨l, m, hl, heq⟩ := spillItemNext_eq (t := (t.newAfter 0 p).setItems t.fresh []) item hused.ne
    ((Function.update_of_ne hused.ne ..).trans hp) hfull
  have hself : (((t.newAfter 0 p).setItems t.fresh []).spillItemNext C p lo.length item t.fresh).page 0 =
      (t.page 0).insertAfter p t.fresh := by
    rw [heq]
    exact newAfter_page_self t 0 p
  have hitems : v.items = Function.update (Function.update t.items t.fresh [m]) p l := by
    rw [hv.items, heq]
    simp only [BePlusTree.setItems, Function.update_self, Function.update_idem]
    rfl
  -- all but the items
  have hrest : ∀ items : ℕ → List V, (∀ i < t.fresh, items i = t.items i) →
      SameContents t { v with items := items } := by
    intro items hitems
    refine ⟨hv.root, hv.level, hv.defaultAccessor, hitems, fun k i hi => ?_, fun k i hi => ?_,
      fun k i hi => ?_⟩
    all_goals
      rcases Nat.eq_zero_or_pos k with rfl | hk
    · show (v.page 0).children i = _
      rw [hv.children, hself]
      exact Function.update_of_ne hi.ne ..
    · exact (hv.above k hk i hi).1
    · show (v.page 0).parent i = _
      rw [hv.parent i hi.ne, hself]
      exact Function.update_of_ne hi.ne ..
    · exact (hv.above k hk i hi).2.1
    · show (v.page 0).nodeLevel i = _
      rw [hv.nodeLevel i hi.ne, hself]
      rfl
    · exact (hv.above k hk i hi).2.2
  have hprev : (v.page 0).prev t.fresh = some p := by
    rw [hv.prev, hself]
    exact Function.update_self ..
  rw [recover, Function.update_self, mapEntry, hprev]
  rcases List.eq_nil_or_concat' up with rfl | ⟨up, y, rfl⟩
  · rw [List.append_nil] at hfull hp
    rw [if_pos hfull]
    obtain ⟨rfl, -⟩ := List.append_inj' hl rfl
    refine hrest v.items fun i hi => ?_
    rw [hitems]
    by_cases hip : i = p
    · rw [hip, Function.update_self, hp]
    · rw [Function.update_of_ne hip, Function.update_of_ne hi.ne]
  · have hpos : lo.length ≠ C.leafCount := by
      rw [← hfull]
      simp only [List.length_append, List.length_singleton]
      omega
    rw [if_neg hpos]
    rw [← List.cons_append, ← List.append_assoc] at hl
    obtain ⟨rfl, hm⟩ := List.append_inj' hl rfl
    obtain rfl := List.head_eq_of_cons_eq hm
    have hself : v.items p = lo ++ item :: up := by
      rw [hitems]
      exact Function.update_self ..
    have hnew : v.items t.fresh = [m] := by
      rw [hitems]
      exact (Function.update_of_ne hused.ne' ..).trans (Function.update_self ..)
    have herase : (lo ++ item :: up).eraseIdx lo.length ++ [m] = t.items p := by
      rw [List.eraseIdx_append_of_length_le le_rfl, Nat.sub_self, List.eraseIdx_cons_zero,
        List.append_assoc, hp]
    refine hrest _ fun i hi => ?_
    dsimp only [Option.getD_some]
    rw [hself, hnew, List.getD_cons_zero, herase]
    by_cases hip : i = p
    · rw [hip, Function.update_self]
    · rw [Function.update_of_ne hip, hitems, Function.update_of_ne hip, Function.update_of_ne hi.ne]

omit [Inhabited V] in
/-- A page is split: of its children and the new page the last one goes to the page that is made. -/
theorem split_edit (hne : list ≠ s.fresh) (hchildren : (s.page (h + 1)).children list = c ++ x :: d)
    (hfull : (c ++ x :: d).length = C.nodeCount) (hn : n ∉ c ++ x :: d) :
    ∃ l m, l ++ [m] = c ++ x :: n :: d ∧
      Edit (s.newAfter (h + 1) list)
        ((s.newAfter (h + 1) list).spillNext C h list n (c.length + 1) s.fresh) h n
        (fun i => if i = m then some s.fresh else if i = n then some list else (s.page h).parent i)
        (Function.update (Function.update (s.page (h + 1)).children s.fresh [m]) list l) := by
  have hchildren' : ((s.newAfter (h + 1) list).page (h + 1)).children =
      Function.update (s.page (h + 1)).children s.fresh [] := by
    rw [newAfter_page_self]
    rfl
  obtain ⟨l, m, hl, e⟩ := spillNext_edit (t := s.newAfter (h + 1) list) (q := s.fresh) hne
    (by rw [hchildren', Function.update_of_ne hne, hchildren]) hfull hn
  rw [newAfter_page_of_ne s list (Nat.succ_ne_self h).symm, hchildren', Function.update_self,
    Function.update_idem] at e
  exact ⟨l, m, hl, e⟩

/-- One more page was split for the new page, and the next allocation is to throw. -/
theorem Recovers.split (hrec : Recovers t s recoveryMap h n) (hs : SameAbove t s h)
    (hne : list ≠ s.fresh)
    (hchildren : (s.page (h + 1)).children list = c ++ x :: d)
    (hfull : (c ++ x :: d).length = C.nodeCount) (hn : n ∉ c ++ x :: d)
    (hparent : ∀ i ∈ c ++ x :: d, (s.page h).parent i = some list) :
    Recovers t ((s.newAfter (h + 1) list).spillNext C h list n (c.length + 1) s.fresh)
      (Function.update recoveryMap (h + 1) (mapEntry (c.length + 1) C.nodeCount)) (h + 1) s.fresh := by
  obtain ⟨l, m, hl, e⟩ := split_edit hne hchildren hfull hn
  generalize (s.newAfter (h + 1) list).spillNext C h list n (c.length + 1) s.fresh = s' at e ⊢
  obtain ⟨nodeLevel, hlow, hother, -⟩ := e.low
  have hhigh := e.high
  rw [newAfter_page_of_ne s list (Nat.succ_ne_self h).symm] at hlow hother
  rw [newAfter_page_self] at hhigh
  have hitems : s'.items = s.items := by
    rw [e.same]
    rfl
  have hbelow : ∀ k < h, s'.page k = s.page k := fun k hk => by
    rw [e.page k (by omega) (by omega), newAfter_page_of_ne s list (by omega)]
  intro v hv
  have hself := hv.below h (Nat.lt_succ_self h)
  have hmap : ∀ entry, ∀ k ≤ h, Function.update recoveryMap (h + 1) entry k = recoveryMap k :=
    fun _ k hk => Function.update_of_ne (by omega) ..
  have hprev : (v.page (h + 1)).prev s.fresh = some list := by
    rw [hv.prev, hhigh]
    exact Function.update_self ..
  have hnew : (v.page (h + 1)).children s.fresh = [m] := by
    rw [hv.children, hhigh]
    exact (Function.update_of_ne hne.symm ..).trans (Function.update_self ..)
  have hold : (v.page (h + 1)).children list = l := by
    rw [hv.children, hhigh]
    exact Function.update_self ..
  -- the pages above are as before if the children of the page that was split are
  have hup : ∀ u : BePlusTree V, (∀ k > h + 1, u.page k = v.page k) →
      (u.page (h + 1)).parent = (v.page (h + 1)).parent →
      (u.page (h + 1)).nodeLevel = (v.page (h + 1)).nodeLevel →
      (u.page (h + 1)).children list = c ++ x :: d →
      (∀ i ≠ list, (u.page (h + 1)).children i = (v.page (h + 1)).children i) →
      ∀ k > h, ∀ i < t.fresh, (u.page k).children i = (t.page k).children i ∧
        (u.page k).parent i = (t.page k).parent i ∧ (u.page k).nodeLevel i = (t.page k).nodeLevel i := by
    intro u hpage hparent hlevel hlist hrest k hk i hi
    rcases (Nat.succ_le_of_lt hk).eq_or_lt with rfl | hk'
    · have his : i ≠ s.fresh := (hi.trans_le hs.fresh).ne
      refine ⟨?_, ?_, ?_⟩
      · by_cases hil : i = list
        · rw [hil, hlist, ← hs.page _ hk, hchildren]
        · rw [hrest i hil, hv.children, hhigh, ← hs.page _ hk]
          exact (Function.update_of_ne hil ..).trans (Function.update_of_ne his ..)
      · rw [hparent, hv.parent i his, hhigh, ← hs.page _ hk]
        exact Function.update_of_ne his ..
      · rw [hlevel, hv.nodeLevel i his, hhigh, ← hs.page _ hk]
        rfl
    · rw [hpage k hk']
      exact hv.above k hk' i hi
  rw [recover, Function.update_self, mapEntry, hprev, hnew, List.getD_cons_zero]
  rcases List.eq_nil_or_concat' d with rfl | ⟨d, y, rfl⟩
  · have hpos : c.length + 1 = C.nodeCount := by
      rw [← hfull, List.length_append]
      rfl
    have hsplit : l ++ [m] = (c ++ [x]) ++ [n] := by
      rw [hl, List.append_assoc]
      rfl
    obtain ⟨rfl, hm⟩ := List.append_inj' hsplit rfl
    obtain rfl := List.head_eq_of_cons_eq hm
    rw [if_pos hpos]
    dsimp only
    rw [recover_congr (hmap _)]
    refine hrec v ⟨hv.root, hv.level, hv.defaultAccessor, hv.items.trans hitems, fun k hk => ?_, ?_, ?_,
      fun i hi => ?_, fun i hi => ?_,
      hup v (fun _ _ => rfl) rfl rfl hold fun _ _ => rfl⟩
    · exact (hv.below k (hk.trans (Nat.lt_succ_self h))).trans (hbelow k hk)
    · rw [hself, hlow]
    · rw [hself, hlow]
    · rw [hself, hlow]
      dsimp only
      rw [if_neg hi, if_neg hi]
    · rw [hself, hlow]
      exact hother i hi
  · have hpos : c.length + 1 ≠ C.nodeCount := by
      rw [← hfull, List.length_append, List.length_cons, List.length_append, List.length_singleton]
      omega
    have hsplit : l ++ [m] = (c ++ x :: n :: d) ++ [y] := by
      rw [hl, List.append_assoc]
      rfl
    obtain ⟨rfl, hm⟩ := List.append_inj' hsplit rfl
    obtain rfl := List.head_eq_of_cons_eq hm
    have hlower : (c ++ x :: n :: d).getD (c.length + 1) 0 = n := by
      rw [List.append_cons, ← List.length_singleton (a := x), ← List.length_append, getD_append_cons]
    have herase : (c ++ x :: n :: d).eraseIdx (c.length + 1) ++ [m] = c ++ x :: (d ++ [m]) := by
      rw [List.eraseIdx_append_of_length_le (Nat.le_add_right c.length 1), Nat.add_sub_cancel_left,
        List.eraseIdx_cons_succ, List.eraseIdx_cons_zero, List.append_assoc, List.cons_append]
    rw [if_neg hpos]
    dsimp only
    rw [Option.getD_some, hold, hlower, herase, recover_congr (hmap _)]
    have hlt : h ≠ h + 1 := (Nat.succ_ne_self h).symm
    have hpage : ∀ k ≠ h, k ≠ h + 1 → ((v.setChildren (h + 1) list (c ++ x :: (d ++ [m]))).setNodeParent h m
        (some list)).page k = v.page k := fun k hk hk' => by
      rw [setNodeParent, onLevel_page_of_ne _ _ hk, setChildren, onLevel_page_of_ne _ _ hk']
    have hpageLow : ((v.setChildren (h + 1) list (c ++ x :: (d ++ [m]))).setNodeParent h m
        (some list)).page h = (v.page h).setParent m (some list) := by
      rw [setNodeParent, onLevel_page_self, setChildren, onLevel_page_of_ne _ _ hlt]
    have hpageHigh : ((v.setChildren (h + 1) list (c ++ x :: (d ++ [m]))).setNodeParent h m
        (some list)).page (h + 1) = (v.page (h + 1)).setChildren list (c ++ x :: (d ++ [m])) := by
      rw [setNodeParent, onLevel_page_of_ne _ _ hlt.symm, setChildren, onLevel_page_self]
    refine hrec _ ⟨hv.root, hv.level, hv.defaultAccessor, hv.items.trans hitems, fun k hk => ?_, ?_, ?_,
      fun i hi => ?_, fun i hi => ?_, hup _ (fun k hk => hpage k (by omega) (by omega)) ?_ ?_ ?_
      fun i hi => ?_⟩
    · rw [hpage k (by omega) (by omega)]
      exact (hv.below k (hk.trans (Nat.lt_succ_self h))).trans (hbelow k hk)
    · rw [hpageLow, hself, hlow]
      rfl
    · rw [hpageLow, hself, hlow]
      rfl
    · rw [hpageLow, hself, hlow]
      by_cases him : i = m
      · rw [him, hparent m (by simp)]
        exact Function.update_self ..
      · refine (Function.update_of_ne him ..).trans ?_
        dsimp only
        rw [if_neg him, if_neg hi]
    · rw [hpageLow, hself, hlow]
      exact hother i hi
    · rw [hpageHigh]
      rfl
    · rw [hpageHigh]
      rfl
    · rw [hpageHigh]
      exact Function.update_self ..
    · rw [hpageHigh]
      exact Function.update_of_ne hi ..

end Recovers

/-! ## The rows -/

section Links
variable {V K : Type*} {C : Config V K} {s t' : BePlusTree V} {f : Level → Level} {h n : ℕ}
  {recoveryMap : ℕ → Option ℕ}

theorem onLevel_next (t : BePlusTree V) (h : ℕ) (hf : ∀ L, (f L).next = L.next) (k : ℕ) :
    ((t.onLevel h f).page k).next = (t.page k).next := by
  by_cases hk : k = h
  · rw [hk, onLevel_page_self, hf]
  · rw [onLevel_page_of_ne _ _ hk]

theorem setNodeParent_next (t : BePlusTree V) (h i : ℕ) (parent : Option ℕ) (k : ℕ) :
    ((t.setNodeParent h i parent).page k).next = (t.page k).next := by
  rw [setNodeParent, onLevel_next]
  intro
  rfl

theorem setNodeParentAndLevel_next (t : BePlusTree V) (h i parent k : ℕ) :
    ((t.setNodeParentAndLevel h i parent).page k).next = (t.page k).next := by
  rw [setNodeParentAndLevel_eq]
  refine onLevel_next t h (fun L => ?_) k
  obtain ⟨nodeLevel, hadopt, -⟩ := L.adopt_eq h i parent
  rw [hadopt]

theorem setChildren_next (t : BePlusTree V) (h i : ℕ) (children : List ℕ) (k : ℕ) :
    ((t.setChildren h i children).page k).next = (t.page k).next := by
  rw [setChildren, onLevel_next]
  intro
  rfl

theorem spillNext_next (t : BePlusTree V) (curLevel nodeList newNode pos list k : ℕ) :
    ((t.spillNext C curLevel nodeList newNode pos list).page k).next = (t.page k).next := by
  rw [spillNext]
  dsimp only
  split_ifs
  · rw [setChildren_next, setNodeParentAndLevel_next]
  · rw [setChildren_next, setNodeParentAndLevel_next, setChildren_next, setNodeParent_next]

variable [Inhabited V]

theorem recover_next (t : BePlusTree V) (n k : ℕ) :
    ((t.recover recoveryMap h n).page k).next = (t.page k).next := by
  induction h generalizing t n with
  | zero =>
    rw [recover]
    split <;> rfl
  | succ h ih =>
    rw [recover]
    dsimp only
    split
    · exact ih _ _
    · rw [ih, setNodeParent_next, setChildren_next]

variable [LinearOrder K]

/-- The row of the new page and those below are left as they are. -/
theorem addNodeThrowing_next {fuel allocs : ℕ} {nodeList : Option ℕ}
    (hthrows : s.addNodeThrowing C fuel allocs h n nodeList recoveryMap = .error t') {k : ℕ} (hk : k ≤ h) :
    (t'.page k).next = (s.page k).next := by
  induction fuel generalizing s h n allocs nodeList recoveryMap with
  | zero =>
    rw [addNodeThrowing] at hthrows
    cases hthrows
  | succ fuel ih =>
    cases nodeList with
    | none =>
      rw [addNodeThrowing] at hthrows
      split_ifs at hthrows
      rw [← Except.error.inj hthrows, recover_next]
    | some nodeList =>
      rw [addNodeThrowing] at hthrows
      dsimp only at hthrows
      split_ifs at hthrows with hspace hallocs
      · split at hthrows
        · cases hthrows
        split at hthrows
        · cases hthrows
        rw [← Except.error.inj hthrows, recover_next]
      · split at hthrows
        · cases hthrows
        split at hthrows
        · cases hthrows
        rw [ih hthrows (hk.trans (Nat.le_succ h)), spillNext_next, newAfter_page_of_ne _ _ (by omega)]

end Links

section Throws
variable {V K : Type*} [Inhabited V] [LinearOrder K] {C : Config V K} {t s t' : BePlusTree V}
  {h n x : ℕ} {a b : List ℕ} {rows : List (List ℕ)} {recoveryMap : ℕ → Option ℕ}

/-- Wherever the cascade is stopped, what was there before is recovered. -/
theorem addNodeThrowing_recovers {fuel allocs : ℕ} (hfuel : rows.length < fuel)
    (hrow : (a ++ x :: b).Nodup) (hn : n ∉ a ++ x :: b)
    (habove : Above C.nodeCount s h (a ++ x :: b) rows) (hordered : Ordered C s h (a ++ x :: n :: b))
    (hs : SameAbove t s h) (hrec : Recovers t s recoveryMap h n)
    (hthrows : s.addNodeThrowing C fuel allocs h n ((s.page h).parent x) recoveryMap = .error t') :
    SameContents t t' := by
  induction rows generalizing s h a x n b fuel allocs recoveryMap with
  | nil =>
    obtain ⟨fuel, rfl⟩ := Nat.exists_eq_succ_of_ne_zero (Nat.ne_of_gt (Nat.zero_lt_of_lt hfuel))
    obtain ⟨r, hr, -, -, hnone⟩ := habove
    have hx : x = r := List.mem_singleton.1 (hr ▸ List.mem_append_right a List.mem_cons_self)
    rw [hx, hnone, addNodeThrowing] at hthrows
    split_ifs at hthrows
    rw [← Except.error.inj hthrows]
    exact hrec s (hs.alike n)
  | cons row' rows ih =>
    obtain ⟨fuel, rfl⟩ := Nat.exists_eq_succ_of_ne_zero (Nat.ne_of_gt (Nat.zero_lt_of_lt hfuel))
    obtain ⟨hlayer, hrows⟩ := habove
    obtain ⟨a', list, b', c, d, rfl, hlist, ha, hb, hx⟩ := hlayer.nested.locate hrow
    have hmem : list ∈ a' ++ list :: b' := List.mem_append_right _ List.mem_cons_self
    rw [hx, addNodeThrowing] at hthrows
    dsimp only at hthrows
    by_cases hspace : ((s.page (h + 1)).children list).length < C.nodeCount
    · rw [if_pos hspace] at hthrows
      cases hthrows
    have hfull : (c ++ x :: d).length = C.nodeCount := by
      rw [← hlist]
      exact le_antisymm (hlayer.sizes.full list hmem).2 (not_lt.1 hspace)
    have hpos : (s.findNode C (h + 1) list (s.generate C ((s.page (h + 1)).nodeLevel list) n)).2 =
        c.length + 1 := by
      rw [findNode, hlayer.nodeLevel list hmem, hlist]
      exact Ordered.find_new (hordered.sublist (children_sublist [x, n] ha hb))
    obtain ⟨-, hnext⟩ := linked_middle hlayer.row.linked
    rw [if_neg hspace, hpos] at hthrows
    rcases withSpace_cases C s (h + 1) ((s.page (h + 1)).next list) with
      ⟨q, -, -, hwith⟩ | ⟨hnextFull, hwith⟩
    · rw [hwith] at hthrows
      cases hthrows
    rw [hwith] at hthrows
    dsimp only at hthrows
    rcases withSpace_cases C s (h + 1) ((s.page (h + 1)).prev list) with ⟨q, -, -, hwith⟩ | ⟨-, hwith⟩
    · rw [hwith] at hthrows
      cases hthrows
    rw [hwith] at hthrows
    dsimp only at hthrows
    by_cases hallocs : allocs = 0
    · rw [if_pos hallocs] at hthrows
      rw [← Except.error.inj hthrows]
      exact hrec s (hs.alike n)
    rw [if_neg hallocs] at hthrows
    have hnext' : ∀ i ∈ b'.head?, ((s.page (h + 1)).children i).length = C.nodeCount := fun i hi =>
      le_antisymm (hlayer.sizes.full i (List.mem_append_right _ (List.mem_cons_of_mem _
        (List.mem_of_head? hi)))).2 (hnextFull i (hnext.trans hi))
    have hsplit := split_page hlayer hn hrow hlist ha hb hfull hnext'
    have hrec' := hrec.split hs (hlayer.row.used list hmem).ne hlist hfull (notMem_children hn ha hb)
      fun i hi => hlayer.nested.parent list hmem i (hlist ▸ hi)
    rw [Ordered, ← hsplit.kept.generate, ← Ordered, ← hsplit.nested.flat] at hordered
    have hup := hordered.up fun i hi => (hsplit.sizes.full i hi).1
    rw [← hsplit.parent list hmem] at hthrows
    refine ih (Nat.lt_of_succ_lt_succ hfuel) hlayer.row.nodup (fun h => lt_irrefl _ (hlayer.row.used _ h))
      (hrows.congr hsplit.root hsplit.level hsplit.kept.fresh hsplit.parent hsplit.page) hup
      ⟨?_, ?_, ?_, ?_, fun k hk => ?_⟩ hrec' hthrows
    · exact hsplit.root.trans hs.root
    · exact hsplit.level.trans hs.level
    · exact hsplit.kept.defaultAccessor.trans hs.defaultAccessor
    · exact hs.fresh.trans hsplit.kept.fresh
    · exact (hsplit.page k hk).trans (hs.page k ((Nat.lt_succ_self h).trans hk))

/-! ## Adding -/

variable {row front back : List ℕ} {p : ℕ} {lo up xs : List V} {item : V} {allocs : ℕ}

omit [Inhabited V] in
theorem restored_self (t : BePlusTree V) : Restored t t where
  root := rfl
  level := rfl
  defaultAccessor := rfl
  items _ _ := rfl
  children _ _ _ := rfl
  parent _ _ _ := rfl
  nodeLevel _ _ _ := rfl
  next _ _ _ := rfl
  prev _ _ _ := rfl

omit [Inhabited V] in
/-- The new leaf is freed, but it still follows the leaf that was split. -/
theorem not_sameLinks (hleaves : Row (t.page 0) t.fresh (front ++ p :: back))
    (hlink : (t'.page 0).next p = some t.fresh) : ¬ SameLinks t t' := by
  intro hsame
  have hnext := hsame.next 0 p (hleaves.used p (List.mem_append_right _ List.mem_cons_self))
  obtain ⟨-, hback⟩ := linked_middle hleaves.linked
  rw [hlink, hback] at hnext
  have hmem := List.mem_append_right front (List.mem_cons_of_mem p (List.mem_of_head? hnext.symm))
  exact lt_irrefl _ (hleaves.used _ hmem)

/-- Adding to a leaf either throws at once, or the leaf was split before. -/
theorem Built.addItemThrowing (hb : Built C t (front ++ p :: back) xs) (hp : t.items p = lo ++ up)
    (hsorted : Sorted C (front.flatMap t.items ++ lo ++ item :: (up ++ back.flatMap t.items)))
    (hthrows : t.addItemThrowing C allocs p lo.length item = .error t') :
    SameContents t t' ∧ (Restored t t' ↔ allocs = 0) := by
  have hmem : p ∈ front ++ p :: back := List.mem_append_right _ List.mem_cons_self
  rw [BePlusTree.addItemThrowing] at hthrows
  dsimp only at hthrows
  by_cases hspace : (t.items p).length < C.leafCount
  · rw [if_pos hspace] at hthrows
    cases hthrows
  rw [if_neg hspace] at hthrows
  have hfull : (lo ++ up).length = C.leafCount := by
    rw [← hp]
    exact le_antisymm (hb.count p hmem) (not_lt.1 hspace)
  split at hthrows
  · cases hthrows
  split at hthrows
  · cases hthrows
  by_cases hallocs : allocs = 0
  · rw [if_pos hallocs] at hthrows
    rw [← Except.error.inj hthrows]
    exact ⟨(restored_self t).toSameContents, fun _ => hallocs, fun _ => restored_self t⟩
  rw [if_neg hallocs] at hthrows
  have hrec := recovers_leaf item hp hfull (hb.leaves.used p hmem)
  have hsplit := hb.split_leaf item hp hfull
  generalize ((t.newAfter 0 p).setItems t.fresh []).spillItemNext C p lo.length item t.fresh = t₁
    at hthrows hrec hsplit
  obtain ⟨rows, habove⟩ := hb.above
  have hfuel : rows.length < t₁.level + 1 := by
    rw [hsplit.level, habove.level]
    omega
  rw [← hsplit.parent hb.leaves p hmem] at hthrows
  have hlink : (t'.page 0).next p = some t.fresh := by
    rw [addNodeThrowing_next hthrows le_rfl, hsplit.self]
    exact Function.update_self ..
  refine ⟨?_, fun hrestored => ?_, fun h => absurd h hallocs⟩
  · refine addNodeThrowing_recovers hfuel hb.leaves.nodup (fun hmem => lt_irrefl _ (hb.leaves.used _ hmem))
      (hsplit.above hb.leaves habove) (hsplit.ordered hsorted)
      ⟨hsplit.root, hsplit.level, hsplit.defaultAccessor, ?_, hsplit.page⟩ hrec hthrows
    rw [hsplit.fresh]
    exact Nat.le_succ _
  · exact absurd hrestored.toSameLinks (not_sameLinks hb.leaves hlink)

/-- The first item of a tree is added to a new leaf. -/
theorem addThrowing_new (hroot : t.root = none) : t.addThrowing C (allocs + 1) item =
    BePlusTree.addThrowing C allocs { (t.newFirst 0).setItems t.fresh [] with root := some t.fresh }
      item := by
  have hfirst : ¬ (some t.fresh = none ∧ allocs = 0) := fun h => Option.some_ne_none _ h.1
  rw [BePlusTree.addThrowing, if_neg (fun h => Nat.succ_ne_zero _ h.2), if_pos hroot, hroot]
  symm
  rw [BePlusTree.addThrowing, if_neg hfirst, if_neg (Option.some_ne_none t.fresh)]
  rfl

/-- The search comes to a leaf, and adding the item there throws. -/
theorem Built.addThrowing (hb : Built C t row xs) (hthrows : t.addThrowing C allocs item = .error t') :
    ∃ front p back lo up, row = front ++ p :: back ∧ t.items p = lo ++ up ∧
      Sorted C (front.flatMap t.items ++ lo ++ item :: (up ++ back.flatMap t.items)) ∧
      t.addItemThrowing C allocs p lo.length item = .error t' := by
  obtain ⟨r, p, front, back, lo, up, hroot, hfind, hp⟩ := hb.place (C.key item)
  obtain rfl := hp.row
  have hitems := hb.items
  rw [List.flatMap_append, List.flatMap_cons, hp.items] at hitems
  have hsorted : Sorted C (front.flatMap t.items ++ lo ++ (up ++ back.flatMap t.items)) := by
    have hsorted := hb.sorted
    rw [← hitems] at hsorted
    simpa only [List.append_assoc] using hsorted
  have hsome : t.root ≠ none := hroot ▸ Option.some_ne_none r
  rw [BePlusTree.addThrowing, if_neg (fun h => hsome h.1), if_neg hsome, hroot] at hthrows
  dsimp only at hthrows
  rw [hroot, Option.getD_some, hfind] at hthrows
  by_cases hhit : (t.findItem C p (C.key item)).1 = true
  · rw [if_pos hhit] at hthrows
    cases hthrows
  rw [if_neg hhit, hp.find] at hthrows
  refine ⟨front, p, back, lo, up, rfl, hp.items,
    hsorted.insert hp.parted fun h => hhit (hp.hit.2 h), ?_⟩
  cases hadd : t.addItemThrowing C allocs p lo.length item with
  | ok t₁ =>
    rw [hadd] at hthrows
    cases hthrows
  | error t₁ =>
    rw [hadd] at hthrows
    cases hthrows
    rfl

/-- If an allocation throws then the contents of the tree are as before; but the tree as a whole only is
if it was the first allocation. -/
theorem add_restored_iff (hholds : Holds C t xs) (hthrows : t.addThrowing C allocs item = .error t') :
    SameContents t t' ∧ (Restored t t' ↔ allocs = 0) := by
  cases hholds with
  | built row hb hvalid =>
    obtain ⟨front, p, back, lo, up, rfl, hp, hsorted, hitem⟩ := hb.addThrowing hthrows
    exact hb.addItemThrowing hp hsorted hitem
  | new hroot hlevel hcurr hxs =>
    cases allocs with
    | zero =>
      rw [addThrowing, if_pos ⟨hroot, rfl⟩] at hthrows
      rw [← Except.error.inj hthrows]
      exact ⟨(restored_self t).toSameContents, fun _ => rfl, fun _ => restored_self t⟩
    | succ allocs =>
      -- there is room in the first leaf
      have hb := built_first (C := C) hlevel
      rw [addThrowing_new hroot] at hthrows
      obtain ⟨front, p, back, lo, up, hrow, hp, -, hitem⟩ := hb.addThrowing hthrows
      obtain ⟨rfl, rfl, rfl⟩ := eq_of_append_cons hrow.symm
      have hitems := hb.items
      rw [List.flatMap_singleton] at hitems
      rw [BePlusTree.addItemThrowing] at hitem
      dsimp only at hitem hitems
      rw [hitems, List.length_nil, if_pos C.leafCount_pos] at hitem
      cases hitem

/-- After any operations on a new tree, `add` leaves its contents as they were if an allocation throws.
The links of the pages are as they were if and only if nothing had been allocated before. -/
theorem add_restored_along (C : Config V K) (ops : List (Op V K))
    (hops : AlongRun (Op.step C) (fun t op => op.Allowed t) empty ops)
    (hthrows : (run (Op.step C) empty ops).addThrowing C allocs item = .error t') :
    SameContents (run (Op.step C) empty ops) t' ∧
      (Restored (run (Op.step C) empty ops) t' ↔ allocs = 0) := by
  obtain ⟨xs, hxs⟩ := holds_along C ops hops
  exact add_restored_iff hxs hthrows

end Throws

/-- The leaf is full. -/
def fullOps : List (Op ℕ ℕ) := [.add 1, .add 5]

/-- There is memory for the new leaf, but not for the new root. -/
theorem full_throws : ∃ t', (run (Op.step small) empty fullOps).addThrowing small 1 3 = .error t' ∧
    SameContents (run (Op.step small) empty fullOps) t' ∧
    (Restored (run (Op.step small) empty fullOps) t' ↔ 1 = 0) := by
  have hops : AlongRun (Op.step small) (fun t op => op.Allowed t) empty fullOps := by decide +kernel
  have hthrows : ∃ t', (run (Op.step small) empty fullOps).addThrowing small 1 3 = .error t' := ⟨_, rfl⟩
  obtain ⟨t', hthrows⟩ := hthrows
  exact ⟨t', hthrows, add_restored_along small fullOps hops hthrows⟩

/-- The only leaf is followed by the leaf that was freed. -/
theorem full_notRestored : ∃ t', (run (Op.step small) empty fullOps).addThrowing small 1 3 = .error t' ∧
    ((run (Op.step small) empty fullOps).page 0).next 0 = none ∧ (t'.page 0).next 0 = some 1 ∧
    (run (Op.step small) empty fullOps).fresh = 1 ∧
    ¬ Restored (run (Op.step small) empty fullOps) t' := by
  refine ⟨_, rfl, by decide +kernel, by decide +kernel, by decide +kernel, fun h => ?_⟩
  exact absurd (h.next 0 0 (by decide +kernel)) (by decide +kernel)

end FirebirdCore.Tree
