import FirebirdCore.Tree.Search

/-!
# Adding an item

The item comes to its place in the order of the keys. The items of the leaf and of a neighbour may
move, or there is a new leaf behind this one.
-/
namespace FirebirdCore.Tree
open FirebirdCore.LowerBound FirebirdCore.LinkedRow BePlusTree

variable {V K : Type*} {C : Config V K} {t : BePlusTree V} {row front back : List ℕ} {p q : ℕ}
  {lo up xs ys : List V} {item : V}

/-- Of the items and the new one the last one goes to the front of the leaf `q`. -/
theorem spillItemNext_eq [Inhabited V] (item : V) (hne : p ≠ q) (hp : t.items p = lo ++ up)
    (hfull : (lo ++ up).length = C.leafCount) :
    ∃ l m, l ++ [m] = lo ++ item :: up ∧ t.spillItemNext C p lo.length item q = { t with
      items := Function.update (Function.update t.items q (m :: t.items q)) p l } := by
  rw [spillItemNext]
  dsimp only
  rw [hp]
  rcases List.eq_nil_or_concat' up with rfl | ⟨up, y, rfl⟩
  · have hkept : Function.update (Function.update t.items q (item :: t.items q)) p (lo ++ []) =
        Function.update t.items q (item :: t.items q) := by
      rw [← hp, Function.update_comm hne.symm, Function.update_eq_self]
    rw [List.append_nil] at hfull
    refine ⟨lo ++ [], item, by rw [List.append_nil], ?_⟩
    rw [if_pos hfull, hkept]
    rfl
  · have hlength : C.leafCount - 1 = (lo ++ up).length := by
      rw [← hfull, ← List.append_assoc, List.length_append, List.length_singleton, Nat.add_sub_cancel]
    have hpos : lo.length ≠ C.leafCount := by
      rw [← hfull, List.length_append, List.length_append, List.length_singleton]
      omega
    refine ⟨lo ++ item :: up, y, by rw [List.append_assoc]; rfl, ?_⟩
    rw [if_neg hpos, hlength, ← List.append_assoc, getD_concat, List.take_left, insertAt_append]
    rfl

/-- Of the items and the new one the first one goes to the end of the leaf `q`. -/
theorem spillItemPrev_eq [Inhabited V] (item : V) (hne : p ≠ q) (hp : t.items p = lo ++ up) :
    ∃ l m, m :: l = lo ++ item :: up ∧ t.spillItemPrev p lo.length item q = { t with
      items := Function.update (Function.update t.items q (t.items q ++ [m])) p l } := by
  rw [spillItemPrev]
  dsimp only
  rw [hp]
  cases lo with
  | nil =>
    have hkept : Function.update (Function.update t.items q (t.items q ++ [item])) p ([] ++ up) =
        Function.update t.items q (t.items q ++ [item]) := by
      rw [← hp, Function.update_comm hne.symm, Function.update_eq_self]
    refine ⟨[] ++ up, item, rfl, ?_⟩
    rw [if_pos List.length_nil, hkept]
    rfl
  | cons y lo =>
    refine ⟨lo ++ item :: up, y, rfl, ?_⟩
    rw [List.length_cons, if_neg (Nat.succ_ne_zero _), List.cons_append, List.eraseIdx_cons_zero,
      Nat.add_sub_cancel, insertAt_append]
    rfl

variable [LinearOrder K]

theorem Sorted.insert (hsorted : Sorted C (lo ++ up)) (hparted : Parted C (C.key item) lo up)
    (hmiss : ¬ Hit C (C.key item) up) : Sorted C (lo ++ item :: up) := by
  obtain ⟨hlo, hup, hacross⟩ := List.pairwise_append.1 hsorted
  have hgreater := forall_lt_of_head_ne hup hparted.2 fun x hx hkey => hmiss ⟨x, hx, hkey⟩
  refine List.pairwise_append.2 ⟨hlo, List.pairwise_cons.2 ⟨hgreater, hup⟩, fun x hx => ?_⟩
  exact List.forall_mem_cons.2 ⟨hparted.1 x hx, hacross x hx⟩

/-- The items move within the leaves. -/
theorem Built.of_items (hb : Built C t row xs) {items : ℕ → List V} (hitems : row.flatMap items = ys)
    (hsorted : Sorted C ys) (hcount : ∀ i ∈ row, (items i).length ≤ C.leafCount)
    (hfilled : t.level ≠ 0 → ∀ i ∈ row, items i ≠ []) : Built C { t with items := items } row ys where
  leaves := hb.leaves
  above := by
    obtain ⟨rows, habove⟩ := hb.above
    exact ⟨rows, habove.congr rfl rfl le_rfl (fun _ _ => rfl) fun _ _ => rfl⟩
  items := hitems
  sorted := hsorted
  count := hcount
  filled := hfilled

/-- The tree after an item was added: the leaves are still there, with as many items or more. -/
structure Added (C : Config V K) (t t' : BePlusTree V) (row : List ℕ) (xs : List V) : Prop where
  built : ∃ row', Built C t' row' xs ∧ ∀ i ∈ row, i ∈ row'
  defaultAccessor : t'.defaultAccessor = t.defaultAccessor
  length : ∀ i ∈ row, (t.items i).length ≤ (t'.items i).length

/-- The items were moved within the leaves. -/
theorem Built.added (hb : Built C t row xs) {items : ℕ → List V} (hitems : row.flatMap items = ys)
    (hsorted : Sorted C ys) (hcount : ∀ i ∈ row, (items i).length ≤ C.leafCount)
    (hlength : ∀ i ∈ row, (t.items i).length ≤ (items i).length) :
    Added C t { t with items := items } row ys where
  built := by
    refine ⟨row, hb.of_items hitems hsorted hcount fun hlevel i hi => ?_, fun _ hi => hi⟩
    have hpos := List.length_pos_iff.2 (hb.filled hlevel i hi)
    exact List.length_pos_iff.1 (hpos.trans_le (hlength i hi))
  defaultAccessor := rfl
  length := hlength

/-- There is a new leaf `t.fresh` behind the leaf `p`. -/
structure LeafSplit (t t' : BePlusTree V) (p : ℕ) (row row' : List ℕ) (xs : List V) : Prop where
  root : t'.root = t.root
  level : t'.level = t.level
  defaultAccessor : t'.defaultAccessor = t.defaultAccessor
  fresh : t'.fresh = t.fresh + 1
  self : t'.page 0 = (t.page 0).insertAfter p t.fresh
  page : ∀ k > 0, t'.page k = t.page k
  length : ∀ i ∈ row, (t'.items i).length = (t.items i).length
  new : (t'.items t.fresh).length = 1
  items : row'.flatMap t'.items = xs
  filled : ∀ i ∈ row', t'.items i ≠ []

section LeafSplit
variable {t' : BePlusTree V} {row' : List ℕ}

theorem LeafSplit.parent (hsplit : LeafSplit t t' p row row' xs) (hleaves : Row (t.page 0) t.fresh row) :
    ∀ i ∈ row, (t'.page 0).parent i = (t.page 0).parent i := by
  intro i hi
  rw [hsplit.self]
  exact Function.update_of_ne (hleaves.used i hi).ne ..

theorem LeafSplit.above {nodeCount : ℕ} {rows : List (List ℕ)} (hsplit : LeafSplit t t' p row row' xs)
    (hleaves : Row (t.page 0) t.fresh row) (habove : Above nodeCount t 0 row rows) :
    Above nodeCount t' 0 row rows := by
  refine habove.congr hsplit.root hsplit.level ?_ (hsplit.parent hleaves) hsplit.page
  rw [hsplit.fresh]
  exact Nat.le_succ _

theorem LeafSplit.ordered [Inhabited V] (hsplit : LeafSplit t t' p row row' xs) (hsorted : Sorted C xs) :
    Ordered C t' 0 row' := by
  rw [Sorted, ← hsplit.items] at hsorted
  exact pairwise_heads hsorted hsplit.filled

end LeafSplit

section Places

/-- The leaf has room for the item. -/
theorem Built.insert_added (hb : Built C t (front ++ p :: back) xs) (hp : t.items p = lo ++ up)
    (hsorted : Sorted C (front.flatMap t.items ++ lo ++ item :: (up ++ back.flatMap t.items)))
    (hspace : (t.items p).length < C.leafCount) :
    Added C t (t.setItems p (insertAt (t.items p) lo.length item)) (front ++ p :: back)
      (front.flatMap t.items ++ lo ++ item :: (up ++ back.flatMap t.items)) := by
  obtain ⟨hfront, hback⟩ := not_or.1 (mt List.mem_append.2
    (List.nodup_cons.1 (List.nodup_middle.1 hb.leaves.nodup)).1)
  rw [hp, insertAt_append]
  have hlength : (lo ++ item :: up).length = (t.items p).length + 1 := by
    rw [hp, List.length_append, List.length_append, List.length_cons]
    rfl
  refine hb.added ?_ hsorted (fun i hi => ?_) fun i hi => ?_
  · rw [List.flatMap_append, List.flatMap_cons, flatMap_update_of_notMem hfront,
      flatMap_update_of_notMem hback, Function.update_self]
    simp only [List.append_assoc, List.cons_append]
  · by_cases hip : i = p
    · rw [hip, Function.update_self]
      omega
    · rw [Function.update_of_ne hip]
      exact hb.count i hi
  · by_cases hip : i = p
    · rw [hip, Function.update_self]
      omega
    · rw [Function.update_of_ne hip]

theorem spill_items {l m : List V} (hb : Built C t row xs)
    (hl : l.length = (t.items p).length) (hmore : m.length = (t.items q).length + 1)
    (hspace : (t.items q).length < C.leafCount) : ∀ i ∈ row,
      (t.items i).length ≤ (Function.update (Function.update t.items q m) p l i).length ∧
        (Function.update (Function.update t.items q m) p l i).length ≤ C.leafCount := by
  intro i hi
  by_cases hip : i = p
  · rw [hip, Function.update_self, hl]
    exact ⟨le_rfl, hb.count p (hip ▸ hi)⟩
  · rw [Function.update_of_ne hip]
    by_cases hiq : i = q
    · rw [hiq, Function.update_self, hmore]
      exact ⟨Nat.le_succ _, hspace⟩
    · rw [Function.update_of_ne hiq]
      exact ⟨le_rfl, hb.count i hi⟩

variable [Inhabited V]

/-- The next leaf has room for an item. -/
theorem Built.spillNext_added (hb : Built C t (front ++ p :: q :: back) xs) (hp : t.items p = lo ++ up)
    (hsorted : Sorted C (front.flatMap t.items ++ lo ++ item :: (up ++ (q :: back).flatMap t.items)))
    (hfull : (lo ++ up).length = C.leafCount) (hspace : (t.items q).length < C.leafCount) :
    Added C t (t.spillItemNext C p lo.length item q) (front ++ p :: q :: back)
      (front.flatMap t.items ++ lo ++ item :: (up ++ (q :: back).flatMap t.items)) := by
  obtain ⟨hne, hpf, hqf, hpb, hqb⟩ := nodup_pair hb.leaves.nodup
  obtain ⟨l, m, hl, heq⟩ := spillItemNext_eq item hne hp hfull
  have hlength : l.length = (t.items p).length := by
    have hlength := congrArg List.length hl
    rw [hp]
    simp only [List.length_append, List.length_cons, List.length_nil] at hlength ⊢
    omega
  have hspill := spill_items hb hlength (m := m :: t.items q) rfl hspace
  rw [heq]
  refine hb.added ?_ hsorted (fun i hi => (hspill i hi).2) fun i hi => (hspill i hi).1
  rw [List.flatMap_append, List.flatMap_cons, List.flatMap_cons, flatMap_update_of_notMem hpf,
    flatMap_update_of_notMem hqf, flatMap_update_of_notMem hpb, flatMap_update_of_notMem hqb,
    Function.update_self, Function.update_of_ne hne.symm, Function.update_self, List.cons_append,
    List.append_cons, hl]
  simp only [List.flatMap_cons, List.append_assoc, List.cons_append]

/-- The previous leaf has room for an item. -/
theorem Built.spillPrev_added (hb : Built C t (front ++ q :: p :: back) xs) (hp : t.items p = lo ++ up)
    (hsorted : Sorted C ((front ++ [q]).flatMap t.items ++ lo ++ item :: (up ++ back.flatMap t.items)))
    (hspace : (t.items q).length < C.leafCount) :
    Added C t (t.spillItemPrev p lo.length item q) (front ++ q :: p :: back)
      ((front ++ [q]).flatMap t.items ++ lo ++ item :: (up ++ back.flatMap t.items)) := by
  obtain ⟨hne, hqf, hpf, hqb, hpb⟩ := nodup_pair hb.leaves.nodup
  obtain ⟨l, m, hl, heq⟩ := spillItemPrev_eq item hne.symm hp
  have hlength : l.length = (t.items p).length := by
    have hlength := congrArg List.length hl
    rw [hp]
    simp only [List.length_append, List.length_cons] at hlength ⊢
    omega
  have hspill := spill_items hb hlength (m := t.items q ++ [m]) (List.length_append ..) hspace
  rw [heq]
  refine hb.added ?_ hsorted (fun i hi => (hspill i hi).2) fun i hi => (hspill i hi).1
  rw [List.flatMap_append, List.flatMap_cons, List.flatMap_cons, flatMap_update_of_notMem hpf,
    flatMap_update_of_notMem hqf, flatMap_update_of_notMem hpb, flatMap_update_of_notMem hqb,
    Function.update_self, Function.update_of_ne hne, Function.update_self, List.append_assoc (t.items q),
    ← List.append_assoc [m], List.singleton_append, hl]
  simp only [List.flatMap_append, List.flatMap_singleton, List.append_assoc, List.cons_append]

/-- There is a new leaf for the last item, whose address is still to be added. -/
theorem Built.split_leaf (item : V) (hb : Built C t (front ++ p :: back) xs) (hp : t.items p = lo ++ up)
    (hfull : (lo ++ up).length = C.leafCount) :
    LeafSplit t (((t.newAfter 0 p).setItems t.fresh []).spillItemNext C p lo.length item t.fresh) p
      (front ++ p :: back) (front ++ p :: t.fresh :: back)
      (front.flatMap t.items ++ lo ++ item :: (up ++ back.flatMap t.items)) := by
  obtain ⟨hne, hpf, hqf, hpb, hqb⟩ := nodup_pair hb.leaves.insertAfter.nodup
  have hfresh : ∀ i ∈ front ++ p :: back, i ≠ t.fresh := fun i hi => (hb.leaves.used i hi).ne
  obtain ⟨l, m, hl, heq⟩ := spillItemNext_eq (t := (t.newAfter 0 p).setItems t.fresh []) item hne
    ((Function.update_of_ne hne ..).trans hp) hfull
  generalize ((t.newAfter 0 p).setItems t.fresh []).spillItemNext C p lo.length item t.fresh = t₁ at heq ⊢
  have ht₁ : t₁ = { t.newAfter 0 p with
      items := Function.update (Function.update t.items t.fresh [m]) p l } := by
    refine heq.trans ?_
    simp only [BePlusTree.setItems, Function.update_self, Function.update_idem]
    rfl
  have hlength : l.length = (t.items p).length := by
    have hlength := congrArg List.length hl
    rw [hp]
    simp only [List.length_append, List.length_cons, List.length_nil] at hlength ⊢
    omega
  have hitems : ∀ i ∈ front ++ p :: back, (t₁.items i).length = (t.items i).length := by
    intro i hi
    rw [ht₁]
    dsimp only
    by_cases hip : i = p
    · rw [hip, Function.update_self, hlength]
    · rw [Function.update_of_ne hip, Function.update_of_ne (hfresh i hi)]
  have hnew : t₁.items t.fresh = [m] := by
    rw [ht₁]
    dsimp only
    rw [Function.update_of_ne hne.symm, Function.update_self]
  constructor
  case root => rw [ht₁]; rfl
  case level => rw [ht₁]; rfl
  case defaultAccessor => rw [ht₁]; rfl
  case fresh => rw [ht₁]; rfl
  case self =>
    rw [ht₁]
    exact newAfter_page_self t 0 p
  case page =>
    intro k hk
    rw [ht₁]
    exact newAfter_page_of_ne t p (Nat.ne_of_gt hk)
  case length => exact hitems
  case new => rw [hnew]; rfl
  case items =>
    rw [List.flatMap_append, List.flatMap_cons, List.flatMap_cons, hnew, ht₁]
    dsimp only
    rw [flatMap_update_of_notMem hpf, flatMap_update_of_notMem hqf, flatMap_update_of_notMem hpb,
      flatMap_update_of_notMem hqb, Function.update_self, ← List.append_assoc l, hl]
    simp only [List.append_assoc, List.cons_append]
  case filled =>
    intro i hi
    rw [← List.length_pos_iff]
    by_cases hi' : i = t.fresh
    · rw [hi', hnew]
      exact Nat.one_pos
    · have hrow : i ∈ front ++ p :: back := by
        simp only [List.mem_append, List.mem_cons] at hi ⊢
        tauto
      rw [hitems i hrow]
      by_cases hip : i = p
      · rw [hip, hp, hfull]
        exact C.leafCount_pos
      · refine List.length_pos_iff.2 (hb.leaf_ne_nil ?_ i hrow)
        by_contra hone
        rw [List.length_append, List.length_cons] at hone
        obtain rfl := List.length_eq_zero_iff.1 (by omega : front.length = 0)
        obtain rfl := List.length_eq_zero_iff.1 (by omega : back.length = 0)
        exact hip (List.mem_singleton.1 hrow)

/-- There is a new leaf for the last item. -/
theorem Built.split_added (hb : Built C t (front ++ p :: back) xs) (hp : t.items p = lo ++ up)
    (hsorted : Sorted C (front.flatMap t.items ++ lo ++ item :: (up ++ back.flatMap t.items)))
    (hfull : (lo ++ up).length = C.leafCount) :
    let t₁ := ((t.newAfter 0 p).setItems t.fresh []).spillItemNext C p lo.length item t.fresh
    Added C t (t₁.addNode C (t₁.level + 1) 0 t.fresh ((t.page 0).parent p)) (front ++ p :: back)
      (front.flatMap t.items ++ lo ++ item :: (up ++ back.flatMap t.items)) := by
  intro t₁
  have hsplit : LeafSplit t t₁ p _ _ _ := hb.split_leaf item hp hfull
  have hfresh : ∀ i ∈ front ++ p :: back, i ≠ t.fresh := fun i hi => (hb.leaves.used i hi).ne
  obtain ⟨rows, habove⟩ := hb.above
  have hfuel : rows.length < t₁.level + 1 := by
    rw [hsplit.level, habove.level]
    omega
  obtain ⟨hkept, rows', habove'⟩ := addNode_above hfuel hb.leaves.nodup (fun hmem => hfresh _ hmem rfl)
    (hsplit.above hb.leaves habove) (hsplit.ordered hsorted)
  rw [hsplit.parent hb.leaves p (List.mem_append_right _ List.mem_cons_self)] at hkept habove'
  obtain ⟨_, _, hlinks, -⟩ := hkept.links
  refine ⟨⟨_, ⟨?_, ⟨rows', habove'⟩, ?_, hsorted, fun i hi => ?_, fun _ => ?_⟩, fun i hi => ?_⟩, ?_,
    fun i hi => ?_⟩
  · rw [hlinks, hsplit.self]
    exact hb.leaves.insertAfter.congr rfl rfl (hsplit.fresh ▸ hkept.fresh)
  · rw [hkept.items, hsplit.items]
  · rw [hkept.items]
    by_cases hi' : i = t.fresh
    · rw [hi', hsplit.new]
      exact C.leafCount_pos
    · have hrow : i ∈ front ++ p :: back := by
        simp only [List.mem_append, List.mem_cons] at hi ⊢
        tauto
      rw [hsplit.length i hrow]
      exact hb.count i hrow
  · rw [hkept.items]
    exact hsplit.filled
  · simp only [List.mem_append, List.mem_cons] at hi ⊢
    tauto
  · exact hkept.defaultAccessor.trans hsplit.defaultAccessor
  · rw [hkept.items, hsplit.length i hi]

theorem Built.addItem (hb : Built C t (front ++ p :: back) xs) (hp : t.items p = lo ++ up)
    (hsorted : Sorted C (front.flatMap t.items ++ lo ++ item :: (up ++ back.flatMap t.items))) :
    Added C t (t.addItem C p lo.length item) (front ++ p :: back)
      (front.flatMap t.items ++ lo ++ item :: (up ++ back.flatMap t.items)) := by
  obtain ⟨hprev, hnext⟩ := linked_middle hb.leaves.linked
  rw [BePlusTree.addItem]
  dsimp only
  by_cases hspace : (t.items p).length < C.leafCount
  · rw [if_pos hspace]
    exact hb.insert_added hp hsorted hspace
  have hfull : (lo ++ up).length = C.leafCount := by
    rw [← hp]
    exact le_antisymm (hb.count p (List.mem_append_right _ List.mem_cons_self)) (not_lt.1 hspace)
  rw [if_neg hspace, hnext, hprev]
  rcases filter_cases (fun temp => decide ((t.items temp).length < C.leafCount)) back.head? with
    ⟨q, hq, hqspace, hfilter⟩ | ⟨-, hfilter⟩
  · rw [hfilter]
    obtain ⟨back, rfl⟩ := List.head?_eq_some_iff.1 hq
    exact hb.spillNext_added hp hsorted hfull (of_decide_eq_true hqspace)
  rw [hfilter]
  dsimp only
  rcases filter_cases (fun temp => decide ((t.items temp).length < C.leafCount)) front.getLast? with
    ⟨q, hq, hqspace, hfilter⟩ | ⟨-, hfilter⟩
  · rw [hfilter]
    obtain ⟨front, rfl⟩ := List.getLast?_eq_some_iff.1 hq
    rw [← List.append_cons] at hb ⊢
    exact hb.spillPrev_added hp hsorted (of_decide_eq_true hqspace)
  rw [hfilter]
  exact hb.split_added hp hsorted hfull

end Places

/-! ## Adding -/

/-- The tree holds the items `xs`, and its accessor is on a leaf of it or nowhere. -/
inductive Holds (C : Config V K) (t : BePlusTree V) (xs : List V) : Prop where
  | new (root : t.root = none) (level : t.level = 0) (curr : t.defaultAccessor.curr = none)
      (items : xs = [])
  | built (row : List ℕ) (built : Built C t row xs) (valid : Valid row t.defaultAccessor)

/-- The accessor of the tree is on an item. -/
def Positioned (t : BePlusTree V) : Prop := (t.current t.defaultAccessor).isSome = true

/-- The first leaf of a tree. -/
theorem built_first (hlevel : t.level = 0) :
    Built C { (t.newFirst 0).setItems t.fresh [] with root := some t.fresh } [t.fresh] [] where
  leaves := by
    refine ⟨⟨?_, ?_, trivial⟩, List.nodup_singleton _, fun i hi => ?_⟩
    · simp only [setItems, newFirst, onLevel, Level.first, Function.update_self]
    · simp only [setItems, newFirst, onLevel, Level.first, Function.update_self]
      rfl
    · rw [List.mem_singleton.1 hi]
      exact Nat.lt_succ_self _
  above := by
    refine ⟨[], t.fresh, rfl, rfl, hlevel, ?_⟩
    simp only [setItems, newFirst, onLevel, Level.first, Function.update_self]
  items := by
    simp only [setItems, List.flatMap_singleton, Function.update_self]
  sorted := List.Pairwise.nil
  count i hi := by
    rw [List.mem_singleton.1 hi]
    simp only [setItems, Function.update_self, List.length_nil, Nat.zero_le]
  filled h := absurd hlevel h

variable [Inhabited V]

/-- An item whose key is there is not added, the accessor goes to the item with the key. -/
theorem Built.add_hit (hb : Built C t row (lo ++ up)) (hparted : Parted C (C.key item) lo up)
    (hhit : Hit C (C.key item) up) : (t.add C item).2 = false ∧
      Built C (t.add C item).1 row (lo ++ up) ∧
      LandsFirst (t.add C item).1 row ((t.add C item).1.defaultAccessor, true) lo up := by
  obtain ⟨r, p, front, back, u, v, hroot, hfind, hp⟩ := hb.place (C.key item)
  obtain ⟨rfl, rfl⟩ := hparted.unique hp.parted (by
    rw [← hb.items, hp.row, List.flatMap_append, List.flatMap_cons, hp.items]
    simp only [List.append_assoc])
  obtain rfl := hp.row
  rw [BePlusTree.add, hroot]
  dsimp only
  rw [hroot, Option.getD_some, hfind, if_pos (hp.hit.2 hhit), hp.find]
  refine ⟨rfl, ⟨hb.leaves, ?_, hb.items, hb.sorted, hb.count, hb.filled⟩, ?_⟩
  · obtain ⟨rows, habove⟩ := hb.above
    exact ⟨rows, habove.congr hroot.symm rfl le_rfl (fun _ _ => rfl) fun _ _ => rfl⟩
  · have h := hp.hit.2 hhit
    rw [hp.find] at h
    cases v with
    | nil => exact nomatch h
    | cons y v => exact ⟨rfl, front, p, back, u, v, rfl, hp.items, rfl, rfl, rfl⟩

/-- An item whose key is not there is added. -/
theorem Built.add_miss (hb : Built C t row (lo ++ up)) (hparted : Parted C (C.key item) lo up)
    (hmiss : ¬ Hit C (C.key item) up) : (t.add C item).2 = true ∧
      Added C t (t.add C item).1 row (lo ++ item :: up) := by
  have hsorted := hb.sorted.insert hparted hmiss
  obtain ⟨r, p, front, back, u, v, hroot, hfind, hp⟩ := hb.place (C.key item)
  obtain ⟨rfl, rfl⟩ := hparted.unique hp.parted (by
    rw [← hb.items, hp.row, List.flatMap_append, List.flatMap_cons, hp.items]
    simp only [List.append_assoc])
  obtain rfl := hp.row
  rw [BePlusTree.add, hroot]
  dsimp only
  rw [hroot, Option.getD_some, hfind, if_neg (mt hp.hit.1 hmiss), hp.find]
  exact ⟨rfl, hb.addItem hp.items hsorted⟩

end FirebirdCore.Tree
