import FirebirdCore.Tree.AddNode

/-!
# Removing a page

The links around a page are joined and its address is removed from the page above. That page may now
be joined with a neighbour, which is removed in turn. The last child of a page is not removed alone:
the page goes with it, or gets a child of a neighbour in its place.
-/
namespace FirebirdCore.Tree
open FirebirdCore.LowerBound FirebirdCore.LinkedRow BePlusTree

variable {V K : Type*}

/-- The page `x` of height `h` is not linked any more, parents of this height and children one level
above were changed. -/
structure Cut (t t' : BePlusTree V) (h x : ℕ) (parent : ℕ → Option ℕ) (children : ℕ → List ℕ) : Prop where
  same : t' = { t with page := t'.page }
  page : ∀ k, k ≠ h → k ≠ h + 1 → t'.page k = t.page k
  low : t'.page h = { (t.page h).unlink x with parent := parent }
  high : t'.page (h + 1) = { t.page (h + 1) with children := children }

/-- What removing a page `x` of height `h` does not change. -/
structure Gone (t t' : BePlusTree V) (h x : ℕ) : Prop where
  items : t'.items = t.items
  defaultAccessor : t'.defaultAccessor = t.defaultAccessor
  fresh : t'.fresh = t.fresh
  below : ∀ k < h, t'.page k = t.page k
  links : ∃ parent, t'.page h = { (t.page h).unlink x with parent := parent }

section Cut
variable {t t' : BePlusTree V} {nodeCount h x y list : ℕ} {parent : ℕ → Option ℕ}
  {children : ℕ → List ℕ} {a b c d row row' new : List ℕ} {rows : List (List ℕ)}

theorem cut_of_onLevel (t : BePlusTree V) {f g : Level → Level}
    (hf : f (t.page h) = { (t.page h).unlink x with parent := parent })
    (hg : g (t.page (h + 1)) = { t.page (h + 1) with children := children }) :
    Cut t ((t.onLevel h f).onLevel (h + 1) g) h x parent children where
  same := rfl
  page k hk hk' := by rw [onLevel_page_of_ne _ _ hk', onLevel_page_of_ne _ _ hk]
  low := by rw [onLevel_page_of_ne _ _ (Nat.succ_ne_self h).symm, onLevel_page_self, hf]
  high := by rw [onLevel_page_self, onLevel_page_of_ne _ _ (Nat.succ_ne_self h), hg]

theorem cut_unlink (t : BePlusTree V) (h x : ℕ) :
    Cut t (t.onLevel h (·.unlink x)) h x (t.page h).parent (t.page (h + 1)).children where
  same := rfl
  page _ hk _ := onLevel_page_of_ne _ _ hk
  low := onLevel_page_self ..
  high := onLevel_page_of_ne _ _ (Nat.succ_ne_self h)

/-- The children of `q` come to `p`. -/
theorem Cut.join {p q : ℕ} (e : Cut t t' h x parent children) :
    Cut t (t'.joinNodes h p q) h x (fun i => if i ∈ children q then some p else parent i)
      (Function.update children p (children p ++ children q)) where
  same := by
    rw [joinNodes, setChildren, onLevel, onLevel]
    dsimp only
    rw [e.same]
  page k hk hk' := by
    rw [joinNodes, onLevel_page_of_ne _ _ hk, setChildren, onLevel_page_of_ne _ _ hk', e.page k hk hk']
  low := by
    rw [joinNodes]
    dsimp only
    rw [onLevel_page_self, setChildren, onLevel_page_of_ne _ _ (Nat.succ_ne_self h).symm, e.low, e.high]
    rfl
  high := by
    rw [joinNodes]
    dsimp only
    rw [onLevel_page_of_ne _ _ (Nat.succ_ne_self h), setChildren, onLevel_page_self, e.high]
    rfl

theorem Cut.gone (e : Cut t t' h x parent children) : Gone t t' h x where
  items := by rw [e.same]
  defaultAccessor := by rw [e.same]
  fresh := by rw [e.same]
  below k hk := e.page k (by omega) (by omega)
  links := ⟨parent, e.low⟩

/-- The rows above that one stay as they are. -/
theorem Cut.rest (e : Cut t t' h x parent children) (habove : Above nodeCount t (h + 1) row' rows) :
    Above nodeCount t' (h + 1) row' rows := by
  refine habove.congr ?_ ?_ ?_ (fun i _ => ?_) fun k hk => e.page k (by omega) (by omega)
  · rw [e.same]
  · rw [e.same]
  · rw [e.same]
  · rw [e.high]

theorem Cut.above (e : Cut t t' h x parent children) (hrow : Row (t.page (h + 1)) t.fresh row')
    (hlevel : ∀ i ∈ row', (t.page (h + 1)).nodeLevel i = h) (habove : Above nodeCount t (h + 1) row' rows)
    (hnested : Nested parent children row row') (hsizes : Sizes nodeCount children row')
    (htwo : 2 ≤ row.length) : Above nodeCount t' h row (row' :: rows) := by
  refine ⟨⟨htwo, ?_, ?_, fun i hi => ?_, ?_⟩, e.rest habove⟩
  · rw [e.low, e.high]
    exact hnested
  · rw [e.high]
    exact hsizes
  · rw [e.high]
    exact hlevel i hi
  · rw [e.high, e.same]
    exact hrow.congr rfl rfl le_rfl

/-- After the change a page of the row above was removed. -/
theorem Cut.above_gone {t₁ : BePlusTree V} (e : Cut t t₁ h x parent children)
    (hgone : Gone t₁ t' (h + 1) y) (habove : Above nodeCount t' (h + 1) new rows)
    (hrow : Row (t.page (h + 1)) t.fresh (c ++ y :: d)) (hnew : new = c ++ d)
    (hlevel : ∀ i ∈ new, (t.page (h + 1)).nodeLevel i = h)
    (hnested : Nested parent children row new) (hsizes : Sizes nodeCount children new)
    (htwo : 2 ≤ row.length) :
    Gone t t' h x ∧ Above nodeCount t' h row (new :: rows) := by
  obtain ⟨parent', hlinks⟩ := hgone.links
  have hbelow := hgone.below h (Nat.lt_succ_self h)
  have hfresh : t'.fresh = t.fresh := hgone.fresh.trans e.gone.fresh
  rw [e.high] at hlinks
  refine ⟨⟨hgone.items.trans e.gone.items, hgone.defaultAccessor.trans e.gone.defaultAccessor, hfresh,
    fun k hk => ?_, parent, hbelow.trans e.low⟩, ⟨htwo, ?_, ?_, fun i hi => ?_, ?_⟩, habove⟩
  · exact (hgone.below k (hk.trans (Nat.lt_succ_self h))).trans (e.gone.below k hk)
  · rw [hbelow, e.low, hlinks]
    exact hnested
  · rw [hlinks]
    exact hsizes
  · rw [hlinks]
    exact hlevel i hi
  · rw [hlinks, hfresh, hnew]
    exact hrow.unlink.congr rfl rfl le_rfl

end Cut

/-! ## Sizes -/

section Sizes
variable {nodeCount p : ℕ} {children children' : ℕ → List ℕ} {row front back : List ℕ}

theorem Sizes.left (hsizes : Sizes nodeCount children (front ++ back)) :
    Sizes nodeCount children front :=
  ⟨fun i hi => hsizes.full i (List.mem_append_left _ hi), hsizes.wide.left_of_append⟩

theorem Sizes.right (hsizes : Sizes nodeCount children (front ++ back)) :
    Sizes nodeCount children back :=
  ⟨fun i hi => hsizes.full i (List.mem_append_right _ hi), hsizes.wide.right_of_append⟩

theorem Sizes.tail (hsizes : Sizes nodeCount children (p :: back)) : Sizes nodeCount children back :=
  ⟨fun i hi => hsizes.full i (List.mem_cons_of_mem _ hi), hsizes.wide.tail⟩

theorem Sizes.congr (hsizes : Sizes nodeCount children row) (h : ∀ i ∈ row, children' i = children i) :
    Sizes nodeCount children' row where
  full i hi := by
    rw [h i hi]
    exact hsizes.full i hi
  wide := hsizes.wide.imp_of_mem_imp fun i j hi hj hij => by rwa [h i hi, h j hj]

theorem Sizes.pos (hsizes : Sizes nodeCount children row) {i : ℕ} (hi : i ∈ row) :
    1 ≤ (children i).length :=
  List.length_pos_iff.2 (hsizes.full i hi).1

/-- The children of one page have changed. -/
theorem Sizes.replace (hfront : Sizes nodeCount children front) (hback : Sizes nodeCount children back)
    (hsame : ∀ i ∈ front ++ back, (children' i).length = (children i).length)
    (hpos : 1 ≤ (children' p).length) (hcount : (children' p).length ≤ nodeCount)
    (hprev : ∀ q ∈ front.getLast?, 3 ≤ (children q).length + (children' p).length)
    (hnext : ∀ q ∈ back.head?, 3 ≤ (children' p).length + (children q).length) :
    Sizes nodeCount children' (front ++ p :: back) := by
  have hl : ∀ i ∈ front, (children' i).length = (children i).length := fun i hi =>
    hsame i (List.mem_append_left _ hi)
  have hr : ∀ i ∈ back, (children' i).length = (children i).length := fun i hi =>
    hsame i (List.mem_append_right _ hi)
  constructor
  · intro i hi
    rw [← List.length_pos_iff]
    rcases List.mem_append.1 hi with hi | hi
    · rw [hl i hi]
      exact ⟨hfront.pos hi, (hfront.full i hi).2⟩
    · rcases List.mem_cons.1 hi with rfl | hi
      · exact ⟨hpos, hcount⟩
      · rw [hr i hi]
        exact ⟨hback.pos hi, (hback.full i hi).2⟩
  · rw [List.isChain_append, List.isChain_cons]
    refine ⟨hfront.wide.imp_of_mem_imp fun i j hi hj hij => ?_, ⟨fun q hq => ?_,
      hback.wide.imp_of_mem_imp fun i j hi hj hij => ?_⟩, fun q hq i hi => ?_⟩
    · rwa [hl i hi, hl j hj]
    · rw [hr q (List.mem_of_head? hq)]
      exact hnext q hq
    · rwa [hr i hi, hr j hj]
    · obtain rfl : p = i := Option.some.inj hi
      rw [hl q (List.mem_of_getLast? hq)]
      exact hprev q hq

/-- A page with two children or more has any neighbours. -/
theorem Sizes.replace_two (hfront : Sizes nodeCount children front) (hback : Sizes nodeCount children back)
    (hsame : ∀ i ∈ front ++ back, (children' i).length = (children i).length)
    (htwo : 2 ≤ (children' p).length) (hcount : (children' p).length ≤ nodeCount) :
    Sizes nodeCount children' (front ++ p :: back) := by
  refine hfront.replace hback hsame (by omega) hcount (fun q hq => ?_) fun q hq => ?_
  · have := hfront.pos (List.mem_of_getLast? hq)
    omega
  · have := hback.pos (List.mem_of_head? hq)
    omega

/-- The neighbours of a page with one child. -/
theorem Sizes.beside (hsizes : Sizes nodeCount children (front ++ p :: back))
    (hone : (children p).length = 1) :
    (∀ q ∈ front.getLast?, 2 ≤ (children q).length) ∧ ∀ q ∈ back.head?, 2 ≤ (children q).length := by
  obtain ⟨-, hcons, hprev⟩ := List.isChain_append.1 hsizes.wide
  obtain ⟨hnext, -⟩ := List.isChain_cons.1 hcons
  refine ⟨fun q hq => ?_, fun q hq => ?_⟩
  · have := hprev q hq p rfl
    omega
  · have := hnext q hq
    omega

/-- A page with one child is taken out. -/
theorem Sizes.without (hsizes : Sizes nodeCount children (front ++ p :: back))
    (hone : (children p).length = 1) : Sizes nodeCount children (front ++ back) := by
  obtain ⟨hfront, hcons, -⟩ := List.isChain_append.1 hsizes.wide
  refine ⟨fun i hi => hsizes.full i (((List.sublist_cons_self p back).append_left front).subset hi),
    List.isChain_append.2 ⟨hfront, hcons.tail, fun q hq r hr => ?_⟩⟩
  have hq := (hsizes.beside hone).1 q hq
  have hr := (hsizes.beside hone).2 r hr
  omega

theorem refill_length {q y i : ℕ} {l : List ℕ} (hone : (children q).length = 1) (hi : i ≠ p) :
    (Function.update (Function.update children q [y]) p l i).length = (children i).length := by
  rw [Function.update_of_ne hi]
  by_cases hiq : i = q
  · rw [hiq, Function.update_self, hone, List.length_singleton]
  · rw [Function.update_of_ne hiq]

/-- There are more children beside those of a page with one child. -/
theorem Sizes.two_without (hsizes : Sizes nodeCount children (front ++ p :: back))
    (hone : (children p).length = 1) (hmany : 2 ≤ (front ++ p :: back).length) :
    2 ≤ ((front ++ back).flatMap children).length := by
  obtain ⟨hprev, hnext⟩ := hsizes.beside hone
  rw [List.flatMap_append, List.length_append]
  rcases List.eq_nil_or_concat' front with rfl | ⟨front, q, rfl⟩
  · cases back with
    | nil =>
      rw [List.nil_append, List.length_singleton] at hmany
      omega
    | cons q back =>
      have hq := hnext q rfl
      rw [List.flatMap_cons, List.length_append]
      omega
  · have hq := hprev q (List.getLast?_concat ..)
    rw [List.flatMap_append, List.flatMap_singleton, List.length_append]
    omega

theorem two_le_flatMap (hsizes : Sizes nodeCount children row) (htwo : 2 ≤ row.length) :
    2 ≤ (row.flatMap children).length := by
  match row, htwo with
  | i :: j :: row, _ =>
    have hi := hsizes.pos List.mem_cons_self
    have hj := hsizes.pos (List.mem_cons_of_mem i List.mem_cons_self)
    rw [List.flatMap_cons, List.flatMap_cons, List.length_append, List.length_append]
    omega

/-- Pages that are not nearly empty are too many to join. -/
theorem three_le_of_not_needMerge {count : ℕ} (h : ¬ needMerge count nodeCount) (htwo : 2 ≤ nodeCount) :
    3 ≤ count := by
  rw [needMerge] at h
  omega

theorem le_of_needMerge {count : ℕ} (h : needMerge count nodeCount) : count ≤ nodeCount := by
  rw [needMerge] at h
  omega

end Sizes

/-! ## Children that move -/

section Nested
variable {parent : ℕ → Option ℕ} {children : ℕ → List ℕ} {row front back c d e : List ℕ}
  {x y p q : ℕ}

/-- The children of `q` are put behind those of `p`. -/
theorem nested_join (hnested : Nested parent children row (front ++ p :: q :: back))
    (hrow : (front ++ p :: q :: back).Nodup) :
    Nested (fun i => if i ∈ children q then some p else parent i)
      (Function.update children p (children p ++ children q)) row (front ++ p :: back) := by
  obtain ⟨hne, hpf, hqf, hpb, hqb⟩ := nodup_pair hrow
  refine ⟨?_, fun i hi k hk => ?_⟩
  · rw [← hnested.flat, List.flatMap_append, List.flatMap_cons, flatMap_update_of_notMem hpf,
      flatMap_update_of_notMem hpb, Function.update_self]
    simp only [List.flatMap_append, List.flatMap_cons, List.append_assoc]
  · have hi' : i ∈ front ++ p :: q :: back := by
      simp only [List.mem_append, List.mem_cons] at hi ⊢
      tauto
    have hiq : i ≠ q := by
      rintro rfl
      simp only [List.mem_append, List.mem_cons] at hi
      tauto
    have hq : q ∈ front ++ p :: q :: back :=
      List.mem_append_right _ (List.mem_cons_of_mem _ List.mem_cons_self)
    by_cases hip : i = p
    · subst hip
      rw [Function.update_self] at hk
      by_cases hkq : k ∈ children q
      · rw [if_pos hkq]
      · rw [if_neg hkq]
        exact hnested.parent i hi' k ((List.mem_append.1 hk).resolve_right hkq)
    · rw [Function.update_of_ne hip] at hk
      have hparent := hnested.parent i hi' k hk
      rw [if_neg fun hkq => hiq (Option.some.inj (hparent.symm.trans (hnested.parent q hq k hkq)))]
      exact hparent

/-- The child `x` of `list` is removed. -/
theorem nested_erase {a b : List ℕ} {list : ℕ}
    (hnested : Nested parent children (a ++ x :: b) (front ++ list :: back))
    (hrow : (front ++ list :: back).Nodup) (hlist : children list = c ++ x :: d)
    (ha : a = front.flatMap children ++ c) (hb : b = d ++ back.flatMap children) :
    Nested parent (Function.update children list (c ++ d)) (a ++ b) (front ++ list :: back) := by
  obtain ⟨-, hrest, hdisjoint⟩ := List.nodup_append.1 hrow
  have hfront : list ∉ front := fun h => hdisjoint list h list List.mem_cons_self rfl
  have hback : list ∉ back := (List.nodup_cons.1 hrest).1
  refine ⟨?_, fun i hi k hk => hnested.parent i hi k ?_⟩
  · rw [List.flatMap_append, List.flatMap_cons, flatMap_update_of_notMem hfront,
      flatMap_update_of_notMem hback, Function.update_self, ha, hb]
    simp only [List.append_assoc]
  · by_cases hi' : i = list
    · rw [hi', Function.update_self] at hk
      rw [hi', hlist]
      simp only [List.mem_append, List.mem_cons] at hk ⊢
      tauto
    · rwa [Function.update_of_ne hi'] at hk

/-- The parents, after `y` has come from `p` to `q` in place of the only child there. -/
theorem refill_parent {row' : List ℕ} (hnested : Nested parent children row row') (hp : p ∈ row')
    (hne : q ≠ p) (hy : y ∈ children p) (he : ∀ k ∈ e, k ∈ children p ∧ k ≠ y) :
    ∀ i ∈ row', ∀ k ∈ Function.update (Function.update children q [y]) p e i,
      Function.update parent y (some q) k = some i := by
  intro i hi k hk
  by_cases hip : i = p
  · subst hip
    rw [Function.update_self] at hk
    rw [Function.update_of_ne (he k hk).2]
    exact hnested.parent i hi k (he k hk).1
  · rw [Function.update_of_ne hip] at hk
    by_cases hiq : i = q
    · rw [hiq, Function.update_self, List.mem_singleton] at hk
      rw [hk, Function.update_self, hiq]
    · rw [Function.update_of_ne hiq] at hk
      have hparent := hnested.parent i hi k hk
      rw [Function.update_of_ne ?_, hparent]
      rintro rfl
      exact hip (Option.some.inj (hparent.symm.trans (hnested.parent p hp k hy)))

/-- The only child of `q` is replaced by the last one of the page in front of it. -/
theorem nested_refillPrev {a b : List ℕ}
    (hnested : Nested parent children (a ++ x :: b) (front ++ p :: q :: back))
    (hrow' : (front ++ p :: q :: back).Nodup) (hrow : (a ++ x :: b).Nodup)
    (hp : children p = e ++ [y]) (ha : a = (front ++ [p]).flatMap children)
    (hb : b = back.flatMap children) :
    Nested (Function.update parent y (some q)) (Function.update (Function.update children q [y]) p e)
      (a ++ b) (front ++ p :: q :: back) := by
  obtain ⟨hne, hpf, hqf, hpb, hqb⟩ := nodup_pair hrow'
  have hall : front.flatMap children ++ (e ++ [y]) = a := by
    rw [ha, List.flatMap_append, List.flatMap_singleton, hp]
  have hnodup : (e ++ [y]).Nodup := by
    rw [← hall] at hrow
    exact (List.nodup_append.1 (List.nodup_append.1 hrow).1).2.1
  refine ⟨?_, refill_parent hnested (List.mem_append_right _ List.mem_cons_self) hne.symm
    (hp ▸ List.mem_append_right _ List.mem_cons_self) fun k hk => ⟨hp ▸ List.mem_append_left _ hk, ?_⟩⟩
  · rw [List.flatMap_append, List.flatMap_cons, List.flatMap_cons, flatMap_update_of_notMem hpf,
      flatMap_update_of_notMem hqf, flatMap_update_of_notMem hpb, flatMap_update_of_notMem hqb,
      Function.update_self, Function.update_of_ne hne.symm, Function.update_self, ← hall, hb]
    simp only [List.append_assoc]
  · rintro rfl
    exact (List.nodup_append.1 hnodup).2.2 k hk k List.mem_cons_self rfl

/-- The only child of the first page is replaced by the first one of the next page. -/
theorem nested_refillNext {b : List ℕ} (hnested : Nested parent children (x :: b) (q :: p :: back))
    (hrow' : (q :: p :: back).Nodup) (hrow : (x :: b).Nodup) (hp : children p = y :: e)
    (hb : b = (p :: back).flatMap children) :
    Nested (Function.update parent y (some q)) (Function.update (Function.update children q [y]) p e)
      b (q :: p :: back) := by
  obtain ⟨hne, -, -, hqb, hpb⟩ := nodup_pair (show ([] ++ q :: p :: back).Nodup from hrow')
  have hall : y :: (e ++ back.flatMap children) = b := by
    rw [hb, List.flatMap_cons, hp, List.cons_append]
  have hnodup : (y :: e).Nodup := by
    rw [← hall, ← List.cons_append] at hrow
    exact (List.nodup_append.1 (List.nodup_cons.1 hrow).2).1
  refine ⟨?_, refill_parent hnested (List.mem_cons_of_mem _ List.mem_cons_self) hne
    (hp ▸ List.mem_cons_self) fun k hk => ⟨hp ▸ List.mem_cons_of_mem _ hk, ?_⟩⟩
  · rw [List.flatMap_cons, List.flatMap_cons, flatMap_update_of_notMem hpb,
      flatMap_update_of_notMem hqb, Function.update_self, Function.update_of_ne hne,
      Function.update_self, ← hall]
    rfl
  · rintro rfl
    exact (List.nodup_cons.1 hnodup).1 hk

end Nested

/-! ## Refilling a page -/

section Refill
variable {C : Config V K} {t : BePlusTree V} {h x list p : ℕ} {a b front back : List ℕ}
  {rows : List (List ℕ)}

/-- The last child of a page is replaced by one from the previous page. -/
theorem refillPrev_above
    (hlayer : Layer C.nodeCount t h (a ++ x :: b) (front ++ p :: list :: back))
    (habove : Above C.nodeCount t (h + 1) (front ++ p :: list :: back) rows)
    (hrow : (a ++ x :: b).Nodup) (hlist : (t.page (h + 1)).children list = [x])
    (ha : a = (front ++ [p]).flatMap (t.page (h + 1)).children)
    (hb : b = back.flatMap (t.page (h + 1)).children)
    (hcount : 3 ≤ ((t.page (h + 1)).children p).length) :
    Gone t ((t.onLevel h (·.unlink x)).refill h list) h x ∧
      Above C.nodeCount ((t.onLevel h (·.unlink x)).refill h list) h (a ++ b)
        ((front ++ p :: list :: back) :: rows) := by
  obtain ⟨hne, hpf, hqf, hpb, hqb⟩ := nodup_pair hlayer.row.nodup
  obtain ⟨l, y, hp⟩ : ∃ l y, (t.page (h + 1)).children p = l ++ [y] := by
    rcases List.eq_nil_or_concat' ((t.page (h + 1)).children p) with hnil | hp
    · rw [hnil, List.length_nil] at hcount
      omega
    · exact hp
  have hprev : (t.page (h + 1)).prev list = some p := by
    have hlinked := hlayer.row.linked
    rw [List.append_cons] at hlinked
    exact (linked_middle hlinked).1.trans (List.getLast?_concat ..)
  have hpage : (t.onLevel h (·.unlink x)).page (h + 1) = t.page (h + 1) :=
    onLevel_page_of_ne _ _ (Nat.succ_ne_self h)
  have hrefill : (t.onLevel h (·.unlink x)).refill h list =
      (t.onLevel h fun L => (L.unlink x).setParent y (some list)).onLevel (h + 1)
        fun L => (L.setChildren list [y]).setChildren p l := by
    rw [refill]
    dsimp only
    rw [hpage, hprev]
    dsimp only
    rw [hp, hlist, List.length_append, List.length_singleton, Nat.add_sub_cancel, List.take_left,
      getD_concat]
    simp only [setChildren, setNodeParent]
    rw [onLevel_turns _ (Nat.succ_ne_self h).symm]
    rfl
  rw [hrefill]
  have e := cut_of_onLevel (h := h) (x := x) t (f := fun L => (L.unlink x).setParent y (some list))
    (g := fun L => (L.setChildren list [y]).setChildren p l) rfl rfl
  have hnested := nested_refillPrev hlayer.nested hlayer.row.nodup hrow hp ha hb
  have hself : Function.update (Function.update (t.page (h + 1)).children list [y]) p l p = l :=
    Function.update_self ..
  have hlength : l.length + 1 = ((t.page (h + 1)).children p).length := by
    rw [hp, List.length_append, List.length_singleton]
  have hmax := (hlayer.sizes.full p (List.mem_append_right _ List.mem_cons_self)).2
  have hsizes : Sizes C.nodeCount
      (Function.update (Function.update (t.page (h + 1)).children list [y]) p l)
      (front ++ p :: list :: back) := by
    refine hlayer.sizes.left.replace_two hlayer.sizes.right.tail (fun i hi => refill_length ?_ ?_) ?_ ?_
    · rw [hlist, List.length_singleton]
    · rintro rfl
      simp only [List.mem_append, List.mem_cons] at hi
      tauto
    · rw [hself]
      omega
    · rw [hself]
      omega
  refine ⟨e.gone, e.above hlayer.row hlayer.nodeLevel habove hnested hsizes ?_⟩
  rw [← hnested.flat]
  exact two_le_flatMap hsizes (two_le_length ..)

/-- The last child of the first page is replaced by one from the next page. -/
theorem refillNext_above (hlayer : Layer C.nodeCount t h (x :: b) (list :: p :: back))
    (habove : Above C.nodeCount t (h + 1) (list :: p :: back) rows) (hrow : (x :: b).Nodup)
    (hlist : (t.page (h + 1)).children list = [x])
    (hb : b = (p :: back).flatMap (t.page (h + 1)).children)
    (hcount : 3 ≤ ((t.page (h + 1)).children p).length) :
    Gone t ((t.onLevel h (·.unlink x)).refill h list) h x ∧
      Above C.nodeCount ((t.onLevel h (·.unlink x)).refill h list) h b ((list :: p :: back) :: rows) := by
  have hrow' : Row (t.page (h + 1)) t.fresh ([] ++ list :: p :: back) := hlayer.row
  obtain ⟨hne, -, -, hqb, hpb⟩ := nodup_pair hrow'.nodup
  obtain ⟨y, l, hp⟩ : ∃ y l, (t.page (h + 1)).children p = y :: l :=
    List.exists_cons_of_length_pos (by omega)
  obtain ⟨hprev, hnext⟩ := linked_middle hrow'.linked
  have hpage : (t.onLevel h (·.unlink x)).page (h + 1) = t.page (h + 1) :=
    onLevel_page_of_ne _ _ (Nat.succ_ne_self h)
  have hrefill : (t.onLevel h (·.unlink x)).refill h list =
      (t.onLevel h fun L => (L.unlink x).setParent y (some list)).onLevel (h + 1)
        fun L => (L.setChildren list [y]).setChildren p l := by
    rw [refill]
    dsimp only
    rw [hpage, hprev, hnext]
    dsimp only [List.getLast?_nil, List.head?_cons]
    rw [hp, hlist]
    simp only [setChildren, setNodeParent]
    rw [onLevel_turns _ (Nat.succ_ne_self h).symm]
    rfl
  rw [hrefill]
  have e := cut_of_onLevel (h := h) (x := x) t (f := fun L => (L.unlink x).setParent y (some list))
    (g := fun L => (L.setChildren list [y]).setChildren p l) rfl rfl
  have hnested := nested_refillNext hlayer.nested hlayer.row.nodup hrow hp hb
  have hself : Function.update (Function.update (t.page (h + 1)).children list [y]) p l p = l :=
    Function.update_self ..
  have hlength : l.length + 1 = ((t.page (h + 1)).children p).length := by
    rw [hp, List.length_cons]
  have hmax := (hlayer.sizes.full p (List.mem_cons_of_mem _ List.mem_cons_self)).2
  have hsizes : Sizes C.nodeCount
      (Function.update (Function.update (t.page (h + 1)).children list [y]) p l)
      ([list] ++ p :: back) := by
    have hleft : Sizes C.nodeCount (t.page (h + 1)).children [list] := Sizes.left hlayer.sizes
    refine hleft.replace_two hlayer.sizes.tail.tail (fun i hi => refill_length ?_ ?_) ?_ ?_
    · rw [hlist, List.length_singleton]
    · rintro rfl
      simp only [List.mem_append, List.mem_singleton] at hi
      tauto
    · rw [hself]
      omega
    · rw [hself]
      omega
  refine ⟨e.gone, e.above hlayer.row hlayer.nodeLevel habove hnested hsizes ?_⟩
  rw [← hnested.flat]
  exact two_le_flatMap hsizes (two_le_length [] ..)

/-- A page with a single child is not the only one of its height. -/
theorem Layer.many {row : List ℕ} (hlayer : Layer C.nodeCount t h row (front ++ list :: back))
    (hlist : (t.page (h + 1)).children list = [x]) : 2 ≤ (front ++ list :: back).length := by
  have htwo := hlayer.two
  rw [← hlayer.nested.flat, List.flatMap_append, List.flatMap_cons, hlist] at htwo
  cases front with
  | nil =>
    cases back with
    | nil => simp at htwo
    | cons q back => exact two_le_length [] ..
  | cons p front =>
    rw [List.cons_append, List.length_cons, List.length_append, List.length_cons]
    omega

/-- The last child of a page whose neighbours are not nearly empty. -/
theorem refill_above (hlayer : Layer C.nodeCount t h (a ++ x :: b) (front ++ list :: back))
    (habove : Above C.nodeCount t (h + 1) (front ++ list :: back) rows)
    (hrow : (a ++ x :: b).Nodup) (hlist : (t.page (h + 1)).children list = [x])
    (ha : a = front.flatMap (t.page (h + 1)).children)
    (hb : b = back.flatMap (t.page (h + 1)).children)
    (hprev : ∀ q ∈ front.getLast?, 3 ≤ ((t.page (h + 1)).children q).length)
    (hnext : ∀ q ∈ back.head?, 3 ≤ ((t.page (h + 1)).children q).length) :
    Gone t ((t.onLevel h (·.unlink x)).refill h list) h x ∧
      Above C.nodeCount ((t.onLevel h (·.unlink x)).refill h list) h (a ++ b)
        ((front ++ list :: back) :: rows) := by
  rcases List.eq_nil_or_concat' front with rfl | ⟨front, p, rfl⟩
  · cases back with
    | nil => exact absurd (hlayer.many hlist) (by simp)
    | cons q back =>
      subst ha
      exact refillNext_above hlayer habove hrow hlist hb (hnext q rfl)
  · rw [← List.append_cons] at hlayer habove ⊢
    exact refillPrev_above hlayer habove hrow hlist ha hb (hprev p (List.getLast?_concat ..))

end Refill

/-! ## Going up -/

section Collapse
variable {C : Config V K} {t t₁ : BePlusTree V} {nodeCount h x list : ℕ} {children : ℕ → List ℕ}
  {a b c d row row₀ row' front back : List ℕ} {rows : List (List ℕ)}

/-- The root has one child left, which is the root now. -/
theorem collapse_above {r : ℕ} (e : Cut t t₁ h x (t.page h).parent children) (hlevel : t.level = h + 1)
    (habove : Above C.nodeCount t (h + 1) row' rows) (hlist : list ∈ row')
    (hnested : Nested (t.page h).parent children row row') (hone : children list = [r]) :
    let t' := { t₁ with
      root := some r
      level := h }.setNodeParent h r none
    Gone t t' h x ∧ Above C.nodeCount t' h row [] := by
  have hrows : rows = [] := by
    have hheight := habove.level
    rw [hlevel, Nat.left_eq_add, List.length_eq_zero_iff] at hheight
    exact hheight
  subst hrows
  obtain ⟨i, rfl, -⟩ := habove
  obtain rfl : list = i := List.mem_singleton.1 hlist
  have hrow : row = [r] := by
    rw [← hnested.flat, List.flatMap_singleton, hone]
  refine ⟨⟨e.gone.items, e.gone.defaultAccessor, e.gone.fresh, fun k hk => ?_, ?_⟩,
    r, hrow, rfl, rfl, ?_⟩
  · exact (onLevel_page_of_ne _ _ hk.ne).trans (e.gone.below k hk)
  · refine ⟨Function.update (t.page h).parent r none, (onLevel_page_self ..).trans ?_⟩
    show (t₁.page h).setParent r none = _
    rw [e.low]
    rfl
  · rw [setNodeParent, onLevel_page_self]
    exact Function.update_self ..

/-- The child `x` of `list` is removed, pages were not joined yet. -/
structure Erased (nodeCount : ℕ) (t t₁ : BePlusTree V) (h x list : ℕ) (row front back : List ℕ)
    (children : ℕ → List ℕ) : Prop where
  cut : Cut t t₁ h x (t.page h).parent children
  nested : Nested (t.page h).parent children row (front ++ list :: back)
  other : ∀ i ∈ front ++ back, children i = (t.page (h + 1)).children i
  left : Sizes nodeCount children front
  right : Sizes nodeCount children back
  pos : children list ≠ []
  count : (children list).length ≤ nodeCount

theorem erased (hlayer : Layer nodeCount t h (a ++ x :: b) (front ++ list :: back))
    (hlist : (t.page (h + 1)).children list = c ++ x :: d)
    (ha : a = front.flatMap (t.page (h + 1)).children ++ c)
    (hb : b = d ++ back.flatMap (t.page (h + 1)).children)
    (hone : ((t.page (h + 1)).children list).length ≠ 1) :
    Erased nodeCount t ((t.onLevel h (·.unlink x)).setChildren (h + 1) list (c ++ d)) h x list (a ++ b)
      front back (Function.update (t.page (h + 1)).children list (c ++ d)) := by
  have hself : Function.update (t.page (h + 1)).children list (c ++ d) list = c ++ d :=
    Function.update_self ..
  have hlength : (c ++ d).length + 1 = ((t.page (h + 1)).children list).length := by
    rw [hlist, List.length_append, List.length_append, List.length_cons]
    rfl
  have hmem : list ∈ front ++ list :: back := List.mem_append_right _ List.mem_cons_self
  have hpos := hlayer.sizes.pos hmem
  have hmax := (hlayer.sizes.full list hmem).2
  have hother : ∀ i ∈ front ++ back, Function.update (t.page (h + 1)).children list (c ++ d) i =
      (t.page (h + 1)).children i := by
    intro i hi
    have hnotMem := (List.nodup_cons.1 (List.nodup_middle.1 hlayer.row.nodup)).1
    exact Function.update_of_ne (fun h : i = list => hnotMem (h ▸ hi)) ..
  refine ⟨cut_of_onLevel t rfl rfl, nested_erase hlayer.nested hlayer.row.nodup hlist ha hb, hother,
    hlayer.sizes.left.congr fun i hi => hother i (List.mem_append_left _ hi),
    hlayer.sizes.right.tail.congr fun i hi => hother i (List.mem_append_right _ hi), ?_, ?_⟩
  · rw [hself, ← List.length_pos_iff]
    omega
  · rw [hself]
    omega

/-- The page and its neighbours are too big to be joined. -/
theorem Erased.stay (s : Erased nodeCount t t₁ h x list row front back children)
    (hlayer : Layer nodeCount t h row₀ (front ++ list :: back))
    (habove : Above nodeCount t (h + 1) (front ++ list :: back) rows)
    (hprev : ∀ q ∈ front.getLast?, 3 ≤ ((t.page (h + 1)).children q).length + (children list).length)
    (hnext : ∀ q ∈ back.head?, 3 ≤ ((t.page (h + 1)).children q).length + (children list).length)
    (hroot : t.level = h + 1 → t.root = some list → (children list).length ≠ 1) :
    Gone t t₁ h x ∧ Above nodeCount t₁ h row ((front ++ list :: back) :: rows) := by
  have hsizes : Sizes nodeCount children (front ++ list :: back) := by
    refine s.left.replace s.right (fun _ _ => rfl) (List.length_pos_iff.2 s.pos) s.count (fun q hq => ?_)
      fun q hq => ?_
    · rw [s.other q (List.mem_append_left _ (List.mem_of_getLast? hq))]
      exact hprev q hq
    · rw [s.other q (List.mem_append_right _ (List.mem_of_head? hq)), Nat.add_comm]
      exact hnext q hq
  refine ⟨s.cut.gone, s.cut.above hlayer.row hlayer.nodeLevel habove s.nested hsizes ?_⟩
  rw [← s.nested.flat]
  by_cases hmany : 2 ≤ (front ++ list :: back).length
  · exact two_le_flatMap hsizes hmany
  · obtain ⟨rfl, rfl⟩ : front = [] ∧ back = [] := by
      rw [List.length_append, List.length_cons] at hmany
      exact ⟨List.length_eq_zero_iff.1 (by omega), List.length_eq_zero_iff.1 (by omega)⟩
    have hsingle := habove.single
    have hmore := hroot hsingle.2 hsingle.1
    have hpos := List.length_pos_iff.2 s.pos
    rw [List.nil_append, List.flatMap_singleton]
    omega

end Collapse


section Remove
variable [Inhabited V] {C : Config V K} {t t₁ : BePlusTree V} {fuel h x y list : ℕ}
  {parent : ℕ → Option ℕ} {children children' : ℕ → List ℕ} {a b c d row row₀ row' : List ℕ}
  {rows : List (List ℕ)}

theorem Cut.generate (e : Cut t t₁ h x parent children) : t₁.generate C h = t.generate C h := by
  funext i
  refine generate_congr e.gone.items (fun k hk => ?_) i
  rcases hk.lt_or_eq with hk | rfl
  · rw [e.page k (by omega) (by omega)]
  · rw [e.low]
    rfl

variable [LinearOrder K]

/-- The row above is in order if the first children of its pages are. -/
theorem Cut.ordered (e : Cut t t₁ h x parent children)
    (hordered : Ordered C t h (row'.flatMap children')) (hchildren : ∀ i ∈ row', children' i ≠ [])
    (hheads : ∀ i ∈ row', (children i).headI = (children' i).headI) : Ordered C t₁ (h + 1) row' := by
  refine (pairwise_heads hordered hchildren).imp_of_mem fun {i j} hi hj hij => ?_
  rw [BePlusTree.generate, BePlusTree.generate, e.high, e.generate]
  dsimp only
  rw [hheads i hi, hheads j hj]
  exact hij

/-- `removePage` removes pages above which there are fewer rows than its fuel allows. -/
def Removes (C : Config V K) (fuel : ℕ) : Prop :=
  ∀ (t : BePlusTree V) (h x : ℕ) (a b row' : List ℕ) (rows : List (List ℕ)), rows.length < fuel →
    Row (t.page h) t.fresh (a ++ x :: b) → Above C.nodeCount t h (a ++ x :: b) (row' :: rows) →
    Ordered C t h (a ++ x :: b) →
    Gone t (t.removePage C fuel h x) h x ∧
      ∃ rows', Above C.nodeCount (t.removePage C fuel h x) h (a ++ b) rows'

/-- After a change the page `y` above is to be removed. -/
theorem Cut.recurse (ih : Removes C fuel) (e : Cut t t₁ h x parent children)
    (hlayer : Layer C.nodeCount t h row₀ (c ++ y :: d))
    (habove : Above C.nodeCount t (h + 1) (c ++ y :: d) rows) (hfuel : rows.length < fuel + 1)
    (hmany : 2 ≤ (c ++ y :: d).length) (hordered : Ordered C t₁ (h + 1) (c ++ y :: d))
    (hnested : Nested parent children row (c ++ d)) (hsizes : Sizes C.nodeCount children (c ++ d))
    (htwo : 2 ≤ row.length) :
    Gone t (t₁.removePage C fuel (h + 1) y) h x ∧
      ∃ rows', Above C.nodeCount (t₁.removePage C fuel (h + 1) y) h row rows' := by
  cases rows with
  | nil =>
    obtain ⟨r, hr, -⟩ := habove
    rw [hr, List.length_singleton] at hmany
    omega
  | cons row'' rows =>
    have hrow : Row (t₁.page (h + 1)) t₁.fresh (c ++ y :: d) := by
      rw [e.high, e.same]
      exact hlayer.row.congr rfl rfl le_rfl
    obtain ⟨hgone, rows', habove'⟩ := ih t₁ (h + 1) y c d row'' rows (Nat.lt_of_succ_lt_succ hfuel) hrow
      (e.rest habove) hordered
    obtain ⟨hgone, habove'⟩ := e.above_gone hgone habove' hlayer.row rfl (fun i hi =>
      hlayer.nodeLevel i (((List.sublist_cons_self y d).append_left c).subset hi)) hnested hsizes htwo
    exact ⟨hgone, _, habove'⟩

section Sole
variable {front back : List ℕ}

/-- The last child of a page goes with the page. -/
theorem sole_above (ih : Removes C fuel)
    (hlayer : Layer C.nodeCount t h (a ++ x :: b) (front ++ list :: back))
    (habove : Above C.nodeCount t (h + 1) (front ++ list :: back) rows) (hfuel : rows.length < fuel + 1)
    (hordered : Ordered C t h (a ++ x :: b)) (hmany : 2 ≤ (front ++ list :: back).length)
    (hlist : (t.page (h + 1)).children list = [x])
    (ha : a = front.flatMap (t.page (h + 1)).children)
    (hb : b = back.flatMap (t.page (h + 1)).children) :
    Gone t ((t.onLevel h (·.unlink x)).removePage C fuel (h + 1) list) h x ∧
      ∃ rows', Above C.nodeCount ((t.onLevel h (·.unlink x)).removePage C fuel (h + 1) list) h (a ++ b)
        rows' := by
  have hone : ((t.page (h + 1)).children list).length = 1 := by
    rw [hlist, List.length_singleton]
  have hflat : (front ++ back).flatMap (t.page (h + 1)).children = a ++ b := by
    rw [List.flatMap_append, ha, hb]
  have e := cut_unlink t h x
  refine e.recurse ih hlayer habove hfuel hmany (e.ordered ?_ (fun i hi => (hlayer.sizes.full i hi).1)
    fun _ _ => rfl) ⟨hflat, fun i hi => hlayer.nested.parent i ?_⟩ (hlayer.sizes.without hone) ?_
  · rw [hlayer.nested.flat]
    exact hordered
  · exact ((List.sublist_cons_self list back).append_left front).subset hi
  · rw [← hflat]
    exact hlayer.sizes.two_without hone hmany

end Sole

/-- The children of `q` come to `p`, and `q` is removed. -/
theorem join_above {p q : ℕ} {front back : List ℕ} (ih : Removes C fuel)
    (e : Cut t t₁ h x parent children)
    (hlayer : Layer C.nodeCount t h row₀ (front ++ p :: q :: back))
    (habove : Above C.nodeCount t (h + 1) (front ++ p :: q :: back) rows) (hfuel : rows.length < fuel + 1)
    (hordered : Ordered C t h row) (hnested : Nested parent children row (front ++ p :: q :: back))
    (hfront : Sizes C.nodeCount children front) (hback : Sizes C.nodeCount children back)
    (hp : children p ≠ []) (hq : children q ≠ [])
    (hsum : (children p).length + (children q).length ≤ C.nodeCount) :
    Gone t ((t₁.joinNodes h p q).removePage C fuel (h + 1) q) h x ∧
      ∃ rows', Above C.nodeCount ((t₁.joinNodes h p q).removePage C fuel (h + 1) q) h row rows' := by
  obtain ⟨-, hpf, -, hpb, -⟩ := nodup_pair hlayer.row.nodup
  have hother : ∀ i ≠ p, Function.update children p (children p ++ children q) i = children i :=
    fun i hi => Function.update_of_ne hi ..
  have hself : Function.update children p (children p ++ children q) p = children p ++ children q :=
    Function.update_self ..
  have hppos := List.length_pos_iff.2 hp
  have hqpos := List.length_pos_iff.2 hq
  have hsizes : Sizes C.nodeCount (Function.update children p (children p ++ children q))
      (front ++ p :: back) := by
    refine hfront.replace_two hback (fun i hi => ?_) ?_ ?_
    · rw [hother]
      rintro rfl
      exact (List.mem_append.1 hi).elim hpf hpb
    · rw [hself, List.length_append]
      omega
    · rw [hself, List.length_append]
      exact hsum
  have hchildren : ∀ i ∈ front ++ p :: q :: back, children i ≠ [] := by
    intro i hi
    simp only [List.mem_append, List.mem_cons] at hi
    rcases hi with hi | rfl | rfl | hi
    · exact (hfront.full i hi).1
    · exact hp
    · exact hq
    · exact (hback.full i hi).1
  have hup := e.join (p := p) (q := q) |>.ordered (by rwa [hnested.flat]) hchildren fun i _ => by
    by_cases hi : i = p
    · rw [hi, hself]
      obtain ⟨z, l, hl⟩ := List.exists_cons_of_ne_nil hp
      rw [hl]
      rfl
    · rw [hother i hi]
  have hjoin := nested_join hnested hlayer.row.nodup
  rw [List.append_cons] at hlayer habove hup
  rw [List.append_cons] at hjoin hsizes
  refine e.join.recurse ih hlayer habove hfuel ?_ hup hjoin hsizes ?_
  · rw [← List.append_cons]
    exact two_le_length ..
  · rw [← hjoin.flat, List.flatMap_append, List.flatMap_append, List.flatMap_singleton, hself,
      List.length_append, List.length_append, List.length_append]
    omega

section Erased
variable {q : ℕ} {front back : List ℕ}

/-- What is left of the page goes to the previous page. -/
theorem Erased.joinPrev (s : Erased C.nodeCount t t₁ h x list row (front ++ [q]) back children)
    (ih : Removes C fuel) (hlayer : Layer C.nodeCount t h row₀ (front ++ [q] ++ list :: back))
    (habove : Above C.nodeCount t (h + 1) (front ++ [q] ++ list :: back) rows)
    (hfuel : rows.length < fuel + 1) (hordered : Ordered C t h row)
    (hneed : needMerge (((t.page (h + 1)).children q).length + (children list).length) C.nodeCount) :
    Gone t ((t₁.joinNodes h q list).removePage C fuel (h + 1) list) h x ∧
      ∃ rows', Above C.nodeCount ((t₁.joinNodes h q list).removePage C fuel (h + 1) list) h row rows' := by
  have hnested := s.nested
  rw [← List.append_cons] at hlayer habove hnested
  have hq := s.other q (List.mem_append_left _ (List.mem_append_right _ List.mem_cons_self))
  refine join_above ih s.cut hlayer habove hfuel hordered hnested s.left.left s.right ?_ s.pos ?_
  · rw [hq]
    exact (hlayer.sizes.full q (List.mem_append_right _ List.mem_cons_self)).1
  · rw [hq]
    exact le_of_needMerge hneed

/-- The children of the next page come to what is left of the page. -/
theorem Erased.joinNext (s : Erased C.nodeCount t t₁ h x list row front (q :: back) children)
    (ih : Removes C fuel) (hlayer : Layer C.nodeCount t h row₀ (front ++ list :: q :: back))
    (habove : Above C.nodeCount t (h + 1) (front ++ list :: q :: back) rows)
    (hfuel : rows.length < fuel + 1) (hordered : Ordered C t h row)
    (hneed : needMerge (((t.page (h + 1)).children q).length + (children list).length) C.nodeCount) :
    Gone t ((t₁.joinNodes h list q).removePage C fuel (h + 1) q) h x ∧
      ∃ rows', Above C.nodeCount ((t₁.joinNodes h list q).removePage C fuel (h + 1) q) h row rows' := by
  have hq := s.other q (List.mem_append_right _ List.mem_cons_self)
  refine join_above ih s.cut hlayer habove hfuel hordered s.nested s.left s.right.tail s.pos ?_ ?_
  · rw [hq]
    exact (hlayer.sizes.full q (List.mem_append_right _ (List.mem_cons_of_mem _ List.mem_cons_self))).1
  · rw [hq, Nat.add_comm]
    exact le_of_needMerge hneed

end Erased

theorem removes (C : Config V K) (fuel : ℕ) : Removes C fuel := by
  induction fuel with
  | zero => exact fun _ _ _ _ _ _ _ hfuel => absurd hfuel (Nat.not_lt_zero _)
  | succ fuel ih =>
    intro t h x a b row' rows hfuel hrow ⟨hlayer, habove⟩ hordered
    obtain ⟨front, list, back, c, d, rfl, hlist, ha, hb, hx⟩ := hlayer.nested.locate hrow.nodup
    have hpage : (t.onLevel h (·.unlink x)).page (h + 1) = t.page (h + 1) :=
      onLevel_page_of_ne _ _ (Nat.succ_ne_self h)
    rw [removePage]
    dsimp only
    rw [hx, Option.getD_some, hpage]
    have hbig : ∀ {count}, ¬ needMerge count C.nodeCount → 3 ≤ count := fun hcount =>
      three_le_of_not_needMerge hcount C.two_le_nodeCount
    obtain ⟨hprev, hnext⟩ := linked_middle hlayer.row.linked
    by_cases hone : ((t.page (h + 1)).children list).length = 1
    · obtain ⟨rfl, rfl⟩ : c = [] ∧ d = [] := by
        rw [hlist, List.length_append, List.length_cons] at hone
        exact ⟨List.length_eq_zero_iff.1 (by omega), List.length_eq_zero_iff.1 (by omega)⟩
      rw [if_pos hone]
      rw [List.append_nil] at ha
      split_ifs with hmerge
      · exact sole_above ih hlayer habove hfuel hordered (hlayer.many hlist) hlist ha hb
      · rw [not_or, hprev, hnext] at hmerge
        obtain ⟨hgone, habove'⟩ := refill_above hlayer habove hrow.nodup hlist ha hb
          (fun q hq => hbig fun hneed => hmerge.1 ((Option.any_eq_true ..).2 ⟨q, hq, decide_eq_true hneed⟩))
          (fun q hq => hbig fun hneed => hmerge.2 ((Option.any_eq_true ..).2 ⟨q, hq, decide_eq_true hneed⟩))
        exact ⟨hgone, _, habove'⟩
    · have hcut := cut_unlink t h x
      have hpos : ((t.onLevel h (·.unlink x)).findNode C (h + 1) list
          ((t.onLevel h (·.unlink x)).generate C ((t.page (h + 1)).nodeLevel list) x)).2 = c.length := by
        rw [findNode, hpage, hlayer.nodeLevel list (List.mem_append_right _ List.mem_cons_self), hlist,
          hcut.generate]
        exact Ordered.find_self (hordered.sublist (children_sublist [x] ha hb))
      have herase : (c ++ x :: d).eraseIdx c.length = c ++ d := by
        rw [List.eraseIdx_append_of_length_le le_rfl, Nat.sub_self, List.eraseIdx_cons_zero]
      rw [if_neg hone, hpos, hlist, herase]
      have s := erased hlayer hlist ha hb hone
      have hordered' : Ordered C t h (a ++ b) :=
        hordered.sublist ((List.sublist_cons_self x b).append_left a)
      have hself : Function.update (t.page (h + 1)).children list (c ++ d) list = c ++ d :=
        Function.update_self ..
      generalize (t.onLevel h (·.unlink x)).setChildren (h + 1) list (c ++ d) = t₁ at s ⊢
      have hlevel : t₁.level = t.level := by rw [s.cut.same]
      have hroot : t₁.root = t.root := by rw [s.cut.same]
      rw [hlevel, hroot]
      by_cases hcollapse : t.level = h + 1 ∧ t.root = some list ∧ (c ++ d).length = 1
      · rw [if_pos hcollapse]
        obtain ⟨r, hr⟩ := List.length_eq_one_iff.1 hcollapse.2.2
        obtain ⟨hgone, habove'⟩ := collapse_above s.cut hcollapse.1 habove
          (List.mem_append_right _ List.mem_cons_self) s.nested (hself.trans hr)
        rw [hr]
        exact ⟨hgone, _, habove'⟩
      rw [if_neg hcollapse, hprev, hnext, ← hself]
      rcases filter_cases (fun temp => decide (needMerge (((t.page (h + 1)).children temp).length +
        (Function.update (t.page (h + 1)).children list (c ++ d) list).length) C.nodeCount))
        front.getLast? with ⟨q, hq, hneed, hfilter⟩ | ⟨hprevBig, hfilter⟩
      · rw [hfilter]
        obtain ⟨front, rfl⟩ := List.getLast?_eq_some_iff.1 hq
        exact s.joinPrev ih hlayer habove hfuel hordered' (of_decide_eq_true hneed)
      rw [hfilter]
      dsimp only
      rcases filter_cases (fun temp => decide (needMerge (((t.page (h + 1)).children temp).length +
        (Function.update (t.page (h + 1)).children list (c ++ d) list).length) C.nodeCount))
        back.head? with ⟨q, hq, hneed, hfilter⟩ | ⟨hnextBig, hfilter⟩
      · rw [hfilter]
        obtain ⟨back, rfl⟩ := List.head?_eq_some_iff.1 hq
        exact s.joinNext ih hlayer habove hfuel hordered' (of_decide_eq_true hneed)
      rw [hfilter]
      obtain ⟨hgone, habove'⟩ := s.stay hlayer habove
        (fun q hq => hbig (of_decide_eq_false (hprevBig q hq)))
        (fun q hq => hbig (of_decide_eq_false (hnextBig q hq))) fun hlevel hroot => by
          rw [hself]
          exact fun h => hcollapse ⟨hlevel, hroot, h⟩
      exact ⟨hgone, _, habove'⟩

/-- A leaf that is not the only one is removed. -/
theorem removeLeaf_above (hrow : Row (t.page 0) t.fresh (a ++ x :: b))
    (habove : Above C.nodeCount t 0 (a ++ x :: b) rows) (hlevel : t.level ≠ 0)
    (hordered : Ordered C t 0 (a ++ x :: b)) :
    Gone t (t.removeLeaf C x) 0 x ∧ ∃ rows', Above C.nodeCount (t.removeLeaf C x) 0 (a ++ b) rows' := by
  have hheight := habove.level
  rw [Nat.zero_add] at hheight
  cases rows with
  | nil => exact absurd hheight hlevel
  | cons row' rows =>
    rw [List.length_cons] at hheight
    exact removes C (t.level + 1) t 0 x a b row' rows (by omega) hrow habove hordered

end Remove

end FirebirdCore.Tree
