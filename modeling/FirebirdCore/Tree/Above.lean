import FirebirdCore.Tree.Update

/-!
# The levels of the tree

A row lists the pages of one height in order. `Above` says how a row hangs under the rows above it,
up to the root: the children of a row, one page after another, are the row below, and their parents
are these pages.
-/
namespace FirebirdCore.Tree
open FirebirdCore.LowerBound FirebirdCore.LinkedRow

/-- The pages of one height, in order. -/
structure Row (L : Level) (fresh : ℕ) (row : List ℕ) : Prop where
  linked : Linked L.next L.prev none row none
  nodup : row.Nodup
  used : ∀ i ∈ row, i < fresh

/-- The pages of `row` are the children of those of `row'`. -/
structure Nested (parent : ℕ → Option ℕ) (children : ℕ → List ℕ) (row row' : List ℕ) : Prop where
  flat : row'.flatMap children = row
  parent : ∀ i ∈ row', ∀ c ∈ children i, parent c = some i

/-- Pages have children, and not too many, and two neighbours have more than one each. -/
structure Sizes (nodeCount : ℕ) (children : ℕ → List ℕ) (row' : List ℕ) : Prop where
  full : ∀ i ∈ row', children i ≠ [] ∧ (children i).length ≤ nodeCount
  wide : row'.IsChain fun i j => 3 ≤ (children i).length + (children j).length

/-- The row `row'` above the row `row` of height `h`. -/
structure Layer {V : Type*} (nodeCount : ℕ) (t : BePlusTree V) (h : ℕ) (row row' : List ℕ) : Prop where
  two : 2 ≤ row.length
  nested : Nested (t.page h).parent (t.page (h + 1)).children row row'
  sizes : Sizes nodeCount (t.page (h + 1)).children row'
  nodeLevel : ∀ i ∈ row', (t.page (h + 1)).nodeLevel i = h
  row : Row (t.page (h + 1)) t.fresh row'

/-- The rows above `row`, which is of height `h`. -/
def Above {V : Type*} (nodeCount : ℕ) (t : BePlusTree V) : ℕ → List ℕ → List (List ℕ) → Prop
  | h, row, [] =>
      ∃ r, row = [r] ∧ t.root = some r ∧ t.level = h ∧ (t.page h).parent r = none
  | h, row, row' :: rows => Layer nodeCount t h row row' ∧ Above nodeCount t (h + 1) row' rows

/-! ## Pages -/

namespace BePlusTree

variable {V : Type*} {t : BePlusTree V} {h k : ℕ}

@[simp] theorem onLevel_page_self (t : BePlusTree V) (h : ℕ) (f : Level → Level) :
    (t.onLevel h f).page h = f (t.page h) :=
  Function.update_self ..

theorem onLevel_page_of_ne (t : BePlusTree V) (f : Level → Level) (hk : k ≠ h) :
    (t.onLevel h f).page k = t.page k :=
  Function.update_of_ne hk ..

theorem newAfter_page_self (t : BePlusTree V) (h x : ℕ) :
    (t.newAfter h x).page h = (t.page h).insertAfter x t.fresh :=
  Function.update_self ..

theorem newAfter_page_of_ne (t : BePlusTree V) (x : ℕ) (hk : k ≠ h) :
    (t.newAfter h x).page k = t.page k :=
  Function.update_of_ne hk ..

theorem onLevel_onLevel (t : BePlusTree V) (h : ℕ) (f g : Level → Level) :
    (t.onLevel h f).onLevel h g = t.onLevel h fun L => g (f L) := by
  simp only [onLevel, Function.update_self, Function.update_idem]

theorem onLevel_comm (t : BePlusTree V) (f g : Level → Level) (hk : h ≠ k) :
    (t.onLevel h f).onLevel k g = (t.onLevel k g).onLevel h f := by
  simp only [onLevel, Function.update_of_ne hk, Function.update_of_ne hk.symm]
  rw [Function.update_comm hk]

/-- Two levels that are changed by turns. -/
theorem onLevel_turns (t : BePlusTree V) {f f' g g' : Level → Level} (hk : h ≠ k) :
    (((t.onLevel h f).onLevel k g).onLevel h f').onLevel k g' =
      (t.onLevel h fun L => f' (f L)).onLevel k fun L => g' (g L) := by
  rw [onLevel_comm _ g f' hk.symm, onLevel_onLevel, onLevel_onLevel]

variable {K : Type*} [Inhabited V] {C : Config V K}

/-- Keys depend on the children of lower pages only. -/
theorem generate_congr {t' : BePlusTree V} (hitems : t'.items = t.items)
    (hchildren : ∀ k ≤ h, (t'.page k).children = (t.page k).children) (i : ℕ) :
    t'.generate C h i = t.generate C h i := by
  induction h generalizing i with
  | zero => rw [generate, generate, hitems]
  | succ h ih =>
    rw [generate, generate, hchildren _ le_rfl]
    exact ih (fun k hk => hchildren k (hk.trans (Nat.le_succ h))) _

theorem generate_onLevel {f : Level → Level} (hf : (f (t.page k)).children = (t.page k).children)
    (h : ℕ) : (t.onLevel k f).generate C h = t.generate C h := by
  have hpage : ∀ j, ((t.onLevel k f).page j).children = (t.page j).children := fun j => by
    by_cases hj : j = k
    · rw [hj, onLevel_page_self, hf]
    · rw [onLevel_page_of_ne _ _ hj]
  have hitems : (t.onLevel k f).items = t.items := rfl
  funext i
  exact generate_congr hitems (fun j _ => hpage j) i

end BePlusTree

/-! ## Rows -/

section Row
variable {parent parent' : ℕ → Option ℕ} {children children' : ℕ → List ℕ} {row row' a b : List ℕ}
  {nodeCount x : ℕ}

theorem split_unique {a₁ b₁ a₂ b₂ : List ℕ} (hnodup : (a₁ ++ x :: b₁).Nodup)
    (h : a₁ ++ x :: b₁ = a₂ ++ x :: b₂) : a₁ = a₂ ∧ b₁ = b₂ := by
  obtain ⟨-, hrest, hdisjoint⟩ := List.nodup_append.1 hnodup
  have hsplit := (List.append_cons_inj_of_notMem
    (fun hx => hdisjoint x hx x List.mem_cons_self rfl) (List.nodup_cons.1 hrest).1).1 h
  exact ⟨hsplit.1, hsplit.2.2⟩

theorem eq_of_append_cons {r : ℕ} (h : a ++ x :: b = [r]) : a = [] ∧ x = r ∧ b = [] := by
  cases a with
  | nil =>
    rw [List.nil_append, List.cons.injEq] at h
    exact ⟨rfl, h⟩
  | cons y a => simp at h

/-- The place of a page of the row among the children of the row above. -/
theorem Nested.locate (h : Nested parent children (a ++ x :: b) row') (hnodup : (a ++ x :: b).Nodup) :
    ∃ a' list b' c d, row' = a' ++ list :: b' ∧ children list = c ++ x :: d ∧
      a = a'.flatMap children ++ c ∧ b = d ++ b'.flatMap children ∧ parent x = some list := by
  have hx : x ∈ row'.flatMap children := h.flat ▸ List.mem_append_right _ List.mem_cons_self
  obtain ⟨list, hlist, hx⟩ := List.mem_flatMap.1 hx
  obtain ⟨a', b', hrow'⟩ := List.append_of_mem hlist
  obtain ⟨c, d, hchildren⟩ := List.append_of_mem hx
  have hflat := h.flat
  rw [hrow', List.flatMap_append, List.flatMap_cons, hchildren, List.append_assoc, List.cons_append,
    ← List.append_assoc] at hflat
  obtain ⟨ha, hb⟩ := split_unique hnodup hflat.symm
  exact ⟨a', list, b', c, d, hrow', hchildren, ha, hb, h.parent list hlist x hx⟩

theorem Sizes.mono (h : Sizes nodeCount children row')
    (hle : ∀ i, (children i).length ≤ (children' i).length)
    (hcount : ∀ i ∈ row', (children' i).length ≤ nodeCount) : Sizes nodeCount children' row' where
  full i hi := by
    refine ⟨fun hnil => (h.full i hi).1 (List.length_eq_zero_iff.1 ?_), hcount i hi⟩
    have hle := hle i
    rw [hnil, List.length_nil] at hle
    exact Nat.le_zero.1 hle
  wide := h.wide.imp fun i j hij => by
    have hi := hle i
    have hj := hle j
    omega

theorem headI_mem {α : Type*} [Inhabited α] {xs : List α} (h : xs ≠ []) : xs.headI ∈ xs := by
  cases xs with
  | nil => exact absurd rfl h
  | cons x xs => exact List.mem_cons_self

/-- What holds between the members of some lists holds between the first members. -/
theorem pairwise_heads {α : Type*} [Inhabited α] {f : ℕ → List α} {R : α → α → Prop}
    (h : (row'.flatMap f).Pairwise R) (hf : ∀ i ∈ row', f i ≠ []) :
    row'.Pairwise fun i j => R (f i).headI (f j).headI := by
  induction row' with
  | nil => exact List.Pairwise.nil
  | cons i row' ih =>
    rw [List.flatMap_cons, List.pairwise_append] at h
    obtain ⟨hi, hrow'⟩ := List.forall_mem_cons.1 hf
    exact List.pairwise_cons.2 ⟨fun j hj => h.2.2 _ (headI_mem hi) _
      (List.mem_flatMap.2 ⟨j, hj, headI_mem (hrow' j hj)⟩), ih h.2.1 hrow'⟩

theorem Row.insertAfter {L : Level} {fresh : ℕ} (h : Row L fresh (a ++ x :: b)) :
    Row (L.insertAfter x fresh) (fresh + 1) (a ++ x :: fresh :: b) := by
  have hfresh : fresh ∉ a ++ x :: b := fun hmem => lt_irrefl _ (h.used _ hmem)
  refine ⟨h.linked.insertAfter h.nodup hfresh, ?_, fun i hi => ?_⟩
  · rw [← List.singleton_append, ← List.append_assoc, List.nodup_middle, List.append_assoc]
    exact List.nodup_cons.2 ⟨hfresh, h.nodup⟩
  · rw [← List.singleton_append, ← List.append_assoc, List.mem_append, List.mem_cons,
      or_left_comm, ← List.mem_append, List.append_assoc] at hi
    rcases hi with rfl | hi
    · exact Nat.lt_succ_self _
    · exact (h.used i hi).trans (Nat.lt_succ_self _)

theorem Row.unlink {L : Level} {fresh : ℕ} (h : Row L fresh (a ++ x :: b)) :
    Row (L.unlink x) fresh (a ++ b) where
  linked := h.linked.unlink h.nodup
  nodup := h.nodup.sublist ((List.sublist_cons_self x b).append_left a)
  used i hi := h.used i (((List.sublist_cons_self x b).append_left a).subset hi)

/-- Parents, children and levels are not what a row is about. -/
theorem Row.congr {L L' : Level} {fresh fresh' : ℕ} (h : Row L fresh row) (hnext : L'.next = L.next)
    (hprev : L'.prev = L.prev) (hfresh : fresh ≤ fresh') : Row L' fresh' row where
  linked := by
    rw [hnext, hprev]
    exact h.linked
  nodup := h.nodup
  used i hi := (h.used i hi).trans_le hfresh

end Row

section Above
variable {V : Type*} {t t' : BePlusTree V} {nodeCount h : ℕ} {row row' : List ℕ} {rows : List (List ℕ)}

theorem Layer.ne_nil (hlayer : Layer nodeCount t h row row') : row' ≠ [] := by
  rintro rfl
  have htwo := hlayer.two
  rw [← hlayer.nested.flat, List.flatMap_nil, List.length_nil] at htwo
  omega

theorem Above.level (hab : Above nodeCount t h row rows) : t.level = h + rows.length := by
  induction rows generalizing h row with
  | nil =>
    obtain ⟨r, -, -, hlevel, -⟩ := hab
    exact hlevel
  | cons row' rows ih =>
    rw [ih hab.2, List.length_cons]
    omega

/-- The only page of a height is the root. -/
theorem Above.single {r : ℕ} (hab : Above nodeCount t h [r] rows) : t.root = some r ∧ t.level = h := by
  cases rows with
  | nil =>
    obtain ⟨r', hr, hroot, hlevel, -⟩ := hab
    rw [List.cons.injEq] at hr
    exact ⟨hr.1 ▸ hroot, hlevel⟩
  | cons row' rows => exact absurd hab.1.two (by simp)

/-- What is above a row depends on the parents of its pages and on the pages above only. -/
theorem Above.congr (hab : Above nodeCount t h row rows) (hroot : t'.root = t.root)
    (hlevel : t'.level = t.level) (hfresh : t.fresh ≤ t'.fresh)
    (hparent : ∀ i ∈ row, (t'.page h).parent i = (t.page h).parent i)
    (hpage : ∀ k > h, t'.page k = t.page k) : Above nodeCount t' h row rows := by
  induction rows generalizing h row with
  | nil =>
    obtain ⟨r, rfl, hr, rfl, hnone⟩ := hab
    exact ⟨r, rfl, hroot.trans hr, hlevel, (hparent r List.mem_cons_self).trans hnone⟩
  | cons row' rows ih =>
    obtain ⟨hlayer, hrows⟩ := hab
    have hpage' := hpage (h + 1) (Nat.lt_succ_self h)
    refine ⟨⟨hlayer.two, ⟨?_, fun i hi c hc => ?_⟩, ?_, ?_, ?_⟩,
      ih hrows (fun i _ => by rw [hpage']) fun k hk => hpage k ((Nat.lt_succ_self h).trans hk)⟩
    · rw [hpage']
      exact hlayer.nested.flat
    · rw [hpage'] at hc
      rw [hparent c (hlayer.nested.flat ▸ List.mem_flatMap.2 ⟨i, hi, hc⟩)]
      exact hlayer.nested.parent i hi c hc
    · rw [hpage']
      exact hlayer.sizes
    · rw [hpage']
      exact hlayer.nodeLevel
    · rw [hpage']
      exact hlayer.row.congr rfl rfl hfresh

end Above

/-! ## Keys -/

section Keys
variable {V K : Type*} [Inhabited V] [LinearOrder K] {C : Config V K} {t : BePlusTree V} {h x n : ℕ}
  {c d row row' : List ℕ}

/-- The pages are in order of their keys. -/
def Ordered (C : Config V K) (t : BePlusTree V) (h : ℕ) (row : List ℕ) : Prop :=
  row.Pairwise fun i j => t.generate C h i < t.generate C h j

theorem Ordered.up (hrow : Ordered C t h (row'.flatMap (t.page (h + 1)).children))
    (hchildren : ∀ i ∈ row', (t.page (h + 1)).children i ≠ []) : Ordered C t (h + 1) row' :=
  pairwise_heads hrow hchildren

/-- The place of a page that follows `x`. -/
theorem Ordered.find_new (hrow : Ordered C t h (c ++ x :: n :: d)) :
    (findSorted (t.generate C h) (c ++ x :: d) (t.generate C h n)).2 = c.length + 1 := by
  rw [Ordered, ← List.singleton_append, ← List.append_assoc, List.pairwise_append,
    List.pairwise_cons] at hrow
  obtain ⟨-, ⟨hback, -⟩, hfront⟩ := hrow
  rw [← List.singleton_append, ← List.append_assoc,
    findSorted_append (fun i hi => hfront i hi n List.mem_cons_self) (fun i hi => (hback i hi).le),
    List.length_append, List.length_singleton]

/-- The place of a page is found by its key. -/
theorem Ordered.find_self (hrow : Ordered C t h (c ++ x :: d)) :
    (findSorted (t.generate C h) (c ++ x :: d) (t.generate C h x)).2 = c.length := by
  rw [Ordered, List.pairwise_append, List.pairwise_cons] at hrow
  obtain ⟨-, ⟨hback, -⟩, hfront⟩ := hrow
  rw [findSorted_append (fun i hi => hfront i hi x List.mem_cons_self)]
  exact List.forall_mem_cons.2 ⟨le_rfl, fun i hi => (hback i hi).le⟩

end Keys

end FirebirdCore.Tree
