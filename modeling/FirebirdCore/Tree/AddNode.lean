import FirebirdCore.Tree.Above

/-!
# Adding a page

A new page follows its neighbour in the row already. `addNode` puts its address behind that of the
neighbour one level above, where another page may have to be made for it.
-/
namespace FirebirdCore.Tree
open FirebirdCore.LowerBound FirebirdCore.LinkedRow BePlusTree

variable {V K : Type*}

theorem insertAt_append {α : Type*} (front back : List α) (x : α) :
    insertAt (front ++ back) front.length x = front ++ x :: back := by
  rw [insertAt, List.take_left, List.drop_left]

theorem getD_append_cons {α : Type*} (front back : List α) (x y : α) :
    (front ++ x :: back).getD front.length y = x := by
  rw [List.getD_eq_getElem?_getD, List.getElem?_append_right le_rfl, Nat.sub_self]
  rfl

theorem getD_concat {α : Type*} (front : List α) (x y : α) : (front ++ [x]).getD front.length y = x :=
  getD_append_cons front [] x y

theorem filter_cases {α : Type*} (p : α → Bool) (x? : Option α) :
    (∃ x, x? = some x ∧ p x = true ∧ x?.filter p = some x) ∨
      (∀ x ∈ x?, p x = false) ∧ x?.filter p = none := by
  cases x? with
  | none => exact .inr ⟨fun x hx => (nomatch hx), rfl⟩
  | some x =>
    cases hx : p x with
    | true => exact .inl ⟨x, rfl, hx, Option.filter_some_pos hx⟩
    | false =>
      refine .inr ⟨fun y hy => Option.some.inj hy ▸ hx, Option.filter_some_neg ?_⟩
      rw [hx]

/-- Parents of height `h` and children of height `h + 1` were changed, and the page `n` of height `h`
was told its level. -/
structure Edit (t t' : BePlusTree V) (h n : ℕ) (parent : ℕ → Option ℕ) (children : ℕ → List ℕ) :
    Prop where
  same : t' = { t with page := t'.page }
  page : ∀ k, k ≠ h → k ≠ h + 1 → t'.page k = t.page k
  low : ∃ nodeLevel, t'.page h = { t.page h with
    parent := parent
    nodeLevel := nodeLevel } ∧
    (∀ i ≠ n, nodeLevel i = (t.page h).nodeLevel i) ∧ (h ≠ 0 → nodeLevel n = h - 1)
  high : t'.page (h + 1) = { t.page (h + 1) with children := children }

/-- What `setNodeParentAndLevel` does to the pages of a height. -/
def Level.adopt (L : Level) (h i parent : ℕ) : Level :=
  if h = 0 then L.setParent i (some parent) else (L.setParent i (some parent)).setNodeLevel i (h - 1)

theorem Level.adopt_eq (L : Level) (h i p : ℕ) :
    ∃ nodeLevel, L.adopt h i p = { L with
      parent := Function.update L.parent i (some p)
      nodeLevel := nodeLevel } ∧
      (∀ j ≠ i, nodeLevel j = L.nodeLevel j) ∧ (h ≠ 0 → nodeLevel i = h - 1) := by
  rw [Level.adopt]
  by_cases hh : h = 0
  · rw [if_pos hh]
    exact ⟨_, rfl, fun _ _ => rfl, fun h => absurd hh h⟩
  · rw [if_neg hh]
    exact ⟨_, rfl, fun j hj => Function.update_of_ne hj .., fun _ => Function.update_self ..⟩

theorem Level.adopt_children (L : Level) (h i p : ℕ) : (L.adopt h i p).children = L.children := by
  obtain ⟨_, hadopt, -⟩ := L.adopt_eq h i p
  rw [hadopt]

theorem setNodeParentAndLevel_eq (t : BePlusTree V) (h i parent : ℕ) :
    t.setNodeParentAndLevel h i parent = t.onLevel h (·.adopt h i parent) := by
  rw [setNodeParentAndLevel]
  by_cases hh : h = 0
  · rw [if_pos hh, setNodeParent]
    simp only [Level.adopt, if_pos hh]
  · rw [if_neg hh, setNodeParent, onLevel_onLevel]
    simp only [Level.adopt, if_neg hh]

/-- Two changes of levels, of which the lower one adopts the page `n`. -/
theorem edit_of_onLevel (t : BePlusTree V) (h n p : ℕ) {parent : ℕ → Option ℕ}
    {children : ℕ → List ℕ} {f g : Level → Level}
    (hf : f (t.page h) = Level.adopt { t.page h with parent := parent } h n p)
    (hg : g (t.page (h + 1)) = { t.page (h + 1) with children := children }) :
    Edit t ((t.onLevel h f).onLevel (h + 1) g) h n (Function.update parent n (some p)) children where
  same := rfl
  page k hk hk' := by rw [onLevel_page_of_ne _ _ hk', onLevel_page_of_ne _ _ hk]
  low := by
    rw [onLevel_page_of_ne _ _ (Nat.ne_of_lt (Nat.lt_succ_self h)), onLevel_page_self, hf]
    exact Level.adopt_eq ..
  high := by
    rw [onLevel_page_self, onLevel_page_of_ne _ _ (Nat.succ_ne_self h), hg]

section Edits
variable {C : Config V K} {t : BePlusTree V} {h x n list q : ℕ} {c d : List ℕ}

theorem update_two {f : ℕ → Option ℕ} {y n : ℕ} (v w : Option ℕ) (hy : y ≠ n) :
    Function.update (Function.update f y v) n w =
      fun i => if i = y then v else if i = n then w else f i := by
  funext i
  by_cases hin : i = n
  · rw [if_neg (hin ▸ hy.symm), if_pos hin, hin, Function.update_self]
  · rw [if_neg hin, Function.update_of_ne hin]
    by_cases hi : i = y
    · rw [if_pos hi, hi, Function.update_self]
    · rw [if_neg hi, Function.update_of_ne hi]

/-- Of the children and the new page the last one goes to the front of the page `q`. -/
theorem spillNext_edit (hne : list ≠ q) (hchildren : (t.page (h + 1)).children list = c ++ x :: d)
    (hfull : (c ++ x :: d).length = C.nodeCount) (hn : n ∉ c ++ x :: d) :
    ∃ l m, l ++ [m] = c ++ x :: n :: d ∧
      Edit t (t.spillNext C h list n (c.length + 1) q) h n
        (fun i => if i = m then some q else if i = n then some list else (t.page h).parent i)
        (Function.update (Function.update (t.page (h + 1)).children q
          (m :: (t.page (h + 1)).children q)) list l) := by
  rw [spillNext]
  dsimp only
  rw [hchildren]
  rw [List.length_append, List.length_cons] at hfull
  rcases List.eq_nil_or_concat' d with rfl | ⟨d, y, rfl⟩
  · have hparent : (fun i => if i = n then some q else if i = n then some list
        else (t.page h).parent i) = Function.update (t.page h).parent n (some q) := by
      funext i
      by_cases hi : i = n
      · rw [if_pos hi, hi, Function.update_self]
      · rw [if_neg hi, if_neg hi, Function.update_of_ne hi]
    have hkept : Function.update (Function.update (t.page (h + 1)).children q
        (n :: (t.page (h + 1)).children q)) list (c ++ [x]) =
        Function.update (t.page (h + 1)).children q (n :: (t.page (h + 1)).children q) := by
      rw [← hchildren, Function.update_comm hne.symm, Function.update_eq_self]
    refine ⟨c ++ [x], n, by rw [List.append_assoc]; rfl, ?_⟩
    rw [if_pos (by rw [← hfull]; rfl), hparent, hkept, setNodeParentAndLevel_eq]
    exact edit_of_onLevel t h n q rfl rfl
  · have hy : y ≠ n := fun h => hn (h ▸ by simp)
    have hlength : C.nodeCount - 1 = (c ++ x :: d).length := by
      rw [List.length_append, List.length_cons, ← hfull, List.length_append, List.length_singleton]
      omega
    have hpos : c.length + 1 ≠ C.nodeCount := by
      rw [← hfull, List.length_append, List.length_singleton]
      omega
    have hsplit : c ++ x :: (d ++ [y]) = (c ++ x :: d) ++ [y] := by
      rw [List.append_assoc, List.cons_append]
    have hlast : (c ++ x :: (d ++ [y])).getD (C.nodeCount - 1) 0 = y := by
      rw [hlength, hsplit, getD_concat]
    have htake : (c ++ x :: (d ++ [y])).take (C.nodeCount - 1) = (c ++ [x]) ++ d := by
      rw [hlength, hsplit, List.take_left, List.append_assoc, List.singleton_append]
    have hinsert : insertAt ((c ++ [x]) ++ d) (c.length + 1) n = c ++ x :: n :: d := by
      rw [← List.length_singleton (a := x), ← List.length_append, insertAt_append, List.append_assoc]
      rfl
    refine ⟨c ++ x :: n :: d, y, by rw [List.append_assoc]; rfl, ?_⟩
    rw [if_neg hpos, hlast, htake, hinsert, ← update_two _ _ hy, setNodeParentAndLevel_eq]
    simp only [setNodeParent, setChildren]
    rw [onLevel_turns _ (Nat.ne_of_lt (Nat.lt_succ_self h))]
    exact edit_of_onLevel t h n list rfl rfl

/-- Of the children and the new page the first one goes to the end of the page `q`. -/
theorem spillPrev_edit (hchildren : (t.page (h + 1)).children list = c ++ x :: d)
    (hn : n ∉ c ++ x :: d) :
    ∃ l m, m :: l = c ++ x :: n :: d ∧
      Edit t (t.spillPrev h list n (c.length + 1) q) h n
        (fun i => if i = m then some q else if i = n then some list else (t.page h).parent i)
        (Function.update (Function.update (t.page (h + 1)).children q
          ((t.page (h + 1)).children q ++ [m])) list l) := by
  obtain ⟨y, e, hfirst⟩ : ∃ y e, c ++ [x] = y :: e := by
    cases c with
    | nil => exact ⟨x, [], rfl⟩
    | cons y c => exact ⟨y, c ++ [x], rfl⟩
  have hall : c ++ x :: d = y :: (e ++ d) := by
    rw [List.append_cons, hfirst, List.cons_append]
  have hy : y ≠ n := fun h => hn (by rw [hall, h]; exact List.mem_cons_self)
  have hlength : c.length = e.length := by
    have hlength := congrArg List.length hfirst
    rwa [List.length_append, List.length_singleton, List.length_cons, Nat.add_right_cancel_iff] at hlength
  rw [spillPrev]
  dsimp only
  rw [hchildren, hall, if_neg (Nat.succ_ne_zero _), Nat.add_sub_cancel, hlength]
  refine ⟨e ++ n :: d, y, ?_, ?_⟩
  · rw [List.append_cons c x, hfirst, List.cons_append]
  · rw [← update_two _ _ hy, setNodeParentAndLevel_eq]
    simp only [setNodeParent, setChildren, List.eraseIdx_cons_zero, List.getD_cons_zero, insertAt_append]
    rw [onLevel_turns _ (Nat.ne_of_lt (Nat.lt_succ_self h))]
    exact edit_of_onLevel t h n list rfl rfl

variable [Inhabited V] [LinearOrder K]

theorem addChild_edit (hlevel : (t.page (h + 1)).nodeLevel list = h)
    (hchildren : (t.page (h + 1)).children list = c ++ x :: d)
    (hordered : Ordered C t h (c ++ x :: n :: d)) :
    Edit t ((t.setNodeParentAndLevel h n list).addChild C (h + 1) list n) h n
      (Function.update (t.page h).parent n (some list))
      (Function.update (t.page (h + 1)).children list (c ++ x :: n :: d)) := by
  have hne : h + 1 ≠ h := Nat.succ_ne_self h
  have hadopt := Level.adopt_children (t.page h) h n list
  rw [addChild, findNode, setNodeParentAndLevel_eq, onLevel_page_of_ne _ _ hne, hlevel, hchildren,
    generate_onLevel hadopt, hordered.find_new, ← List.length_singleton, ← List.length_append, List.append_cons,
    insertAt_append]
  refine edit_of_onLevel t h n list rfl ?_
  rw [List.append_assoc]
  rfl

end Edits

/-! ## The new page among the children -/

section Nested
variable {parent : ℕ → Option ℕ} {children : ℕ → List ℕ} {a b a' b' c d l : List ℕ} {x n m list q : ℕ}

theorem flatMap_update_of_notMem {α : Type*} {f : ℕ → List α} {i : ℕ} {row : List ℕ} (hi : i ∉ row)
    (v : List α) : row.flatMap (Function.update f i v) = row.flatMap f :=
  List.flatMap_congr fun j hj => Function.update_of_ne (fun h : j = i => hi (h ▸ hj)) ..

theorem nodup_pair {i j : ℕ} (h : (a' ++ i :: j :: b').Nodup) :
    i ≠ j ∧ i ∉ a' ∧ j ∉ a' ∧ i ∉ b' ∧ j ∉ b' := by
  obtain ⟨-, hrest, hdisjoint⟩ := List.nodup_append.1 h
  obtain ⟨hi, hrest⟩ := List.nodup_cons.1 hrest
  obtain ⟨hj, -⟩ := List.nodup_cons.1 hrest
  rw [List.mem_cons, not_or] at hi
  exact ⟨hi.1, fun hmem => hdisjoint i hmem i List.mem_cons_self rfl,
    fun hmem => hdisjoint j hmem j (List.mem_cons_of_mem _ List.mem_cons_self) rfl, hi.2, hj⟩

/-- The parents, after `m` has gone to `q` and `n` has come to `list`, if it is not `m` itself. -/
theorem spill_parent {row row' more : List ℕ} (hnested : Nested parent children row row')
    (hn : n ∉ row) (hlist : list ∈ row') (hne : list ≠ q) (hm : m = n ∨ m ∈ children list)
    (hl : ∀ i ∈ l, i ≠ m ∧ (i = n ∨ i ∈ children list)) (hmore : ∀ i ∈ more, i = m ∨ i ∈ children q) :
    ∀ i ∈ row', ∀ k ∈ Function.update (Function.update children q more) list l i,
      (if k = m then some q else if k = n then some list else parent k) = some i := by
  intro i hi k hk
  have hfree : ∀ j ∈ row', ∀ k ∈ children j, k ≠ n := fun j hj k hk hkn =>
    hn (hnested.flat ▸ List.mem_flatMap.2 ⟨j, hj, hkn ▸ hk⟩)
  have hother : ∀ j ∈ row', list ≠ j → ∀ k ∈ children j, k ≠ m := fun j hj hj' k hk hkm => by
    rcases hm with hm | hm
    · exact hfree j hj k hk (hkm.trans hm)
    · have hlist := hnested.parent list hlist m hm
      rw [← hkm, hnested.parent j hj k hk] at hlist
      exact hj' (Option.some.inj hlist).symm
  by_cases hilist : i = list
  · subst hilist
    rw [Function.update_self] at hk
    obtain ⟨hkm, hk⟩ := hl k hk
    rw [if_neg hkm]
    rcases hk with hk | hk
    · rw [if_pos hk]
    · rw [if_neg (hfree i hi k hk), hnested.parent i hi k hk]
  · rw [Function.update_of_ne hilist] at hk
    by_cases hiq : i = q
    · subst hiq
      rw [Function.update_self] at hk
      rcases hmore k hk with hkm | hk
      · rw [if_pos hkm]
      · rw [if_neg (hother i hi hne k hk), if_neg (hfree i hi k hk), hnested.parent i hi k hk]
    · rw [Function.update_of_ne hiq] at hk
      rw [if_neg (hother i hi (Ne.symm hilist) k hk), if_neg (hfree i hi k hk),
        hnested.parent i hi k hk]

/-- A new page among the children of `list`. -/
theorem nested_add (hnested : Nested parent children (a ++ x :: b) (a' ++ list :: b'))
    (hrow' : (a' ++ list :: b').Nodup) (hn : n ∉ a ++ x :: b) (hlist : children list = c ++ x :: d)
    (ha : a = a'.flatMap children ++ c) (hb : b = d ++ b'.flatMap children) :
    Nested (Function.update parent n (some list)) (Function.update children list (c ++ x :: n :: d))
      (a ++ x :: n :: b) (a' ++ list :: b') := by
  obtain ⟨-, hrest, hdisjoint⟩ := List.nodup_append.1 hrow'
  have hfront : list ∉ a' := fun h => hdisjoint list h list List.mem_cons_self rfl
  have hback : list ∉ b' := (List.nodup_cons.1 hrest).1
  refine ⟨?_, fun i hi k hk => ?_⟩
  · rw [List.flatMap_append, List.flatMap_cons, flatMap_update_of_notMem hfront,
      flatMap_update_of_notMem hback, Function.update_self, ha, hb]
    simp only [List.append_assoc, List.cons_append]
  · have hfree : ∀ j ∈ a' ++ list :: b', ∀ k ∈ children j, k ≠ n := fun j hj k hk hkn =>
      hn (hnested.flat ▸ List.mem_flatMap.2 ⟨j, hj, hkn ▸ hk⟩)
    by_cases hkn : k = n
    · subst hkn
      rw [Function.update_self]
      by_cases hi' : i = list
      · rw [hi']
      · rw [Function.update_of_ne hi'] at hk
        exact absurd rfl (hfree i hi k hk)
    · rw [Function.update_of_ne hkn]
      refine hnested.parent i hi k ?_
      by_cases hi' : i = list
      · rw [hi', Function.update_self] at hk
        rw [hi', hlist]
        simp only [List.mem_append, List.mem_cons] at hk ⊢
        tauto
      · rwa [Function.update_of_ne hi'] at hk

/-- The children of a page are among the row below. -/
theorem children_sublist {A B : List ℕ} (l : List ℕ) (ha : a = A ++ c) (hb : b = d ++ B) :
    (c ++ (l ++ d)).Sublist (a ++ (l ++ b)) := by
  have hall : A ++ c ++ (l ++ (d ++ B)) = A ++ (c ++ (l ++ d) ++ B) := by
    simp only [List.append_assoc]
  rw [ha, hb, hall]
  exact (List.sublist_append_left ..).trans (List.sublist_append_right ..)

theorem notMem_children {A B : List ℕ} (hn : n ∉ a ++ x :: b) (ha : a = A ++ c) (hb : b = d ++ B) :
    n ∉ c ++ x :: d :=
  fun h => hn ((children_sublist [x] ha hb).subset h)

theorem new_children {A B : List ℕ} (hrow : (a ++ x :: b).Nodup) (hn : n ∉ a ++ x :: b)
    (hlist : children list = c ++ x :: d) (ha : a = A ++ c) (hb : b = d ++ B) :
    (c ++ x :: n :: d).Nodup ∧ ∀ i ∈ c ++ x :: n :: d, i = n ∨ i ∈ children list := by
  have hsub : (c ++ x :: d).Sublist (a ++ x :: b) := children_sublist [x] ha hb
  constructor
  · rw [← List.singleton_append, ← List.append_assoc, List.nodup_middle, List.append_assoc]
    exact List.nodup_cons.2 ⟨fun h => hn (hsub.subset h), hrow.sublist hsub⟩
  · intro i hi
    rw [hlist]
    simp only [List.mem_append, List.mem_cons] at hi ⊢
    tauto

theorem nested_spillNext (hnested : Nested parent children (a ++ x :: b) (a' ++ list :: q :: b'))
    (hrow' : (a' ++ list :: q :: b').Nodup) (hrow : (a ++ x :: b).Nodup) (hn : n ∉ a ++ x :: b)
    (hlist : children list = c ++ x :: d) (ha : a = a'.flatMap children ++ c)
    (hb : b = d ++ (q :: b').flatMap children) (hl : l ++ [m] = c ++ x :: n :: d) :
    Nested (fun i => if i = m then some q else if i = n then some list else parent i)
      (Function.update (Function.update children q (m :: children q)) list l)
      (a ++ x :: n :: b) (a' ++ list :: q :: b') := by
  obtain ⟨hne, hlist', hq', hlistb, hqb⟩ := nodup_pair hrow'
  obtain ⟨hnodup, hmem⟩ := new_children hrow hn hlist ha hb
  rw [← hl] at hnodup hmem
  refine ⟨?_, spill_parent hnested hn (List.mem_append_right _ List.mem_cons_self) hne
    (hmem m (List.mem_append_right _ List.mem_cons_self)) (fun i hi => ⟨?_, ?_⟩) fun i hi =>
      List.mem_cons.1 hi⟩
  · rw [List.flatMap_append, List.flatMap_cons, List.flatMap_cons, flatMap_update_of_notMem hlist',
      flatMap_update_of_notMem hq', flatMap_update_of_notMem hlistb, flatMap_update_of_notMem hqb,
      Function.update_self, Function.update_of_ne hne.symm, Function.update_self, List.cons_append,
      List.append_cons, hl, ha, hb, List.flatMap_cons]
    simp only [List.append_assoc, List.cons_append]
  · rintro rfl
    exact (List.nodup_append.1 hnodup).2.2 i hi i List.mem_cons_self rfl
  · exact hmem i (List.mem_append_left _ hi)

theorem nested_spillPrev (hnested : Nested parent children (a ++ x :: b) (a' ++ q :: list :: b'))
    (hrow' : (a' ++ q :: list :: b').Nodup) (hrow : (a ++ x :: b).Nodup) (hn : n ∉ a ++ x :: b)
    (hlist : children list = c ++ x :: d) (ha : a = (a' ++ [q]).flatMap children ++ c)
    (hb : b = d ++ b'.flatMap children) (hl : m :: l = c ++ x :: n :: d) :
    Nested (fun i => if i = m then some q else if i = n then some list else parent i)
      (Function.update (Function.update children q (children q ++ [m])) list l)
      (a ++ x :: n :: b) (a' ++ q :: list :: b') := by
  obtain ⟨hne, hq', hlist', hqb, hlistb⟩ := nodup_pair hrow'
  obtain ⟨hnodup, hmem⟩ := new_children hrow hn hlist ha hb
  rw [← hl] at hnodup hmem
  refine ⟨?_, spill_parent hnested hn
    (List.mem_append_right _ (List.mem_cons_of_mem _ List.mem_cons_self)) hne.symm
    (hmem m List.mem_cons_self) (fun i hi => ⟨?_, hmem i (List.mem_cons_of_mem _ hi)⟩) fun i hi => ?_⟩
  · rw [List.flatMap_append, List.flatMap_cons, List.flatMap_cons, flatMap_update_of_notMem hlist',
      flatMap_update_of_notMem hq', flatMap_update_of_notMem hlistb, flatMap_update_of_notMem hqb,
      Function.update_self, Function.update_of_ne hne, Function.update_self, List.append_assoc,
      ← List.append_assoc [m], List.singleton_append, hl, ha, hb, List.flatMap_append,
      List.flatMap_singleton]
    simp only [List.append_assoc, List.cons_append]
  · rintro rfl
    exact (List.nodup_cons.1 hnodup).1 hi
  · rcases List.mem_append.1 hi with hi | hi
    · exact .inr hi
    · exact .inl (List.mem_singleton.1 hi)

end Nested

/-! ## Adding the page above -/

/-- What adding a page `n` of height `h` does not change. -/
structure Kept (t t' : BePlusTree V) (h n : ℕ) : Prop where
  items : t'.items = t.items
  defaultAccessor : t'.defaultAccessor = t.defaultAccessor
  fresh : t.fresh ≤ t'.fresh
  below : ∀ k < h, t'.page k = t.page k
  links : ∃ parent nodeLevel, t'.page h = { t.page h with
    parent := parent
    nodeLevel := nodeLevel } ∧
    (∀ i ≠ n, nodeLevel i = (t.page h).nodeLevel i) ∧ (h ≠ 0 → nodeLevel n = h - 1)

section Add
variable {t t' : BePlusTree V} {nodeCount h n x list q : ℕ} {parent : ℕ → Option ℕ}
  {children : ℕ → List ℕ} {a b c d row row' : List ℕ} {rows : List (List ℕ)}

theorem Edit.kept (e : Edit t t' h n parent children) : Kept t t' h n where
  items := by rw [e.same]
  defaultAccessor := by rw [e.same]
  fresh := by rw [e.same]
  below k hk := e.page k (by omega) (by omega)
  links := ⟨parent, e.low⟩

theorem Edit.above (e : Edit t t' h n parent children) (hrow : Row (t.page (h + 1)) t.fresh row')
    (hlevel : ∀ i ∈ row', (t.page (h + 1)).nodeLevel i = h) (habove : Above nodeCount t (h + 1) row' rows)
    (hnested : Nested parent children row row') (hsizes : Sizes nodeCount children row')
    (htwo : 2 ≤ row.length) : Above nodeCount t' h row (row' :: rows) := by
  obtain ⟨nodeLevel, hlow, -⟩ := e.low
  have hfresh : t'.fresh = t.fresh := by rw [e.same]
  refine ⟨⟨htwo, ?_, ?_, fun i hi => ?_, ?_⟩, habove.congr ?_ ?_ hfresh.ge (fun i _ => ?_) fun k hk => ?_⟩
  · rw [hlow, e.high]
    exact hnested
  · rw [e.high]
    exact hsizes
  · rw [e.high]
    exact hlevel i hi
  · rw [e.high]
    exact hrow.congr rfl rfl hfresh.ge
  · rw [e.same]
  · rw [e.same]
  · rw [e.high]
  · exact e.page k (by omega) (by omega)

theorem two_le_length (a b : List ℕ) (x n : ℕ) : 2 ≤ (a ++ x :: n :: b).length := by
  rw [List.length_append, List.length_cons, List.length_cons]
  omega

/-- The sizes after a page has spilled to a neighbour with space. -/
theorem Sizes.spill (hsizes : Sizes nodeCount children row') {l more : List ℕ} (hne : list ≠ q)
    (hl : l.length = (children list).length) (hmore : more.length = (children q).length + 1)
    (hspace : (children q).length < nodeCount) :
    Sizes nodeCount (Function.update (Function.update children q more) list l) row' := by
  have hcases : ∀ i, (Function.update (Function.update children q more) list l i).length =
      if i = q then (children i).length + 1 else (children i).length := by
    intro i
    by_cases hi : i = list
    · rw [hi, Function.update_self, if_neg hne, hl]
    · rw [Function.update_of_ne hi]
      by_cases hiq : i = q
      · rw [hiq, Function.update_self, if_pos rfl, hmore]
      · rw [Function.update_of_ne hiq, if_neg hiq]
  refine hsizes.mono (fun i => ?_) fun i hi => ?_
  · rw [hcases]
    split_ifs <;> omega
  · rw [hcases]
    split_ifs with hiq
    · rw [hiq]
      exact hspace
    · exact (hsizes.full i hi).2

/-- The sizes after a page, whose next one is full too, has spilled to a new page. -/
theorem Sizes.split {a' b' l : List ℕ} {m : ℕ} (hsizes : Sizes nodeCount children (a' ++ list :: b'))
    (hcount : 2 ≤ nodeCount) (hnodup : (a' ++ list :: q :: b').Nodup)
    (hfull : (children list).length = nodeCount)
    (hnext : ∀ i ∈ b'.head?, (children i).length = nodeCount) (hl : l.length = nodeCount) :
    Sizes nodeCount (Function.update (Function.update children q [m]) list l)
      (a' ++ list :: q :: b') := by
  obtain ⟨hne, -, hq, -, hqb⟩ := nodup_pair hnodup
  have hother : ∀ i, i ≠ q →
      (Function.update (Function.update children q [m]) list l i).length = (children i).length := by
    intro i hi
    by_cases hil : i = list
    · rw [hil, Function.update_self, hl, hfull]
    · rw [Function.update_of_ne hil, Function.update_of_ne hi]
  have hnew : Function.update (Function.update children q [m]) list l q = [m] := by
    rw [Function.update_of_ne hne.symm, Function.update_self]
  have hrow : ∀ i ∈ a' ++ list :: b', i ≠ q := by
    rintro i hi rfl
    rcases List.mem_append.1 hi with hi | hi
    · exact hq hi
    · rcases List.mem_cons.1 hi with hi | hi
      · exact hne hi.symm
      · exact hqb hi
  constructor
  · intro i hi
    by_cases hiq : i = q
    · rw [hiq, hnew]
      exact ⟨List.cons_ne_nil _ _, by
        rw [List.length_singleton]
        omega⟩
    · rw [← List.length_pos_iff, hother i hiq, List.length_pos_iff]
      refine hsizes.full i ?_
      simp only [List.mem_append, List.mem_cons] at hi ⊢
      tauto
  · have hwide := hsizes.wide.imp_of_mem_imp fun i j hi hj hij => by
      rw [← hother i (hrow i hi), ← hother j (hrow j hj)] at hij
      exact hij
    rw [List.isChain_split] at hwide
    rw [List.isChain_append_cons_cons, List.isChain_cons, hother list hne, hnew, hfull]
    refine ⟨hwide.1, ?_, fun i hi => ?_, hwide.2.tail⟩
    · rw [List.length_singleton]
      omega
    · rw [hother i (hrow i (List.mem_append_right _ (List.mem_cons_of_mem _ (List.mem_of_head? hi)))),
        hnext i hi, List.length_singleton]
      omega

variable {C : Config V K}

theorem length_new {l : List ℕ} (h : l.length + 1 = (c ++ x :: n :: d).length) :
    l.length = (c ++ x :: d).length := by
  simp only [List.length_append, List.length_cons] at h ⊢
  omega

/-- The next page has space. -/
theorem spillNext_above {a' b' : List ℕ} (hlayer : Layer C.nodeCount t h (a ++ x :: b) (a' ++ list :: q :: b'))
    (habove : Above C.nodeCount t (h + 1) (a' ++ list :: q :: b') rows) (hn : n ∉ a ++ x :: b)
    (hrow : (a ++ x :: b).Nodup) (hlist : (t.page (h + 1)).children list = c ++ x :: d)
    (ha : a = a'.flatMap (t.page (h + 1)).children ++ c)
    (hb : b = d ++ (q :: b').flatMap (t.page (h + 1)).children)
    (hfull : (c ++ x :: d).length = C.nodeCount)
    (hspace : ((t.page (h + 1)).children q).length < C.nodeCount) :
    Kept t (t.spillNext C h list n (c.length + 1) q) h n ∧
      Above C.nodeCount (t.spillNext C h list n (c.length + 1) q) h (a ++ x :: n :: b)
        ((a' ++ list :: q :: b') :: rows) := by
  have hne := (nodup_pair hlayer.row.nodup).1
  obtain ⟨l, m, hl, e⟩ := spillNext_edit hne hlist hfull (notMem_children hn ha hb)
  refine ⟨e.kept, e.above hlayer.row hlayer.nodeLevel habove
    (nested_spillNext hlayer.nested hlayer.row.nodup hrow hn hlist ha hb hl)
    (hlayer.sizes.spill hne ?_ rfl hspace) (two_le_length ..)⟩
  rw [hlist]
  refine length_new (n := n) ?_
  rw [← hl, List.length_append, List.length_singleton]

/-- The previous page has space. -/
theorem spillPrev_above {a' b' : List ℕ} (hlayer : Layer C.nodeCount t h (a ++ x :: b) (a' ++ q :: list :: b'))
    (habove : Above C.nodeCount t (h + 1) (a' ++ q :: list :: b') rows) (hn : n ∉ a ++ x :: b)
    (hrow : (a ++ x :: b).Nodup) (hlist : (t.page (h + 1)).children list = c ++ x :: d)
    (ha : a = (a' ++ [q]).flatMap (t.page (h + 1)).children ++ c)
    (hb : b = d ++ b'.flatMap (t.page (h + 1)).children)
    (hspace : ((t.page (h + 1)).children q).length < C.nodeCount) :
    Kept t (t.spillPrev h list n (c.length + 1) q) h n ∧
      Above C.nodeCount (t.spillPrev h list n (c.length + 1) q) h (a ++ x :: n :: b)
        ((a' ++ q :: list :: b') :: rows) := by
  have hne := (nodup_pair hlayer.row.nodup).1
  obtain ⟨l, m, hl, e⟩ := spillPrev_edit (q := q) hlist (notMem_children hn ha hb)
  refine ⟨e.kept, e.above hlayer.row hlayer.nodeLevel habove
    (nested_spillPrev hlayer.nested hlayer.row.nodup hrow hn hlist ha hb hl)
    (hlayer.sizes.spill hne.symm ?_ (List.length_append ..) hspace) (two_le_length ..)⟩
  rw [hlist]
  refine length_new (n := n) ?_
  rw [← hl, List.length_cons]

/-- There is a new page `t.fresh` in the row above, whose address is still to be added. -/
structure Split (nodeCount : ℕ) (t t' : BePlusTree V) (h n : ℕ) (row row' new : List ℕ) : Prop where
  kept : Kept t t' h n
  root : t'.root = t.root
  level : t'.level = t.level
  nested : Nested (t'.page h).parent (t'.page (h + 1)).children row new
  sizes : Sizes nodeCount (t'.page (h + 1)).children new
  row : Row (t'.page (h + 1)) t'.fresh new
  mem : ∀ i ∈ new, i = t.fresh ∨ i ∈ row'
  nodeLevel : (t'.page (h + 1)).nodeLevel = (t.page (h + 1)).nodeLevel
  parent : ∀ i ∈ row', (t'.page (h + 1)).parent i = (t.page (h + 1)).parent i
  page : ∀ k > h + 1, t'.page k = t.page k

/-- A new page behind the page `list`, as this and its next one are full. -/
theorem split_page {a' b' : List ℕ} (hlayer : Layer C.nodeCount t h (a ++ x :: b) (a' ++ list :: b'))
    (hn : n ∉ a ++ x :: b) (hrow : (a ++ x :: b).Nodup)
    (hlist : (t.page (h + 1)).children list = c ++ x :: d)
    (ha : a = a'.flatMap (t.page (h + 1)).children ++ c)
    (hb : b = d ++ b'.flatMap (t.page (h + 1)).children)
    (hfull : (c ++ x :: d).length = C.nodeCount)
    (hnext : ∀ i ∈ b'.head?, ((t.page (h + 1)).children i).length = C.nodeCount) :
    Split C.nodeCount t ((t.newAfter (h + 1) list).spillNext C h list n (c.length + 1) t.fresh) h n
      (a ++ x :: n :: b) (a' ++ list :: b') (a' ++ list :: t.fresh :: b') := by
  have hwith := hlayer.row.insertAfter
  obtain ⟨hne, -, hfront, -, hback⟩ := nodup_pair hwith.nodup
  have hused : ∀ i ∈ a' ++ list :: b', i ≠ t.fresh := fun i hi => (hlayer.row.used i hi).ne
  have hpage : ∀ k ≠ h + 1, (t.newAfter (h + 1) list).page k = t.page k := fun _ hk =>
    newAfter_page_of_ne t list hk
  have hself : (t.newAfter (h + 1) list).page (h + 1) = (t.page (h + 1)).insertAfter list t.fresh :=
    newAfter_page_self ..
  have hchildren : ((t.newAfter (h + 1) list).page (h + 1)).children =
      Function.update (t.page (h + 1)).children t.fresh [] := by
    rw [hself]
    rfl
  have hnested : Nested (t.page h).parent (Function.update (t.page (h + 1)).children t.fresh [])
      (a ++ x :: b) (a' ++ list :: t.fresh :: b') := by
    refine ⟨?_, fun i hi k hk => ?_⟩
    · rw [← hlayer.nested.flat]
      simp only [List.flatMap_append, List.flatMap_cons, flatMap_update_of_notMem hfront,
        flatMap_update_of_notMem hback, Function.update_self, Function.update_of_ne hne, List.nil_append]
    · by_cases hi' : i = t.fresh
      · rw [hi', Function.update_self] at hk
        exact absurd hk List.not_mem_nil
      · rw [Function.update_of_ne hi'] at hk
        refine hlayer.nested.parent i ?_ k hk
        simp only [List.mem_append, List.mem_cons] at hi ⊢
        tauto
  have hlist' : Function.update (t.page (h + 1)).children t.fresh [] list = c ++ x :: d := by
    rw [Function.update_of_ne hne, hlist]
  obtain ⟨l, m, hl, e⟩ := spillNext_edit (t := t.newAfter (h + 1) list) (q := t.fresh) hne
    (by rw [hchildren, hlist']) hfull (notMem_children hn ha hb)
  rw [hpage h (Nat.succ_ne_self h).symm, hchildren, Function.update_self, Function.update_idem] at e
  have hmoved := nested_spillNext hnested hwith.nodup hrow hn hlist'
    (by rw [flatMap_update_of_notMem hfront, ha])
    (by rw [List.flatMap_cons, Function.update_self, flatMap_update_of_notMem hback, hb]; rfl) hl
  rw [Function.update_self, Function.update_idem] at hmoved
  have hlength : l.length = C.nodeCount := by
    rw [← hfull]
    refine length_new (n := n) ?_
    rw [← hl, List.length_append, List.length_singleton]
  obtain ⟨nodeLevel, hlow, hother, hown⟩ := e.low
  rw [hpage h (Nat.succ_ne_self h).symm] at hlow hother
  have hhigh := e.high
  rw [hself] at hhigh
  have hrest : ((t.newAfter (h + 1) list).spillNext C h list n (c.length + 1) t.fresh).fresh =
      t.fresh + 1 := by
    rw [e.same]
    rfl
  refine ⟨⟨?_, ?_, ?_, fun k hk => ?_, _, nodeLevel, hlow, hother, hown⟩, ?_, ?_, ?_, ?_, ?_,
    fun i hi => ?_, ?_, fun i hi => ?_, fun k hk => ?_⟩
  · rw [e.same]
    rfl
  · rw [e.same]
    rfl
  · rw [hrest]
    exact Nat.le_succ _
  · rw [e.page k (by omega) (by omega), hpage k (by omega)]
  · rw [e.same]
    rfl
  · rw [e.same]
    rfl
  · rw [hlow, hhigh]
    exact hmoved
  · rw [hhigh]
    exact hlayer.sizes.split C.two_le_nodeCount hwith.nodup (by rw [hlist, hfull]) hnext hlength
  · rw [hhigh, hrest]
    exact hwith.congr rfl rfl le_rfl
  · simp only [List.mem_append, List.mem_cons] at hi ⊢
    tauto
  · rw [hhigh]
    rfl
  · rw [hhigh]
    exact Function.update_of_ne (hused i hi) ..
  · rw [e.page k (by omega) (by omega), hpage k (by omega)]

theorem Split.above {row₀ new : List ℕ} {t₁ : BePlusTree V} (s : Split nodeCount t t₁ h n row row' new)
    (hlayer : Layer nodeCount t h row₀ row') (htwo : 2 ≤ row.length) (hkept : Kept t₁ t' (h + 1) t.fresh)
    (habove : Above nodeCount t' (h + 1) new rows) :
    Kept t t' h n ∧ Above nodeCount t' h row (new :: rows) := by
  obtain ⟨parent, nodeLevel, hlinks, hother, hself⟩ := hkept.links
  have hpage := hkept.below h (Nat.lt_succ_self h)
  refine ⟨⟨hkept.items.trans s.kept.items, hkept.defaultAccessor.trans s.kept.defaultAccessor,
    s.kept.fresh.trans hkept.fresh, fun k hk => ?_, ?_⟩, ⟨htwo, ?_, ?_, fun i hi => ?_, ?_⟩, habove⟩
  · exact (hkept.below k (hk.trans (Nat.lt_succ_self h))).trans (s.kept.below k hk)
  · rw [hpage]
    exact s.kept.links
  · rw [hpage, hlinks]
    exact s.nested
  · rw [hlinks]
    exact s.sizes
  · rw [hlinks]
    rcases s.mem i hi with rfl | hi'
    · exact hself (Nat.succ_ne_zero h)
    · refine (hother i (hlayer.row.used i hi').ne).trans ?_
      rw [s.nodeLevel]
      exact hlayer.nodeLevel i hi'
  · rw [hlinks]
    exact s.row.congr rfl rfl hkept.fresh

/-- A page has no space, or is the page that has. -/
theorem withSpace_cases (C : Config V K) (t : BePlusTree V) (h : ℕ) (list? : Option ℕ) :
    (∃ q, list? = some q ∧ ((t.page h).children q).length < C.nodeCount ∧
        t.withSpace C h list? = some q) ∨
      (∀ q, list? = some q → C.nodeCount ≤ ((t.page h).children q).length) ∧
        t.withSpace C h list? = none := by
  rcases filter_cases (fun list => decide (((t.page h).children list).length < C.nodeCount)) list? with
    ⟨q, hq, hspace, hwith⟩ | ⟨hfull, hwith⟩
  · exact .inl ⟨q, hq, of_decide_eq_true hspace, hwith⟩
  · exact .inr ⟨fun q hq => not_lt.1 (of_decide_eq_false (hfull q hq)), hwith⟩

variable [Inhabited V]

theorem Kept.generate (hkept : Kept t t' h n) : t'.generate C h = t.generate C h := by
  obtain ⟨_, _, hlinks, -⟩ := hkept.links
  funext i
  refine generate_congr hkept.items (fun k hk => ?_) i
  rcases hk.lt_or_eq with hk | rfl
  · rw [hkept.below k hk]
  · rw [hlinks]

variable [LinearOrder K]

/-- A page in which there is room for the address. -/
theorem addChild_above (hlayer : Layer C.nodeCount t h (a ++ x :: b) row')
    (habove : Above C.nodeCount t (h + 1) row' rows) (hn : n ∉ a ++ x :: b)
    (hrow : (a ++ x :: b).Nodup) (hordered : Ordered C t h (a ++ x :: n :: b))
    (hparent : (t.page h).parent x = some list)
    (hspace : ((t.page (h + 1)).children list).length < C.nodeCount) :
    let t' := (t.setNodeParentAndLevel h n list).addChild C (h + 1) list n
    Kept t t' h n ∧ Above C.nodeCount t' h (a ++ x :: n :: b) (row' :: rows) := by
  obtain ⟨a', list', b', c, d, rfl, hlist, ha, hb, hx⟩ := hlayer.nested.locate hrow
  obtain rfl : list' = list := Option.some.inj (hx.symm.trans hparent)
  have hmem : list' ∈ a' ++ list' :: b' := List.mem_append_right _ List.mem_cons_self
  have hinfix : Ordered C t h (c ++ x :: n :: d) := hordered.sublist (children_sublist [x, n] ha hb)
  have e := addChild_edit (hlayer.nodeLevel list' hmem) hlist hinfix
  refine ⟨e.kept, e.above hlayer.row hlayer.nodeLevel habove
    (nested_add hlayer.nested hlayer.row.nodup hn hlist ha hb) ?_ (two_le_length ..)⟩
  have hlength : (c ++ x :: n :: d).length = ((t.page (h + 1)).children list').length + 1 := by
    rw [hlist, List.length_append, List.length_append, List.length_cons, List.length_cons,
      List.length_cons]
    rfl
  refine hlayer.sizes.mono (fun i => ?_) fun i hi => ?_
  · by_cases hi' : i = list'
    · rw [hi', Function.update_self]
      omega
    · rw [Function.update_of_ne hi']
  · by_cases hi' : i = list'
    · rw [hi', Function.update_self]
      omega
    · rw [Function.update_of_ne hi']
      exact (hlayer.sizes.full i hi).2

/-- A new root page over the old one. -/
theorem newRoot_eq (hroot : t.root = some x) (hlevel : t.level = h) (hordered : Ordered C t h [x, n]) :
    t.newRoot C n =
      { (t.onLevel h fun L => (L.adopt h n t.fresh).setParent x (some t.fresh)).onLevel (h + 1) fun L =>
          ((L.first t.fresh).setNodeLevel t.fresh h).setChildren t.fresh [x, n] with
        root := some t.fresh
        level := h + 1
        fresh := t.fresh + 1 } := by
  have hne : h + 1 ≠ h := Nat.succ_ne_self h
  let f : Level → Level := fun L => (L.adopt h n t.fresh).setParent x (some t.fresh)
  let g : Level → Level := fun L => ((L.first t.fresh).setNodeLevel t.fresh h).setChildren t.fresh [x]
  have hgrown : ((((t.newFirst (h + 1)).onLevel (h + 1) (·.setNodeLevel t.fresh h)).setChildren (h + 1)
      t.fresh [x]).setNodeParentAndLevel h n t.fresh).setNodeParent h x (some t.fresh) =
      { (t.onLevel h f).onLevel (h + 1) g with fresh := t.fresh + 1 } := by
    rw [setNodeParentAndLevel_eq, setNodeParent, onLevel_onLevel, setChildren, onLevel_comm t f g hne.symm]
    simp only [newFirst, onLevel, Function.update_self, Function.update_idem]
    rfl
  let grown : BePlusTree V := { (t.onLevel h f).onLevel (h + 1) g with fresh := t.fresh + 1 }
  have hpage : grown.page (h + 1) = g (t.page (h + 1)) := by
    show ((t.onLevel h f).onLevel (h + 1) g).page (h + 1) = _
    rw [onLevel_page_self, onLevel_page_of_ne _ _ hne]
  have hlow : ∀ k ≤ h, (grown.page k).children = (t.page k).children := fun k hk => by
    show (((t.onLevel h f).onLevel (h + 1) g).page k).children = _
    rw [onLevel_page_of_ne _ _ (by omega : k ≠ h + 1)]
    by_cases hkh : k = h
    · rw [hkh, onLevel_page_self]
      exact Level.adopt_children ..
    · rw [onLevel_page_of_ne _ _ hkh]
  have hitems : grown.items = t.items := rfl
  have hgenerate : grown.generate C h = t.generate C h := by
    funext i
    exact generate_congr hitems hlow i
  have hchildren : (grown.page (h + 1)).children t.fresh = [x] := by
    rw [hpage]
    exact Function.update_self ..
  have hnodeLevel : (grown.page (h + 1)).nodeLevel t.fresh = h := by
    rw [hpage]
    exact Function.update_self ..
  have hfind : insertAt [x] (findSorted (t.generate C h) [x] (t.generate C h n)).2 n = [x, n] := by
    have hfind := hordered.find_new (c := []) (d := [])
    rw [List.nil_append, List.length_nil] at hfind
    rw [hfind]
    rfl
  have hadd : grown.addChild C (h + 1) t.fresh n = grown.setChildren (h + 1) t.fresh [x, n] := by
    rw [addChild, findNode, hnodeLevel, hchildren, hgenerate, hfind]
  rw [newRoot]
  dsimp only
  rw [hroot, Option.getD_some, hlevel, hgrown, show BePlusTree.addChild C _ _ _ _ = _ from hadd]
  have hdone : grown.setChildren (h + 1) t.fresh [x, n] =
      { (t.onLevel h f).onLevel (h + 1) fun L =>
          ((L.first t.fresh).setNodeLevel t.fresh h).setChildren t.fresh [x, n] with
        fresh := t.fresh + 1 } := by
    rw [setChildren]
    simp only [grown, g, onLevel, Level.setChildren, Function.update_self, Function.update_idem]
  rw [hdone]

/-- There is a new root over the old one and the new page. -/
theorem newRoot_above (habove : Above C.nodeCount t h (a ++ x :: b) [])
    (hordered : Ordered C t h (a ++ x :: n :: b)) (hn : n ∉ a ++ x :: b) :
    Kept t (t.newRoot C n) h n ∧
      ∃ rows, Above C.nodeCount (t.newRoot C n) h (a ++ x :: n :: b) rows := by
  obtain ⟨r, hr, hroot, hlevel, -⟩ := habove
  obtain ⟨rfl, rfl, rfl⟩ := eq_of_append_cons hr
  have hxn : x ≠ n := fun h => hn (h ▸ List.mem_cons_self)
  obtain ⟨nodeLevel, hadopt, hother, hself⟩ := (t.page h).adopt_eq h n t.fresh
  have hnew := newRoot_eq hroot hlevel hordered
  have hlow : (t.newRoot C n).page h = { t.page h with
      parent := Function.update (Function.update (t.page h).parent n (some t.fresh)) x (some t.fresh)
      nodeLevel := nodeLevel } := by
    rw [hnew]
    dsimp only
    rw [onLevel_page_of_ne _ _ (Nat.succ_ne_self h).symm, onLevel_page_self, hadopt]
    rfl
  have hhigh : (t.newRoot C n).page (h + 1) =
      (((t.page (h + 1)).first t.fresh).setNodeLevel t.fresh h).setChildren t.fresh [x, n] := by
    rw [hnew]
    dsimp only
    rw [onLevel_page_self, onLevel_page_of_ne _ _ (Nat.succ_ne_self h)]
  have hchildren : ((t.newRoot C n).page (h + 1)).children t.fresh = [x, n] := by
    rw [hhigh]
    exact Function.update_self ..
  have hsingle : ∀ i ∈ [t.fresh], i = t.fresh := fun i hi => List.mem_singleton.1 hi
  refine ⟨⟨?_, ?_, ?_, fun k hk => ?_, _, _, hlow, hother, hself⟩, [[t.fresh]],
    ⟨?_, ⟨?_, fun i hi k hk => ?_⟩, ⟨fun i hi => ?_, List.isChain_singleton _⟩, fun i hi => ?_, ?_⟩,
    t.fresh, rfl, ?_, ?_, ?_⟩
  · rw [hnew]
    rfl
  · rw [hnew]
    rfl
  · rw [hnew]
    exact Nat.le_succ _
  · rw [hnew]
    dsimp only
    rw [onLevel_page_of_ne _ _ (by omega), onLevel_page_of_ne _ _ (by omega)]
  · exact le_rfl
  · rw [List.flatMap_singleton, hchildren]
    rfl
  · rw [hsingle i hi] at hk ⊢
    rw [hchildren, List.mem_pair] at hk
    rw [hlow]
    rcases hk with rfl | rfl
    · exact Function.update_self ..
    · exact (Function.update_of_ne hxn.symm ..).trans (Function.update_self ..)
  · rw [hsingle i hi, hchildren]
    exact ⟨List.cons_ne_nil _ _, C.two_le_nodeCount⟩
  · rw [hsingle i hi, hhigh]
    exact Function.update_self ..
  · rw [hhigh]
    refine ⟨⟨Function.update_self .., Function.update_self .., trivial⟩, List.nodup_singleton _,
      fun i hi => ?_⟩
    rw [hsingle i hi, hnew]
    exact Nat.lt_succ_self _
  · rw [hnew]
  · rw [hnew]
  · rw [hhigh]
    exact Function.update_self ..

/-- The address of a new page comes behind that of its neighbour, up to the root if need be. -/
theorem addNode_above {fuel : ℕ} (hfuel : rows.length < fuel) (hrow : (a ++ x :: b).Nodup)
    (hn : n ∉ a ++ x :: b) (habove : Above C.nodeCount t h (a ++ x :: b) rows)
    (hordered : Ordered C t h (a ++ x :: n :: b)) :
    Kept t (t.addNode C fuel h n ((t.page h).parent x)) h n ∧
      ∃ rows', Above C.nodeCount (t.addNode C fuel h n ((t.page h).parent x)) h (a ++ x :: n :: b)
        rows' := by
  induction rows generalizing t h a x n b fuel with
  | nil =>
    obtain ⟨fuel, rfl⟩ := Nat.exists_eq_succ_of_ne_zero (Nat.ne_of_gt (Nat.zero_lt_of_lt hfuel))
    obtain ⟨r, hr, -, -, hnone⟩ := id habove
    have hx : x = r := List.mem_singleton.1 (hr ▸ List.mem_append_right a List.mem_cons_self)
    rw [hx, hnone]
    rw [hx] at habove hordered hn
    exact newRoot_above habove hordered hn
  | cons row' rows ih =>
    obtain ⟨fuel, rfl⟩ := Nat.exists_eq_succ_of_ne_zero (Nat.ne_of_gt (Nat.zero_lt_of_lt hfuel))
    obtain ⟨hlayer, hrows⟩ := habove
    obtain ⟨a', list, b', c, d, rfl, hlist, ha, hb, hx⟩ := hlayer.nested.locate hrow
    have hmem : list ∈ a' ++ list :: b' := List.mem_append_right _ List.mem_cons_self
    rw [hx, addNode]
    by_cases hspace : ((t.page (h + 1)).children list).length < C.nodeCount
    · rw [if_pos hspace]
      have hadd := addChild_above hlayer hrows hn hrow hordered hx hspace
      exact ⟨hadd.1, _, hadd.2⟩
    have hfull : (c ++ x :: d).length = C.nodeCount := by
      rw [← hlist]
      exact le_antisymm (hlayer.sizes.full list hmem).2 (not_lt.1 hspace)
    have hpos : (t.findNode C (h + 1) list (t.generate C ((t.page (h + 1)).nodeLevel list) n)).2 =
        c.length + 1 := by
      rw [findNode, hlayer.nodeLevel list hmem, hlist]
      exact Ordered.find_new (hordered.sublist (children_sublist [x, n] ha hb))
    obtain ⟨hprev, hnext⟩ := linked_middle hlayer.row.linked
    rw [if_neg hspace]
    dsimp only
    rw [hpos]
    rcases withSpace_cases C t (h + 1) ((t.page (h + 1)).next list) with
      ⟨q, hq, hqspace, hwith⟩ | ⟨hnextFull, hwith⟩
    · rw [hwith]
      obtain ⟨b', rfl⟩ : ∃ b'', b' = q :: b'' := List.head?_eq_some_iff.1 (hnext.symm.trans hq)
      have hspill := spillNext_above hlayer hrows hn hrow hlist ha hb hfull hqspace
      exact ⟨hspill.1, _, hspill.2⟩
    rw [hwith]
    dsimp only
    rcases withSpace_cases C t (h + 1) ((t.page (h + 1)).prev list) with
      ⟨q, hq, hqspace, hwith⟩ | ⟨-, hwith⟩
    · rw [hwith]
      obtain ⟨a', rfl⟩ : ∃ a'', a' = a'' ++ [q] := List.getLast?_eq_some_iff.1 (hprev.symm.trans hq)
      rw [List.append_assoc] at hlayer hrows
      have hspill := spillPrev_above hlayer hrows hn hrow hlist ha hb hqspace
      exact ⟨hspill.1, _, hspill.2⟩
    rw [hwith]
    dsimp only
    have hnext' : ∀ i ∈ b'.head?, ((t.page (h + 1)).children i).length = C.nodeCount := fun i hi =>
      le_antisymm (hlayer.sizes.full i (List.mem_append_right _ (List.mem_cons_of_mem _
        (List.mem_of_head? hi)))).2 (hnextFull i (hnext.trans hi))
    have s := split_page hlayer hn hrow hlist ha hb hfull hnext'
    rw [Ordered, ← s.kept.generate, ← Ordered, ← s.nested.flat] at hordered
    have hup := hordered.up fun i hi => (s.sizes.full i hi).1
    obtain ⟨hkept, rows', hrows'⟩ := ih (Nat.lt_of_succ_lt_succ hfuel) hlayer.row.nodup
      (fun h => lt_irrefl _ (hlayer.row.used _ h))
      (hrows.congr s.root s.level s.kept.fresh s.parent s.page) hup
    rw [s.parent list hmem] at hkept hrows'
    obtain ⟨hall, habove⟩ := s.above hlayer (two_le_length ..) hkept hrows'
    exact ⟨hall, _, habove⟩

end Add

end FirebirdCore.Tree
