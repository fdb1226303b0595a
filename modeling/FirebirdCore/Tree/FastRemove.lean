import FirebirdCore.Tree.AddItem

/-!
# Removing the current item

The accessor goes to the item behind the one that is removed. A leaf that gets nearly empty is joined
with a neighbour. The last item of a leaf goes with the leaf, or an item of a neighbour takes its place.
-/
namespace FirebirdCore.Tree
open FirebirdCore.LowerBound FirebirdCore.LinkedRow BePlusTree

variable {V K : Type*} [LinearOrder K] {C : Config V K} {t : BePlusTree V} {row front back : List ℕ}
  {p q : ℕ} {acc : Accessor} {before behind u v xs ys : List V} {x : V} {f : ℕ → List V}

/-- The item is removed, and the accessor is on the next one if there is one. -/
structure Removed (C : Config V K) (r : BePlusTree V × Bool) (row : List ℕ) (before behind : List V) :
    Prop where
  built : Built C r.1 row (before ++ behind)
  lands : LandsFirst r.1 row (r.1.defaultAccessor, r.2) before behind

theorem Built.setAccessor (hb : Built C t row xs) (acc : Accessor) :
    Built C { t with defaultAccessor := acc } row xs where
  leaves := hb.leaves
  above := by
    obtain ⟨rows, habove⟩ := hb.above
    exact ⟨rows, habove.congr rfl rfl le_rfl (fun _ _ => rfl) fun _ _ => rfl⟩
  items := hb.items
  sorted := hb.sorted
  count := hb.count
  filled := hb.filled

theorem Sorted.remove (hsorted : Sorted C (before ++ x :: behind)) : Sorted C (before ++ behind) :=
  hsorted.sublist ((List.sublist_cons_self x behind).append_left before)

/-- The accessor is put on the first item behind those of a leaf. -/
theorem Built.positioned_next (hb : Built C t (front ++ p :: back) xs) :
    Removed C (t.positioned ((t.page 0).next p) 0) (front ++ p :: back)
      (front.flatMap t.items ++ t.items p) (back.flatMap t.items) where
  built := by
    have hitems := hb.items
    rw [List.flatMap_append, List.flatMap_cons, ← List.append_assoc] at hitems
    rw [hitems]
    exact hb.setAccessor _
  lands := hb.lands_next

/-- The accessor is put on the first item from a position in a leaf on. -/
theorem Built.positioned_from (hb : Built C t (front ++ p :: back) xs) (hp : t.items p = u ++ v) :
    Removed C (if u.length ≥ (t.items p).length then t.positioned ((t.page 0).next p) 0
        else t.positioned (some p) u.length) (front ++ p :: back)
      (front.flatMap t.items ++ u) (v ++ back.flatMap t.items) := by
  cases v with
  | nil =>
    have hnext := hb.positioned_next
    rw [hp, List.append_nil] at hnext
    rw [hp, List.append_nil, if_pos le_rfl]
    exact hnext
  | cons y v =>
    rw [if_neg (by rw [hp, List.length_append, List.length_cons]; omega)]
    refine ⟨?_, rfl, front, p, back, u, v, rfl, hp, rfl, rfl, rfl⟩
    have hitems := hb.items
    rw [List.flatMap_append, List.flatMap_cons, hp] at hitems
    have hall : front.flatMap t.items ++ u ++ (y :: v ++ back.flatMap t.items) = xs := by
      rw [← hitems]
      simp only [List.append_assoc]
    rw [hall]
    exact hb.setAccessor _

theorem flatMap_update (hnodup : (front ++ p :: back).Nodup) (w : List V) :
    (front ++ p :: back).flatMap (Function.update t.items p w) =
      front.flatMap t.items ++ w ++ back.flatMap t.items := by
  obtain ⟨hfront, hback⟩ := not_or.1 (mt List.mem_append.2
    (List.nodup_cons.1 (List.nodup_middle.1 hnodup)).1)
  rw [List.flatMap_append, List.flatMap_cons, flatMap_update_of_notMem hfront,
    flatMap_update_of_notMem hback, Function.update_self, List.append_assoc]

theorem Built.erase_sorted (hb : Built C t (front ++ p :: back) xs) (hp : t.items p = u ++ x :: v) :
    Sorted C (front.flatMap t.items ++ (u ++ v) ++ back.flatMap t.items) := by
  have hsorted := hb.sorted
  rw [← hb.items, List.flatMap_append, List.flatMap_cons, hp, List.append_assoc, List.cons_append,
    ← List.append_assoc] at hsorted
  rw [← List.append_assoc, List.append_assoc _ v]
  exact hsorted.remove

/-- The tree with the item removed from its leaf. -/
theorem Built.erase (hb : Built C t (front ++ p :: back) xs) (hp : t.items p = u ++ x :: v)
    (hmore : t.level ≠ 0 → u ++ v ≠ []) : Built C (t.setItems p (u ++ v)) (front ++ p :: back)
      (front.flatMap t.items ++ (u ++ v) ++ back.flatMap t.items) := by
  refine hb.of_items (flatMap_update hb.leaves.nodup _) (hb.erase_sorted hp) (fun i hi => ?_)
    fun hlevel i hi => ?_
  · by_cases hip : i = p
    · have hcount := hb.count p (hip ▸ hi)
      rw [hp, List.length_append, List.length_cons] at hcount
      rw [hip, Function.update_self, List.length_append]
      omega
    · rw [Function.update_of_ne hip]
      exact hb.count i hi
  · by_cases hip : i = p
    · rw [hip, Function.update_self]
      exact hmore hlevel
    · rw [Function.update_of_ne hip]
      exact hb.filled hlevel i hi

theorem Built.sole_sorted (hb : Built C t (front ++ p :: back) xs) :
    Sorted C (front.flatMap t.items ++ back.flatMap t.items) := by
  have hsorted := hb.sorted
  rw [← hb.items, List.flatMap_append, List.flatMap_cons] at hsorted
  exact hsorted.sublist ((List.sublist_append_right ..).append_left _)

/-- An item of the leaf `q` is the only one of the leaf `p` now. -/
theorem Built.moved {y : V} {l : List V} (hb : Built C t row xs) (hflat : row.flatMap (Function.update
    (Function.update t.items p [y]) q l) = ys) (hsorted : Sorted C ys) (hq : q ∈ row) (hl : l ≠ [])
    (hcount : l.length ≤ (t.items q).length) : Built C ((t.setItems p [y]).setItems q l) row ys := by
  have hitems : ∀ i ∈ row, (Function.update (Function.update t.items p [y]) q l i).length ≤ C.leafCount ∧
      (t.level ≠ 0 → Function.update (Function.update t.items p [y]) q l i ≠ []) := by
    intro i hi
    by_cases hiq : i = q
    · rw [hiq, Function.update_self]
      exact ⟨hcount.trans (hb.count q hq), fun _ => hl⟩
    · rw [Function.update_of_ne hiq]
      by_cases hip : i = p
      · rw [hip, Function.update_self]
        exact ⟨C.leafCount_pos, fun _ => List.cons_ne_nil _ _⟩
      · rw [Function.update_of_ne hip]
        exact ⟨hb.count i hi, fun hlevel => hb.filled hlevel i hi⟩
  exact hb.of_items hflat hsorted (fun i hi => (hitems i hi).1) fun hlevel i hi => (hitems i hi).2 hlevel

variable [Inhabited V]

/-- A leaf is removed, after items have moved to other leaves. -/
theorem Built.removeLeaf (hb : Built C t (front ++ p :: back) xs) (hlevel : t.level ≠ 0)
    (hordered : Ordered C { t with items := f } 0 (front ++ p :: back))
    (hflat : (front ++ back).flatMap f = ys) (hsorted : Sorted C ys)
    (hitems : ∀ i ∈ front ++ back, (f i).length ≤ C.leafCount ∧ f i ≠ []) :
    Built C (BePlusTree.removeLeaf C { t with items := f } p) (front ++ back) ys ∧
      (BePlusTree.removeLeaf C { t with items := f } p).items = f := by
  obtain ⟨rows, habove⟩ := hb.above
  have habove' : Above C.nodeCount { t with items := f } 0 (front ++ p :: back) rows :=
    habove.congr rfl rfl le_rfl (fun _ _ => rfl) fun _ _ => rfl
  obtain ⟨hgone, rows', hrows'⟩ := removeLeaf_above (t := { t with items := f }) hb.leaves habove' hlevel
    hordered
  obtain ⟨parent, hlinks⟩ := hgone.links
  refine ⟨⟨?_, ⟨rows', hrows'⟩, ?_, hsorted, fun i hi => ?_, fun _ i hi => ?_⟩, hgone.items⟩
  · rw [hlinks]
    exact hb.leaves.unlink.congr rfl rfl hgone.fresh.ge
  · rw [hgone.items]
    exact hflat
  · rw [hgone.items]
    exact (hitems i hi).1
  · rw [hgone.items]
    exact (hitems i hi).2

/-- Leaves whose first items are the same are in the same order. -/
theorem Ordered.of_heads (hordered : Ordered C t 0 row)
    (hheads : ∀ i ∈ row, (f i).headI = (t.items i).headI) : Ordered C { t with items := f } 0 row := by
  refine hordered.imp_of_mem fun {i j} hi hj hij => ?_
  rw [generate, generate] at hij ⊢
  dsimp only
  rw [hheads i hi, hheads j hj]
  exact hij

/-- The items of the leaf `q` come to the leaf in front of it. -/
theorem Built.join (hb : Built C t (front ++ p :: q :: back) xs)
    (hneed : needMerge ((t.items p).length + (t.items q).length) C.leafCount) (hlevel : t.level ≠ 0) :
    Built C (BePlusTree.removeLeaf C (t.setItems p (t.items p ++ t.items q)) q) (front ++ p :: back) xs ∧
      (BePlusTree.removeLeaf C (t.setItems p (t.items p ++ t.items q)) q).items =
        Function.update t.items p (t.items p ++ t.items q) := by
  obtain ⟨-, hpf, -, hpb, -⟩ := nodup_pair hb.leaves.nodup
  have hpne := hb.filled hlevel p (List.mem_append_right _ List.mem_cons_self)
  have hordered : Ordered C { t with items := Function.update t.items p (t.items p ++ t.items q) } 0
      (front ++ p :: q :: back) := hb.ordered.of_heads fun i _ => by
    by_cases hip : i = p
    · rw [hip, Function.update_self]
      obtain ⟨y, l, hl⟩ := List.exists_cons_of_ne_nil hpne
      rw [hl]
      rfl
    · rw [Function.update_of_ne hip]
  have hflat : (front ++ p :: back).flatMap (Function.update t.items p (t.items p ++ t.items q)) = xs := by
    rw [← hb.items, List.flatMap_append, List.flatMap_cons, flatMap_update_of_notMem hpf,
      flatMap_update_of_notMem hpb, Function.update_self]
    simp only [List.flatMap_append, List.flatMap_cons, List.append_assoc]
  rw [List.append_cons] at hb hordered hflat ⊢
  refine hb.removeLeaf hlevel hordered hflat hb.sorted fun i hi => ?_
  have hi' : i ∈ front ++ [p] ++ q :: back :=
    ((List.sublist_cons_self q back).append_left (front ++ [p])).subset hi
  by_cases hip : i = p
  · rw [hip, Function.update_self, List.length_append]
    exact ⟨le_of_needMerge hneed, List.append_ne_nil_of_left_ne_nil hpne _⟩
  · rw [Function.update_of_ne hip]
    exact ⟨hb.count i hi', hb.filled hlevel i hi'⟩

/-- What is left of the leaf goes to the previous leaf. -/
theorem Built.joinPrev (hb : Built C t (front ++ q :: p :: back) xs) (hp : t.items p = u ++ x :: v)
    (hlevel : t.level ≠ 0) (hmore : u ++ v ≠ [])
    (hneed : needMerge ((t.items q).length + (u ++ v).length) C.leafCount) :
    let joined := t.items q ++ (u ++ v)
    let t' := BePlusTree.removeLeaf C ((t.setItems p (u ++ v)).setItems q joined) p
    Removed C (if u.length + (t.items q).length ≥ joined.length then t'.positioned ((t'.page 0).next q) 0
        else t'.positioned (some q) (u.length + (t.items q).length)) (front ++ q :: back)
      ((front ++ [q]).flatMap t.items ++ u) (v ++ back.flatMap t.items) := by
  intro joined t'
  obtain ⟨hne, hqf, hpf, hqb, hpb⟩ := nodup_pair hb.leaves.nodup
  rw [List.append_cons] at hb
  have hb₁ := hb.erase hp fun _ => hmore
  rw [← List.append_cons] at hb₁
  have hq : (t.setItems p (u ++ v)).items q = t.items q := Function.update_of_ne hne ..
  have hp' : (t.setItems p (u ++ v)).items p = u ++ v := Function.update_self ..
  have hjoin := hb₁.join (by rwa [hq, hp']) hlevel
  rw [hq, hp'] at hjoin
  obtain ⟨hbuilt, hitems⟩ := hjoin
  have hself : t'.items q = (t.items q ++ u) ++ v := by
    rw [List.append_assoc]
    exact (congrFun hitems q).trans (Function.update_self ..)
  have hother : ∀ row : List ℕ, p ∉ row → q ∉ row → row.flatMap t'.items = row.flatMap t.items := by
    intro row hprow hqrow
    exact (congrArg row.flatMap hitems).trans ((flatMap_update_of_notMem hqrow _).trans
      (flatMap_update_of_notMem hprow _))
  have hfrom := hbuilt.positioned_from hself
  have hlength : (t'.items q).length = joined.length := by
    rw [hself, List.append_assoc]
  have hbefore : front.flatMap t.items ++ (t.items q ++ u) = (front ++ [q]).flatMap t.items ++ u := by
    rw [List.flatMap_append, List.flatMap_singleton, List.append_assoc]
  rw [hother front hpf hqf, hother back hpb hqb, hlength, List.length_append, Nat.add_comm, hbefore] at hfrom
  exact hfrom

/-- The items of the next leaf come to what is left of the leaf. -/
theorem Built.joinNext (hb : Built C t (front ++ p :: q :: back) xs) (hp : t.items p = u ++ x :: v)
    (hlevel : t.level ≠ 0) (hmore : u ++ v ≠ [])
    (hneed : needMerge ((t.items q).length + (u ++ v).length) C.leafCount) :
    Removed C ((BePlusTree.removeLeaf C ((t.setItems p (u ++ v)).setItems p (u ++ v ++ t.items q))
        q).positioned (some p) u.length) (front ++ p :: back)
      (front.flatMap t.items ++ u) (v ++ (q :: back).flatMap t.items) := by
  obtain ⟨hne, hpf, hqf, hpb, hqb⟩ := nodup_pair hb.leaves.nodup
  have hqne := hb.filled hlevel q (List.mem_append_right _ (List.mem_cons_of_mem _ List.mem_cons_self))
  have hb₁ := hb.erase hp fun _ => hmore
  have hq : (t.setItems p (u ++ v)).items q = t.items q := Function.update_of_ne hne.symm ..
  have hp' : (t.setItems p (u ++ v)).items p = u ++ v := Function.update_self ..
  have hjoin := hb₁.join (by rwa [hq, hp', Nat.add_comm]) hlevel
  rw [hq, hp'] at hjoin
  obtain ⟨hbuilt, hitems⟩ := hjoin
  generalize BePlusTree.removeLeaf C ((t.setItems p (u ++ v)).setItems p (u ++ v ++ t.items q)) q = t'
    at hbuilt hitems ⊢
  have hself : t'.items p = u ++ (v ++ t.items q) := by
    rw [hitems, Function.update_self, List.append_assoc]
  have hother : ∀ row : List ℕ, p ∉ row → row.flatMap t'.items = row.flatMap t.items := by
    intro row hprow
    rw [hitems, flatMap_update_of_notMem hprow]
    exact flatMap_update_of_notMem hprow _
  have hfrom := hbuilt.positioned_from hself
  have hbehind : v ++ t.items q ++ back.flatMap t.items = v ++ (q :: back).flatMap t.items := by
    rw [List.flatMap_cons, List.append_assoc]
  have hpos := List.length_pos_iff.2 hqne
  rw [hother front hpf, hother back hpb, hbehind, hself, if_neg (by
    rw [List.length_append, List.length_append]
    omega)] at hfrom
  exact hfrom

/-! ## The last item of a leaf -/

/-- The leaf is removed. -/
theorem Built.removeSole (hb : Built C t (front ++ p :: back) xs) (hlevel : t.level ≠ 0) :
    Removed C ((t.removeLeaf C p).positioned ((t.page 0).next p) 0) (front ++ back)
      (front.flatMap t.items) (back.flatMap t.items) := by
  have hflat : (front ++ back).flatMap t.items = front.flatMap t.items ++ back.flatMap t.items :=
    List.flatMap_append
  have hsub := (List.sublist_cons_self p back).append_left front
  obtain ⟨hbuilt, hitems⟩ := hb.removeLeaf (f := t.items) hlevel hb.ordered hflat hb.sole_sorted
    fun i hi => ⟨hb.count i (hsub.subset hi), hb.filled hlevel i (hsub.subset hi)⟩
  refine ⟨hbuilt.setAccessor _, ?_⟩
  rw [(linked_middle hb.leaves.linked).2]
  cases back with
  | nil => exact ⟨rfl, valid_nil _ _⟩
  | cons q back =>
    obtain ⟨y, l, hl⟩ := List.exists_cons_of_ne_nil (hb.filled hlevel q
      (List.mem_append_right _ (List.mem_cons_of_mem _ List.mem_cons_self)))
    rw [List.flatMap_cons, hl]
    refine ⟨rfl, front, q, back, [], l, rfl, ?_, rfl, ?_, ?_⟩
    · exact (congrFun hitems q).trans hl
    · rw [List.append_nil]
      exact (congrArg front.flatMap hitems).symm
    · exact congrArg (l ++ ·) (congrArg back.flatMap hitems).symm

/-- The last item of the previous leaf takes the place of the item. -/
theorem Built.takePrev (hb : Built C t (front ++ q :: p :: back) xs) (hlevel : t.level ≠ 0)
    (hneed : ¬ needMerge (t.items q).length C.leafCount) :
    Removed C ((((t.setItems p [(t.items q).getD ((t.items q).length - 1) default]).setItems q
        ((t.items q).take ((t.items q).length - 1)))).positioned ((t.page 0).next p) 0)
      (front ++ q :: p :: back) ((front ++ [q]).flatMap t.items) (back.flatMap t.items) := by
  obtain ⟨hne, hqf, hpf, hqb, hpb⟩ := nodup_pair hb.leaves.nodup
  have hmem : q ∈ front ++ q :: p :: back := List.mem_append_right _ List.mem_cons_self
  obtain ⟨l, y, hq⟩ := (List.eq_nil_or_concat' (t.items q)).resolve_left (hb.filled hlevel q hmem)
  have hlength : (t.items q).length - 1 = l.length := by
    rw [hq, List.length_append, List.length_singleton, Nat.add_sub_cancel]
  have hl : l ≠ [] := by
    rintro rfl
    have hpos := C.leafCount_pos
    rw [hq, needMerge] at hneed
    simp only [List.nil_append, List.length_singleton] at hneed
    omega
  have hself : Function.update (Function.update t.items p [y]) q l q = l := Function.update_self ..
  have hp : Function.update (Function.update t.items p [y]) q l p = [y] := by
    rw [Function.update_of_ne hne.symm, Function.update_self]
  have hother : ∀ row : List ℕ, p ∉ row → q ∉ row →
      row.flatMap (Function.update (Function.update t.items p [y]) q l) = row.flatMap t.items :=
    fun row hprow hqrow => (flatMap_update_of_notMem hqrow _).trans (flatMap_update_of_notMem hprow _)
  have hfront : (front ++ [q]).flatMap t.items = front.flatMap t.items ++ l ++ [y] := by
    rw [List.flatMap_append, List.flatMap_singleton, hq, List.append_assoc]
  have hflat : (front ++ q :: p :: back).flatMap (Function.update (Function.update t.items p [y]) q l) =
      (front ++ [q]).flatMap t.items ++ back.flatMap t.items := by
    rw [List.flatMap_append, List.flatMap_cons, List.flatMap_cons, hother front hpf hqf,
      hother back hpb hqb, hself, hp, hfront]
    simp only [List.append_assoc]
  have hsorted : Sorted C ((front ++ [q]).flatMap t.items ++ back.flatMap t.items) := by
    rw [List.append_cons] at hb
    exact hb.sole_sorted
  have hmoved := hb.moved hflat hsorted hmem hl (by omega)
  rw [List.append_cons] at hmoved
  have hnext := hmoved.positioned_next
  have hbefore : (front ++ [q]).flatMap (Function.update (Function.update t.items p [y]) q l) ++
      Function.update (Function.update t.items p [y]) q l p = (front ++ [q]).flatMap t.items := by
    rw [List.flatMap_append, List.flatMap_singleton, hother front hpf hqf, hself, hp, hfront]
  have hitems : ((t.setItems p [y]).setItems q l).items =
      Function.update (Function.update t.items p [y]) q l := rfl
  rw [hitems, hbefore, hother back hpb hqb] at hnext
  rw [hlength, hq, getD_concat, List.take_left, List.append_cons]
  exact hnext

/-- The first item of the next leaf takes the place of the item. -/
theorem Built.takeNext (hb : Built C t (p :: q :: back) xs) (hlevel : t.level ≠ 0)
    (hneed : ¬ needMerge (t.items q).length C.leafCount) :
    Removed C (((t.setItems p [(t.items q).getD 0 default]).setItems q
        ((t.items q).eraseIdx 0)).positioned (some p) 0)
      (p :: q :: back) [] ((q :: back).flatMap t.items) := by
  have hb' : Built C t ([] ++ p :: q :: back) xs := hb
  obtain ⟨hne, -, -, hpb, hqb⟩ := nodup_pair hb'.leaves.nodup
  have hmem : q ∈ p :: q :: back := List.mem_cons_of_mem _ List.mem_cons_self
  obtain ⟨y, l, hq⟩ := List.exists_cons_of_ne_nil (hb.filled hlevel q hmem)
  have hlength : (t.items q).length = l.length + 1 := by
    rw [hq, List.length_cons]
  have hl : l ≠ [] := by
    rintro rfl
    have hpos := C.leafCount_pos
    rw [hq, needMerge, List.length_singleton] at hneed
    omega
  have hself : Function.update (Function.update t.items p [y]) q l q = l := Function.update_self ..
  have hp : Function.update (Function.update t.items p [y]) q l p = [y] := by
    rw [Function.update_of_ne hne, Function.update_self]
  have hother : back.flatMap (Function.update (Function.update t.items p [y]) q l) =
      back.flatMap t.items :=
    (flatMap_update_of_notMem hqb _).trans (flatMap_update_of_notMem hpb _)
  have hflat : (p :: q :: back).flatMap (Function.update (Function.update t.items p [y]) q l) =
      (q :: back).flatMap t.items := by
    rw [List.flatMap_cons, List.flatMap_cons, hother, hself, hp, List.flatMap_cons, hq]
    rfl
  have hsorted : Sorted C ((q :: back).flatMap t.items) := hb'.sole_sorted
  have hmoved := hb.moved hflat hsorted hmem hl (by omega)
  rw [hq, List.getD_cons_zero, List.eraseIdx_cons_zero]
  refine ⟨hmoved.setAccessor _, ?_⟩
  rw [List.flatMap_cons, hq]
  refine ⟨rfl, [], p, q :: back, [], [], rfl, hp, rfl, rfl, ?_⟩
  exact (List.flatMap_cons.trans (congrArg₂ (· ++ ·) hself hother)).symm

theorem Built.removeLast (hb : Built C t (front ++ p :: back) xs) (hlevel : t.level ≠ 0) :
    ∃ row, Removed C (t.removeLast C p 0) row (front.flatMap t.items) (back.flatMap t.items) := by
  obtain ⟨hprev, hnext⟩ := linked_middle hb.leaves.linked
  rw [BePlusTree.removeLast]
  dsimp only
  by_cases hmerge : ((t.page 0).prev p).any (fun temp =>
        decide (needMerge (t.items temp).length C.leafCount)) = true ∨
      ((t.page 0).next p).any (fun temp =>
        decide (needMerge (t.items temp).length C.leafCount)) = true
  · rw [if_pos hmerge]
    exact ⟨_, hb.removeSole hlevel⟩
  rw [if_neg hmerge]
  rw [not_or] at hmerge
  have hbig : ∀ {q? : Option ℕ} {q : ℕ}, q? = some q →
      ¬ q?.any (fun temp => decide (needMerge (t.items temp).length C.leafCount)) = true →
        ¬ needMerge (t.items q).length C.leafCount := by
    rintro _ q rfl hany hneed
    exact hany (decide_eq_true hneed)
  rcases List.eq_nil_or_concat' front with rfl | ⟨front, q, rfl⟩
  · cases back with
    | nil =>
      obtain ⟨rows, habove⟩ := hb.above
      exact absurd habove.single.2 hlevel
    | cons q back =>
      rw [hprev, hnext]
      exact ⟨_, hb.takeNext hlevel (hbig hnext hmerge.2)⟩
  · have hprev' : (t.page 0).prev p = some q := hprev.trans (List.getLast?_concat ..)
    rw [← List.append_cons] at hb
    rw [hprev']
    exact ⟨_, hb.takePrev hlevel (hbig hprev' hmerge.1)⟩

/-- The current item is removed. -/
theorem Built.fastRemove (hb : Built C t row xs) (hat : At t row t.defaultAccessor before x behind) :
    ∃ row', Removed C (t.fastRemove C) row' before behind := by
  have hvalid := hat.valid
  obtain ⟨front, p, back, u, v, rfl, hp, hacc, rfl, rfl⟩ := hat
  obtain ⟨hprev, hnext⟩ := linked_middle hb.leaves.linked
  have hitems : (t.items p).eraseIdx u.length = u ++ v := by
    rw [hp, List.eraseIdx_append_of_length_le le_rfl, Nat.sub_self, List.eraseIdx_cons_zero]
  rw [BePlusTree.fastRemove, hacc]
  dsimp only
  rw [hitems]
  by_cases hlevel : t.level = 0
  · rw [if_pos hlevel]
    obtain ⟨rows, habove⟩ := hb.above
    have hheight := habove.level
    rw [hlevel, Nat.zero_add] at hheight
    rw [List.length_eq_zero_iff.1 hheight.symm] at habove
    obtain ⟨r, hrow, -⟩ := habove
    obtain ⟨rfl, rfl, rfl⟩ := eq_of_append_cons hrow
    refine ⟨[p], ?_, ?_⟩
    · have herase := hb.erase hp fun h => absurd hlevel h
      rw [List.flatMap_nil, List.append_nil, List.nil_append] at herase
      rw [List.flatMap_nil, List.append_nil, List.nil_append]
      exact herase
    · cases v with
      | nil => exact ⟨decide_eq_false (by simp), hacc ▸ hvalid⟩
      | cons y v =>
        refine ⟨decide_eq_true (by simp), [], p, [], u, v, rfl, Function.update_self .., hacc, rfl, rfl⟩
  rw [if_neg hlevel]
  by_cases hone : (t.items p).length = 1
  · rw [if_pos hone]
    obtain ⟨rfl, rfl⟩ : u = [] ∧ v = [] := by
      rw [hp, List.length_append, List.length_cons] at hone
      exact ⟨List.length_eq_zero_iff.1 (by omega), List.length_eq_zero_iff.1 (by omega)⟩
    rw [List.append_nil]
    exact hb.removeLast hlevel
  rw [if_neg hone]
  have hmore : u ++ v ≠ [] := by
    rintro hnil
    refine hone ?_
    obtain ⟨rfl, rfl⟩ := List.append_eq_nil_iff.1 hnil
    rw [hp]
    rfl
  rw [hprev, hnext]
  rcases filter_cases (fun temp => decide (needMerge ((t.items temp).length + (u ++ v).length)
    C.leafCount)) front.getLast? with ⟨q, hq, hneed, hfilter⟩ | ⟨-, hfilter⟩
  · rw [hfilter]
    obtain ⟨front, rfl⟩ := List.getLast?_eq_some_iff.1 hq
    rw [← List.append_cons] at hb
    have hne := (nodup_pair hb.leaves.nodup).1
    have hjoin := hb.joinPrev hp hlevel hmore (of_decide_eq_true hneed)
    have hqitems : (t.setItems p (u ++ v)).items q = t.items q := Function.update_of_ne hne ..
    dsimp only
    rw [hqitems]
    exact ⟨_, hjoin⟩
  rw [hfilter]
  dsimp only
  rcases filter_cases (fun temp => decide (needMerge ((t.items temp).length + (u ++ v).length)
    C.leafCount)) back.head? with ⟨q, hq, hneed, hfilter⟩ | ⟨-, hfilter⟩
  · rw [hfilter]
    obtain ⟨back, rfl⟩ := List.head?_eq_some_iff.1 hq
    have hne := (nodup_pair hb.leaves.nodup).1
    have hjoin := hb.joinNext hp hlevel hmore (of_decide_eq_true hneed)
    have hqitems : (t.setItems p (u ++ v)).items q = t.items q := Function.update_of_ne hne.symm ..
    dsimp only
    rw [hqitems]
    exact ⟨_, hjoin⟩
  rw [hfilter]
  dsimp only
  have hb₁ := hb.erase hp fun _ => hmore
  have hself : (t.setItems p (u ++ v)).items p = u ++ v := Function.update_self ..
  have hfrom := hb₁.positioned_from hself
  have hnext' : ((t.setItems p (u ++ v)).page 0).next p = back.head? := hnext
  obtain ⟨hfront, hback⟩ := not_or.1 (mt List.mem_append.2
    (List.nodup_cons.1 (List.nodup_middle.1 hb.leaves.nodup)).1)
  have hother : ∀ row : List ℕ, p ∉ row → row.flatMap (t.setItems p (u ++ v)).items =
      row.flatMap t.items := fun row hrow => flatMap_update_of_notMem hrow _
  rw [hself, hnext', hother front hfront, hother back hback] at hfrom
  exact ⟨_, hfrom⟩

end FirebirdCore.Tree
