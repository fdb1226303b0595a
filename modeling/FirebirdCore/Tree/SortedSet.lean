import FirebirdCore.Lib.Run
import FirebirdCore.Tree.FastRemove

/-!
# The tree as a sorted set

The operations of a tree through its default accessor. What they do is said in terms of the set of
items and the order of their keys only.
-/
namespace FirebirdCore.Tree
open FirebirdCore.LowerBound FirebirdCore.LinkedRow FirebirdCore.Run BePlusTree

variable {V K : Type*}

inductive Op (V K : Type*) where
  | add (item : V)
  | fastRemove
  | locate (lt : LocType) (key : K)
  | getFirst
  | getLast
  | getNext
  | getPrev
  | clear

/-- The default accessor moves. -/
def BePlusTree.moveTo (t : BePlusTree V) (r : Accessor × Bool) : BePlusTree V × Bool :=
  ({ t with defaultAccessor := r.1 }, r.2)

section Op
variable [Inhabited V] [LinearOrder K] (C : Config V K)

/-- The tree after the operation, and what the operation returns. -/
def Op.apply : Op V K → BePlusTree V → BePlusTree V × Bool
  | .add item, t => t.add C item
  | .fastRemove, t => t.fastRemove C
  | .locate lt key, t => t.moveTo (t.locate C t.defaultAccessor lt key)
  | .getFirst, t => t.moveTo (t.getFirst t.defaultAccessor)
  | .getLast, t => t.moveTo (t.getLast t.defaultAccessor)
  | .getNext, t => t.moveTo (t.getNext t.defaultAccessor)
  | .getPrev, t => t.moveTo (t.getPrev t.defaultAccessor)
  | .clear, t => (t.clear, true)

def Op.step (t : BePlusTree V) (op : Op V K) : BePlusTree V := (op.apply C t).1

end Op

/-- The operations that start from the current item need one. -/
def Op.Allowed (t : BePlusTree V) : Op V K → Prop
  | .fastRemove | .getNext | .getPrev => Positioned t
  | _ => True

instance (t : BePlusTree V) : Decidable (Positioned t) := inferInstanceAs (Decidable (_ = true))

instance (t : BePlusTree V) : ∀ op : Op V K, Decidable (op.Allowed t)
  | .fastRemove | .getNext | .getPrev => inferInstanceAs (Decidable (Positioned t))
  | .add _ | .locate .. | .getFirst | .getLast | .clear => isTrue trivial

section Spec
variable [LinearOrder K] (C : Config V K)

/-- The current item is the first one with the property, if `ok`. Otherwise there is none. -/
def ToFirst (current : Option V) (ok : Bool) (xs : List V) (P : V → Prop) : Prop :=
  if ok then ∃ x ∈ xs, current = some x ∧ P x ∧ ∀ y ∈ xs, P y → C.key x ≤ C.key y
  else ∀ x ∈ xs, ¬ P x

/-- The current item is the last one with the property, if `ok`. Otherwise there is none. -/
def ToLast (current : Option V) (ok : Bool) (xs : List V) (P : V → Prop) : Prop :=
  if ok then ∃ x ∈ xs, current = some x ∧ P x ∧ ∀ y ∈ xs, P y → C.key y ≤ C.key x
  else ∀ x ∈ xs, ¬ P x

/-- What an operation does to the items `xs`, of which `ys` are left, and to the current item. -/
def Does (before after : Option V) (ok : Bool) (xs ys : List V) : Op V K → Prop
  | .add item =>
      if ok then (∀ x ∈ xs, C.key x ≠ C.key item) ∧ (∀ y, y ∈ ys ↔ y = item ∨ y ∈ xs) ∧
        (before.isSome → after.isSome)
      else ys = xs ∧ ∃ x ∈ xs, after = some x ∧ C.key x = C.key item
  | .fastRemove => ∃ x ∈ xs, before = some x ∧ (∀ y, y ∈ ys ↔ y ∈ xs ∧ y ≠ x) ∧
      ToFirst C after ok ys fun y => C.key x < C.key y
  | .locate .locEqual key => ys = xs ∧ ToFirst C after ok xs fun x => C.key x = key
  | .locate .locGreat key => ys = xs ∧ ToFirst C after ok xs fun x => key < C.key x
  | .locate .locGreatEqual key => ys = xs ∧ ToFirst C after ok xs fun x => key ≤ C.key x
  | .locate .locLess key => ys = xs ∧ ToLast C after ok xs fun x => C.key x < key
  | .locate .locLessEqual key => ys = xs ∧ ToLast C after ok xs fun x => C.key x ≤ key
  | .getFirst => ys = xs ∧ ToFirst C after ok xs fun _ => True
  | .getLast => ys = xs ∧ ToLast C after ok xs fun _ => True
  | .getNext => ys = xs ∧ ∃ x ∈ xs, before = some x ∧ ToFirst C after ok xs (fun y => C.key x < C.key y) ∧
      (ok = false → after = before)
  | .getPrev => ys = xs ∧ ∃ x ∈ xs, before = some x ∧ ToLast C after ok xs (fun y => C.key y < C.key x) ∧
      (ok = false → after = before)
  | .clear => ys = [] ∧ after = none

end Spec

section Lands
variable [LinearOrder K] {C : Config V K} {t : BePlusTree V} {row : List ℕ} {acc : Accessor} {ok : Bool}
  {before behind xs : List V} {P : V → Prop}

theorem toFirst_of_lands (hlands : LandsFirst t row (acc, ok) before behind)
    (hsorted : Sorted C (before ++ behind)) (hbefore : ∀ x ∈ before, ¬ P x)
    (hhead : ∀ x ∈ behind.head?, P x) : ToFirst C (t.current acc) ok (before ++ behind) P := by
  cases behind with
  | nil =>
    obtain ⟨rfl, -⟩ := hlands
    rw [List.append_nil]
    exact hbefore
  | cons x behind =>
    obtain ⟨rfl, hat⟩ := hlands
    obtain ⟨-, hbehind, -⟩ := List.pairwise_append.1 hsorted
    refine ⟨x, List.mem_append_right _ List.mem_cons_self, hat.current, hhead x rfl, fun y hy hP => ?_⟩
    rcases List.mem_append.1 hy with hy | hy
    · exact absurd hP (hbefore y hy)
    · rcases List.mem_cons.1 hy with rfl | hy
      · exact le_rfl
      · exact ((List.pairwise_cons.1 hbehind).1 y hy).le

theorem toLast_of_lands (hlands : LandsLast t row (acc, ok) before behind)
    (hsorted : Sorted C (before ++ behind)) (hbehind : ∀ x ∈ behind, ¬ P x)
    (hlast : ∀ x ∈ before.getLast?, P x) : ToLast C (t.current acc) ok (before ++ behind) P := by
  rcases List.eq_nil_or_concat' before with rfl | ⟨before, x, rfl⟩
  · obtain ⟨rfl, -⟩ := hlands
    exact hbehind
  · rw [LandsLast, List.getLast?_concat] at hlands
    obtain ⟨rfl, hat⟩ := hlands
    obtain ⟨hbefore, -, -⟩ := List.pairwise_append.1 hsorted
    refine ⟨x, List.mem_append_left _ (List.mem_append_right _ List.mem_cons_self), hat.current,
      hlast x (List.getLast?_concat ..), fun y hy hP => ?_⟩
    rcases List.mem_append.1 hy with hy | hy
    · rcases List.mem_append.1 hy with hy | hy
      · exact ((List.pairwise_append.1 hbefore).2.2 y hy x List.mem_cons_self).le
      · exact (congrArg C.key (List.mem_singleton.1 hy)).le
    · exact absurd hP (hbehind y hy)

theorem LandsFirst.valid (hlands : LandsFirst t row (acc, ok) before behind) : Valid row acc := by
  cases behind with
  | nil => exact hlands.2
  | cons x behind => exact hlands.2.valid

theorem LandsLast.valid (hlands : LandsLast t row (acc, ok) before behind) : Valid row acc := by
  rw [LandsLast] at hlands
  cases hlast : before.getLast? with
  | none =>
    rw [hlast] at hlands
    exact hlands.2
  | some x =>
    rw [hlast] at hlands
    exact hlands.2.valid

theorem Built.moveTo (hb : Built C t row xs) {r : Accessor × Bool} (hvalid : Valid row r.1) :
    Holds C (t.moveTo r).1 xs :=
  .built row (hb.setAccessor r.1) hvalid

end Lands

section Locate
variable [Inhabited V] [LinearOrder K] {C : Config V K} {t : BePlusTree V} {row : List ℕ} {key : K}
  {lo up : List V}

theorem Built.locate_does (hb : Built C t row (lo ++ up)) (hparted : Parted C key lo up) (lt : LocType)
    (acc : Accessor) : Valid row (t.locate C acc lt key).1 ∧
      Does C (t.current acc) (t.current (t.locate C acc lt key).1) (t.locate C acc lt key).2 (lo ++ up)
        (lo ++ up) (.locate lt key) := by
  have hlocates := hb.locate hparted acc lt
  have hsorted := hb.sorted
  obtain ⟨-, hup, -⟩ := List.pairwise_append.1 hsorted
  have hless : ∀ x ∈ lo, ¬ key ≤ C.key x := fun x hx => not_le.2 (hparted.1 x hx)
  have hmiss : ¬ Hit C key up → ∀ x ∈ up, key < C.key x := fun hmiss =>
    forall_lt_of_head_ne hup hparted.2 fun x hx hkey => hmiss ⟨x, hx, hkey⟩
  have hhead : Hit C key up → ∀ x ∈ up.head?, C.key x = key := by
    rintro ⟨x, hx, hkey⟩ y hy
    rw [← Option.some.inj (hx.symm.trans hy), hkey]
  generalize t.locate C acc lt key = r at hlocates ⊢
  obtain ⟨acc', ok⟩ := r
  cases lt with
  | locEqual =>
    by_cases hhit : Hit C key up
    · have hlands := hlocates.1 hhit
      exact ⟨hlands.valid, rfl, toFirst_of_lands hlands hsorted
        (fun x hx hkey => (hparted.1 x hx).ne hkey) (hhead hhit)⟩
    · obtain ⟨rfl, hvalid⟩ := hlocates.2 hhit
      refine ⟨hvalid, rfl, fun x hx => ?_⟩
      rcases List.mem_append.1 hx with hx | hx
      · exact (hparted.1 x hx).ne
      · exact (hmiss hhit x hx).ne'
  | locLess =>
    have hlands : LandsLast t row (acc', ok) lo up := hlocates
    exact ⟨hlands.valid, rfl, toLast_of_lands hlands hsorted (fun x hx => not_lt.2 (hparted.2 x hx))
      fun x hx => hparted.1 x (List.mem_of_getLast? hx)⟩
  | locGreat =>
    by_cases hhit : Hit C key up
    · have hlands := hlocates.1 hhit
      obtain ⟨y, hy, hkey⟩ := hhit
      obtain ⟨up, rfl⟩ := List.head?_eq_some_iff.1 hy
      rw [List.append_cons] at hsorted ⊢
      refine ⟨hlands.valid, rfl, toFirst_of_lands hlands hsorted (fun x hx => ?_) fun x hx => ?_⟩
      · rcases List.mem_append.1 hx with hx | hx
        · exact (hparted.1 x hx).not_gt
        · rw [List.mem_singleton.1 hx, hkey]
          exact lt_irrefl key
      · rw [← hkey]
        exact (List.pairwise_cons.1 hup).1 x (List.mem_of_head? hx)
    · have hlands := hlocates.2 hhit
      exact ⟨hlands.valid, rfl, toFirst_of_lands hlands hsorted
        (fun x hx => (hparted.1 x hx).not_gt) fun x hx => hmiss hhit x (List.mem_of_head? hx)⟩
  | locGreatEqual =>
    have hlands : LandsFirst t row (acc', ok) lo up := hlocates
    exact ⟨hlands.valid, rfl, toFirst_of_lands hlands hsorted hless
      fun x hx => hparted.2 x (List.mem_of_head? hx)⟩
  | locLessEqual =>
    by_cases hhit : Hit C key up
    · have hlands := hlocates.1 hhit
      obtain ⟨y, hy, hkey⟩ := hhit
      obtain ⟨up, rfl⟩ := List.head?_eq_some_iff.1 hy
      obtain ⟨rfl, hat⟩ := hlands
      refine ⟨hat.valid, rfl, y, List.mem_append_right _ List.mem_cons_self, hat.current, hkey.le,
        fun x _ hx => ?_⟩
      rwa [hkey]
    · have hlands := hlocates.2 hhit
      exact ⟨hlands.valid, rfl, toLast_of_lands hlands hsorted (fun x hx => not_le.2 (hmiss hhit x hx))
        fun x hx => (hparted.1 x (List.mem_of_getLast? hx)).le⟩

end Locate

section Stay
variable {t : BePlusTree V} {acc : Accessor}

/-- A step that fails does not move the accessor. -/
theorem getNext_false (h : (t.getNext acc).2 = false) : (t.getNext acc).1 = acc := by
  rw [BePlusTree.getNext] at h ⊢
  split at h
  · rfl
  · split at h
    · split at h
      · cases h
      · rename_i hpos _ _
        rw [if_pos hpos]
    · cases h

theorem getPrev_false (h : (t.getPrev acc).2 = false) : (t.getPrev acc).1 = acc := by
  rw [BePlusTree.getPrev] at h ⊢
  split at h
  · rfl
  · split at h
    · split at h
      · cases h
      · rename_i hpos _ _
        rw [if_pos hpos]
    · cases h

end Stay

section Step
variable [LinearOrder K] {C : Config V K} {t t' : BePlusTree V} {row : List ℕ} {xs : List V}
  {item : V}

theorem Added.positioned (h : Added C t t' row xs) (hvalid : Valid row t.defaultAccessor)
    (hbefore : (t.current t.defaultAccessor).isSome) : (t'.current t'.defaultAccessor).isSome := by
  obtain ⟨x, hx⟩ := Option.isSome_iff_exists.1 hbefore
  obtain ⟨p, hp, hx⟩ := Option.bind_eq_some_iff.1 hx
  obtain ⟨hlt, -⟩ := List.getElem?_eq_some_iff.1 hx
  rw [h.defaultAccessor, current, hp, Option.bind_some, List.getElem?_eq_getElem
    (hlt.trans_le (h.length p (hvalid p hp)))]
  rfl

theorem Built.getNext_does (hb : Built C t row xs) (hvalid : Valid row t.defaultAccessor)
    (hpos : Positioned t) : Holds C (t.moveTo (t.getNext t.defaultAccessor)).1 xs ∧
      Does C (t.current t.defaultAccessor) (t.current (t.getNext t.defaultAccessor).1)
        (t.getNext t.defaultAccessor).2 xs xs (.getNext : Op V K) := by
  obtain ⟨x, hx⟩ := Option.isSome_iff_exists.1 hpos
  obtain ⟨before, behind, hat⟩ := exists_at hvalid hx
  obtain rfl := hb.items.symm.trans hat.items
  have hlands := hb.getNext hat
  have hsorted := hb.sorted
  obtain ⟨-, hbehind, hacross⟩ := List.pairwise_append.1 hsorted
  refine ⟨hb.moveTo hlands.valid, rfl, x, List.mem_append_right _ List.mem_cons_self, hx, ?_,
    fun hfalse => by rw [getNext_false hfalse]⟩
  rw [List.append_cons] at hsorted ⊢
  refine toFirst_of_lands hlands hsorted (fun y hy => ?_) fun y hy =>
    (List.pairwise_cons.1 hbehind).1 y (List.mem_of_head? hy)
  rcases List.mem_append.1 hy with hy | hy
  · exact (hacross y hy x List.mem_cons_self).not_gt
  · rw [List.mem_singleton.1 hy]
    exact lt_irrefl _

theorem Built.getPrev_does (hb : Built C t row xs) (hvalid : Valid row t.defaultAccessor)
    (hpos : Positioned t) : Holds C (t.moveTo (t.getPrev t.defaultAccessor)).1 xs ∧
      Does C (t.current t.defaultAccessor) (t.current (t.getPrev t.defaultAccessor).1)
        (t.getPrev t.defaultAccessor).2 xs xs (.getPrev : Op V K) := by
  obtain ⟨x, hx⟩ := Option.isSome_iff_exists.1 hpos
  obtain ⟨before, behind, hat⟩ := exists_at hvalid hx
  obtain rfl := hb.items.symm.trans hat.items
  have hlands := hb.getPrev hat
  obtain ⟨-, hbehind, hacross⟩ := List.pairwise_append.1 hb.sorted
  refine ⟨hb.moveTo hlands.valid, rfl, x, List.mem_append_right _ List.mem_cons_self, hx, ?_,
    fun hfalse => by rw [getPrev_false hfalse]⟩
  refine toLast_of_lands hlands hb.sorted (fun y hy => ?_) fun y hy =>
    hacross y (List.mem_of_getLast? hy) x List.mem_cons_self
  rcases List.mem_cons.1 hy with rfl | hy
  · exact lt_irrefl _
  · exact ((List.pairwise_cons.1 hbehind).1 y hy).not_gt

theorem Built.clear (hb : Built C t row xs) : Holds C t.clear [] := by
  rw [BePlusTree.clear]
  dsimp only
  by_cases hlevel : t.level = 0
  · obtain ⟨rows, habove⟩ := hb.above
    have hheight := habove.level
    rw [hlevel, Nat.zero_add] at hheight
    rw [List.length_eq_zero_iff.1 hheight.symm] at habove
    obtain ⟨r, rfl, hroot, -⟩ := habove
    have hflat : [r].flatMap (Function.update t.items r []) = [] := by
      rw [List.flatMap_singleton, Function.update_self]
    have hcount : ∀ i ∈ [r], (Function.update t.items r [] i).length ≤ C.leafCount := fun i hi => by
      rw [List.mem_singleton.1 hi, Function.update_self]
      exact Nat.zero_le _
    have hbuilt := (hb.setAccessor ⟨none, t.defaultAccessor.curPos⟩).of_items hflat List.Pairwise.nil
      hcount fun h => absurd hlevel h
    rw [if_pos hlevel]
    split
    · rename_i hnone
      exact nomatch hroot.symm.trans hnone
    · rename_i root hsome
      obtain rfl : root = r := Option.some.inj (hsome.symm.trans hroot)
      exact .built [root] hbuilt fun _ h => (nomatch h)
  · rw [if_neg hlevel]
    exact .new rfl rfl rfl rfl

theorem clear_curr (t : BePlusTree V) : t.clear.current t.clear.defaultAccessor = none := by
  have hcurr : t.clear.defaultAccessor.curr = none := by
    rw [BePlusTree.clear]
    dsimp only
    split
    · split <;> rfl
    · rfl
  rw [current, hcurr]
  rfl

variable [Inhabited V]

/-- The first item of a tree is added to a new leaf. -/
theorem add_new (hroot : t.root = none) : t.add C item =
    BePlusTree.add C { (t.newFirst 0).setItems t.fresh [] with root := some t.fresh } item := by
  rw [BePlusTree.add, hroot, BePlusTree.add]

theorem Built.add_does (hb : Built C t row xs) (hvalid : Valid row t.defaultAccessor) (item : V) :
    ∃ ys, Holds C (t.add C item).1 ys ∧ Does C (t.current t.defaultAccessor)
      ((t.add C item).1.current (t.add C item).1.defaultAccessor) (t.add C item).2 xs ys (.add item) := by
  obtain ⟨lo, up, rfl, hparted⟩ := exists_cut hb.sorted (C.key item)
  by_cases hhit : Hit C (C.key item) up
  · obtain ⟨hok, hbuilt, hlands⟩ := hb.add_hit hparted hhit
    refine ⟨lo ++ up, .built row hbuilt hlands.valid, ?_⟩
    rw [Does, hok, if_neg Bool.false_ne_true]
    obtain ⟨y, hy, hkey⟩ := hhit
    obtain ⟨up, rfl⟩ := List.head?_eq_some_iff.1 hy
    exact ⟨rfl, y, List.mem_append_right _ List.mem_cons_self, hlands.2.current, hkey⟩
  · obtain ⟨hok, hadded⟩ := hb.add_miss hparted hhit
    obtain ⟨row', hbuilt, hrow⟩ := hadded.built
    refine ⟨lo ++ item :: up, .built row' hbuilt fun p hp => ?_, ?_⟩
    · rw [hadded.defaultAccessor] at hp
      exact hrow p (hvalid p hp)
    · rw [Does, hok, if_pos rfl]
      refine ⟨fun x hx => ?_, fun y => ?_, hadded.positioned hvalid⟩
      · rcases List.mem_append.1 hx with hx | hx
        · exact (hparted.1 x hx).ne
        · obtain ⟨-, hup, -⟩ := List.pairwise_append.1 hb.sorted
          exact (forall_lt_of_head_ne hup hparted.2 (fun x hx hkey => hhit ⟨x, hx, hkey⟩) x hx).ne'
      · simp only [List.mem_append, List.mem_cons]
        tauto

theorem Built.fastRemove_does (hb : Built C t row xs) (hvalid : Valid row t.defaultAccessor)
    (hpos : Positioned t) : ∃ ys, Holds C (t.fastRemove C).1 ys ∧ Does C (t.current t.defaultAccessor)
      ((t.fastRemove C).1.current (t.fastRemove C).1.defaultAccessor) (t.fastRemove C).2 xs ys
      (.fastRemove : Op V K) := by
  obtain ⟨x, hx⟩ := Option.isSome_iff_exists.1 hpos
  obtain ⟨before, behind, hat⟩ := exists_at hvalid hx
  obtain rfl := hb.items.symm.trans hat.items
  obtain ⟨row', hremoved⟩ := hb.fastRemove hat
  have hsorted := hb.sorted
  obtain ⟨-, hbehind, hacross⟩ := List.pairwise_append.1 hsorted
  have hless : ∀ y ∈ before, C.key y < C.key x := fun y hy => hacross y hy x List.mem_cons_self
  have hgreater : ∀ y ∈ behind, C.key x < C.key y := (List.pairwise_cons.1 hbehind).1
  refine ⟨before ++ behind, .built row' hremoved.built hremoved.lands.valid, x,
    List.mem_append_right _ List.mem_cons_self, hx, fun y => ?_, ?_⟩
  · have hbefore : y ∈ before → y ≠ x := fun hy h => (hless y hy).ne (congrArg C.key h)
    have hbehind : y ∈ behind → y ≠ x := fun hy h => (hgreater y hy).ne' (congrArg C.key h)
    simp only [List.mem_append, List.mem_cons]
    tauto
  · exact toFirst_of_lands hremoved.lands hremoved.built.sorted (fun y hy => (hless y hy).not_gt)
      fun y hy => hgreater y (List.mem_of_head? hy)

/-- Every operation does what it is for, and leaves a tree that is well built. -/
theorem Holds.apply (h : Holds C t xs) (op : Op V K) (hop : op.Allowed t) :
    ∃ ys, Holds C (op.apply C t).1 ys ∧ Does C (t.current t.defaultAccessor)
      ((op.apply C t).1.current (op.apply C t).1.defaultAccessor) (op.apply C t).2 xs ys op := by
  cases h with
  | new hroot hlevel hcurr hxs =>
    subst hxs
    have hnone : t.current t.defaultAccessor = none := by
      rw [current, hcurr]
      rfl
    have hempty : Holds C t [] := .new hroot hlevel hcurr rfl
    have hno : ¬ Positioned t := fun hpos => by
      rw [Positioned, hnone] at hpos
      cases hpos
    cases op with
    | add item =>
      have hadd := (built_first (C := C) hlevel).add_does (fun _ h => absurd (hcurr.symm.trans h) (Option.some_ne_none _).symm) item
      have hnone' : current { (t.newFirst 0).setItems t.fresh [] with root := some t.fresh }
          t.defaultAccessor = none := by
        rw [current, hcurr]
        rfl
      rw [← add_new hroot] at hadd
      obtain ⟨ys, hholds, hdoes⟩ := hadd
      refine ⟨ys, hholds, ?_⟩
      rw [hnone]
      exact Eq.mp (congrArg (fun x => Does C x _ _ [] ys (.add item)) hnone') hdoes
    | fastRemove => exact absurd hop hno
    | locate lt key =>
      rw [Op.apply, BePlusTree.locate, hroot]
      refine ⟨[], hempty, ?_⟩
      cases lt <;> exact ⟨rfl, fun _ h => absurd h List.not_mem_nil⟩
    | getFirst =>
      rw [Op.apply, BePlusTree.getFirst, hroot]
      exact ⟨[], hempty, rfl, fun _ h => absurd h List.not_mem_nil⟩
    | getLast =>
      rw [Op.apply, BePlusTree.getLast, hroot]
      exact ⟨[], hempty, rfl, fun _ h => absurd h List.not_mem_nil⟩
    | getNext => exact absurd hop hno
    | getPrev => exact absurd hop hno
    | clear =>
      refine ⟨[], ?_, rfl, clear_curr t⟩
      rw [Op.apply, BePlusTree.clear]
      dsimp only
      rw [if_pos hlevel, hroot]
      exact .new rfl hlevel rfl rfl
  | built row hb hvalid =>
    cases op with
    | add item => exact hb.add_does hvalid item
    | fastRemove => exact hb.fastRemove_does hvalid hop
    | locate lt key =>
      obtain ⟨lo, up, rfl, hparted⟩ := exists_cut hb.sorted key
      obtain ⟨hvalid', hdoes⟩ := hb.locate_does hparted lt t.defaultAccessor
      exact ⟨_, hb.moveTo hvalid', hdoes⟩
    | getFirst =>
      have hlands := hb.getFirst t.defaultAccessor
      have hsorted : Sorted C ([] ++ xs) := hb.sorted
      exact ⟨_, hb.moveTo hlands.valid, rfl, toFirst_of_lands hlands hsorted
        (fun _ h => absurd h List.not_mem_nil) fun _ _ => trivial⟩
    | getLast =>
      have hlands := hb.getLast t.defaultAccessor
      have hsorted := hb.sorted
      rw [← List.append_nil xs] at hsorted
      have hlast := toLast_of_lands (P := fun _ => True) hlands hsorted
        (fun _ h => absurd h List.not_mem_nil) fun _ _ => trivial
      rw [List.append_nil] at hlast
      exact ⟨_, hb.moveTo hlands.valid, rfl, hlast⟩
    | getNext => exact ⟨_, hb.getNext_does hvalid hop⟩
    | getPrev => exact ⟨_, hb.getPrev_does hvalid hop⟩
    | clear => exact ⟨[], hb.clear, rfl, clear_curr t⟩

end Step

/-! ## Runs -/

section Runs
variable [Inhabited V] [LinearOrder K]

theorem holds_along (C : Config V K) (ops : List (Op V K))
    (hops : AlongRun (Op.step C) (fun t op => op.Allowed t) empty ops) :
    ∃ xs, Holds C (run (Op.step C) empty ops) xs := by
  refine run_invariant (fun t => ∃ xs, Holds C t xs) (fun t op hinv hop => ?_) ?_ hops
  · obtain ⟨xs, hxs⟩ := hinv
    obtain ⟨ys, hys, -⟩ := hxs.apply op hop
    exact ⟨ys, hys⟩
  · exact ⟨[], .new rfl rfl rfl rfl⟩

/-- Whatever was done to a new tree, it is a B+ tree that holds some items in the order of their keys,
and the next operation does what it should do with these items. -/
theorem sortedSet_along (C : Config V K) (ops : List (Op V K))
    (hops : AlongRun (Op.step C) (fun t op => op.Allowed t) empty ops) :
    ∃ xs, Holds C (run (Op.step C) empty ops) xs ∧ ∀ op : Op V K,
      op.Allowed (run (Op.step C) empty ops) →
        ∃ ys, Holds C (op.step C (run (Op.step C) empty ops)) ys ∧
          let r := op.apply C (run (Op.step C) empty ops)
          Does C ((run (Op.step C) empty ops).current (run (Op.step C) empty ops).defaultAccessor)
            (r.1.current r.1.defaultAccessor) r.2 xs ys op := by
  obtain ⟨xs, hxs⟩ := holds_along C ops hops
  exact ⟨xs, hxs, fun op hop => hxs.apply op hop⟩

end Runs

/-- Small pages, of numbers that are their own keys. -/
def small : Config ℕ ℕ := ⟨id, 2, 2, Nat.two_pos, by decide⟩

/-- The tree gets three levels, and loses the items in the middle. -/
def smallOps : List (Op ℕ ℕ) :=
  [.add 5, .add 1, .add 9, .add 3, .add 7, .add 4, .locate .locGreat 3, .fastRemove, .fastRemove, .getNext,
    .getPrev]

theorem smallOps_sortedSet : AlongRun (Op.step small) (fun t op => op.Allowed t) empty smallOps ∧
    ∃ xs, Holds small (run (Op.step small) empty smallOps) xs := by
  have hops : AlongRun (Op.step small) (fun t op => op.Allowed t) empty smallOps := by decide +kernel
  obtain ⟨xs, hxs, -⟩ := sortedSet_along small smallOps hops
  exact ⟨hops, xs, hxs⟩

end FirebirdCore.Tree
