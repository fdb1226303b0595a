import FirebirdCore.Tree.Built

/-!
# Finding items

Where an accessor goes is said by the items in front of it and behind it. A search that fails leaves
it on a leaf of the tree, or nowhere.
-/
namespace FirebirdCore.Tree
open FirebirdCore.LowerBound FirebirdCore.LinkedRow BePlusTree

variable {V K : Type*} {t : BePlusTree V} {row front back : List ℕ} {p : ℕ} {acc : Accessor}
  {before behind u v xs : List V} {x : V}

/-- The accessor is on the item `x`, between those of `before` and `behind`. -/
def At (t : BePlusTree V) (row : List ℕ) (acc : Accessor) (before : List V) (x : V)
    (behind : List V) : Prop :=
  ∃ front p back u v, row = front ++ p :: back ∧ t.items p = u ++ x :: v ∧ acc = ⟨some p, u.length⟩ ∧
    before = front.flatMap t.items ++ u ∧ behind = v ++ back.flatMap t.items

/-- The accessor is on a leaf, or nowhere. -/
def Valid (row : List ℕ) (acc : Accessor) : Prop := ∀ p ∈ acc.curr, p ∈ row

theorem At.current (h : At t row acc before x behind) : t.current acc = some x := by
  obtain ⟨front, p, back, u, v, -, hitems, rfl, -⟩ := h
  rw [BePlusTree.current, Option.bind_some, hitems, List.getElem?_append_right le_rfl, Nat.sub_self]
  rfl

theorem At.items (h : At t row acc before x behind) :
    row.flatMap t.items = before ++ x :: behind := by
  obtain ⟨front, p, back, u, v, rfl, hitems, -, rfl, rfl⟩ := h
  rw [List.flatMap_append, List.flatMap_cons, hitems]
  simp only [List.append_assoc, List.cons_append]

theorem At.valid (h : At t row acc before x behind) : Valid row acc := by
  obtain ⟨front, p, back, u, v, rfl, -, rfl, -⟩ := h
  rintro _ ⟨⟩
  exact List.mem_append_right _ List.mem_cons_self

/-- A valid accessor that has an item is on it. -/
theorem exists_at (hvalid : Valid row acc) (hcurrent : t.current acc = some x) :
    ∃ before behind, At t row acc before x behind := by
  obtain ⟨curr, curPos⟩ := acc
  obtain ⟨p, rfl, hp⟩ := Option.bind_eq_some_iff.1 hcurrent
  obtain ⟨front, back, hrow⟩ := List.append_of_mem (hvalid p rfl)
  obtain ⟨hlt, hx⟩ := List.getElem?_eq_some_iff.1 hp
  refine ⟨_, _, front, p, back, (t.items p).take curPos, (t.items p).drop (curPos + 1), hrow, ?_, ?_,
    rfl, rfl⟩
  · rw [← hx, List.getElem_cons_drop, List.take_append_drop]
  · rw [List.length_take_of_le hlt.le]

/-- The accessor goes to the first item of `behind`, if there is one. -/
def LandsFirst (t : BePlusTree V) (row : List ℕ) (r : Accessor × Bool) (before behind : List V) :
    Prop :=
  match behind with
  | [] => r.2 = false ∧ Valid row r.1
  | x :: behind => r.2 = true ∧ At t row r.1 before x behind

/-- The accessor goes to the last item of `before`, if there is one. -/
def LandsLast (t : BePlusTree V) (row : List ℕ) (r : Accessor × Bool) (before behind : List V) :
    Prop :=
  match before.getLast? with
  | none => r.2 = false ∧ Valid row r.1
  | some x => r.2 = true ∧ At t row r.1 before.dropLast x behind

theorem valid_nil (row : List ℕ) (curPos : ℕ) : Valid row ⟨none, curPos⟩ := fun _ h => (nomatch h)

variable [LinearOrder K] {C : Config V K} {key : K}

theorem Built.lands_next (hb : Built C t (front ++ p :: back) xs) :
    LandsFirst t (front ++ p :: back) (⟨(t.page 0).next p, 0⟩, ((t.page 0).next p).isSome)
      (front.flatMap t.items ++ t.items p) (back.flatMap t.items) := by
  obtain ⟨-, hnext⟩ := linked_middle hb.leaves.linked
  rw [hnext]
  cases back with
  | nil => exact ⟨rfl, valid_nil _ _⟩
  | cons q back =>
    have hne := hb.leaf_ne_nil (two_le_length ..) q
      (List.mem_append_right _ (List.mem_cons_of_mem _ List.mem_cons_self))
    obtain ⟨y, l, hl⟩ := List.exists_cons_of_ne_nil hne
    rw [List.flatMap_cons, hl]
    refine ⟨rfl, front ++ [p], q, back, [], l, List.append_cons .., hl, rfl, ?_, rfl⟩
    rw [List.flatMap_append, List.flatMap_singleton, List.append_nil]

theorem Built.lands_prev (hb : Built C t (front ++ p :: back) xs) :
    LandsLast t (front ++ p :: back) (locateLess t p 0)
      (front.flatMap t.items) (t.items p ++ back.flatMap t.items) := by
  obtain ⟨hprev, -⟩ := linked_middle hb.leaves.linked
  rw [locateLess, if_pos rfl, hprev]
  rcases List.eq_nil_or_concat' front with rfl | ⟨front, q, rfl⟩
  · exact ⟨rfl, valid_nil _ _⟩
  · rw [← List.append_cons] at hb ⊢
    have hne := hb.leaf_ne_nil (two_le_length ..) q (List.mem_append_right _ List.mem_cons_self)
    obtain ⟨l, y, hl⟩ := (List.eq_nil_or_concat' (t.items q)).resolve_left hne
    rw [List.flatMap_append, List.flatMap_singleton, hl, ← List.append_assoc, LandsLast,
      List.getLast?_concat, List.getLast?_concat, List.dropLast_concat]
    refine ⟨rfl, front, q, p :: back, l, [], rfl, hl, ?_, rfl, rfl⟩
    dsimp only
    rw [hl, List.length_append, List.length_singleton, Nat.add_sub_cancel]

/-- The first item from a position in a leaf on. -/
theorem Built.lands_from (hb : Built C t (front ++ p :: back) xs) (hitems : t.items p = u ++ v) :
    LandsFirst t (front ++ p :: back)
      (if u.length = (t.items p).length then (⟨(t.page 0).next p, 0⟩, ((t.page 0).next p).isSome)
        else (⟨some p, u.length⟩, true))
      (front.flatMap t.items ++ u) (v ++ back.flatMap t.items) := by
  cases v with
  | nil =>
    have hnext := hb.lands_next
    rw [hitems, List.append_nil] at hnext
    rw [hitems, List.append_nil, if_pos rfl]
    exact hnext
  | cons y v =>
    rw [if_neg (by rw [hitems, List.length_append, List.length_cons]; omega)]
    exact ⟨rfl, front, p, back, u, v, rfl, hitems, rfl, rfl, rfl⟩

/-- The last item in front of a position in a leaf. -/
theorem Built.lands_before (hb : Built C t (front ++ p :: back) xs) (hitems : t.items p = u ++ v) :
    LandsLast t (front ++ p :: back) (locateLess t p u.length)
      (front.flatMap t.items ++ u) (v ++ back.flatMap t.items) := by
  rcases List.eq_nil_or_concat' u with rfl | ⟨u, y, rfl⟩
  · have hprev := hb.lands_prev
    rw [hitems, List.nil_append] at hprev
    rw [List.append_nil]
    exact hprev
  · rw [locateLess, if_neg (by rw [List.length_append, List.length_singleton]; omega),
      ← List.append_assoc, LandsLast, List.getLast?_concat, List.dropLast_concat]
    refine ⟨rfl, front, p, back, u, v, rfl, ?_, ?_, rfl, rfl⟩
    · rw [hitems, List.append_assoc, List.singleton_append]
    · rw [List.length_append, List.length_singleton, Nat.add_sub_cancel]

/-! ## Stepping -/

theorem Built.getNext (hb : Built C t row xs) (hat : At t row acc before x behind) :
    LandsFirst t row (t.getNext acc) (before ++ [x]) behind := by
  have hvalid := hat.valid
  obtain ⟨front, p, back, u, v, rfl, hitems, rfl, rfl, rfl⟩ := hat
  rw [BePlusTree.getNext]
  dsimp only
  cases v with
  | nil =>
    have hlands := hb.lands_next
    rw [(linked_middle hb.leaves.linked).2] at hlands ⊢
    rw [if_pos (by rw [hitems, List.length_append, List.length_singleton]), List.append_assoc, ← hitems]
    cases back with
    | nil => exact ⟨rfl, hvalid⟩
    | cons q back => exact hlands
  | cons y v =>
    rw [if_neg (by rw [hitems, List.length_append, List.length_cons, List.length_cons]; omega)]
    refine ⟨rfl, front, p, back, u ++ [x], v, rfl, ?_, ?_, List.append_assoc .., rfl⟩
    · rw [hitems, List.append_cons]
    · rw [List.length_append, List.length_singleton]

theorem Built.getPrev (hb : Built C t row xs) (hat : At t row acc before x behind) :
    LandsLast t row (t.getPrev acc) before (x :: behind) := by
  have hvalid := hat.valid
  obtain ⟨front, p, back, u, v, rfl, hitems, rfl, rfl, rfl⟩ := hat
  have hbefore := hb.lands_before hitems
  rw [locateLess, (linked_middle hb.leaves.linked).1] at hbefore
  rw [BePlusTree.getPrev]
  dsimp only
  rw [(linked_middle hb.leaves.linked).1]
  by_cases hu : u.length = 0
  · rw [if_pos hu] at hbefore ⊢
    rw [List.length_eq_zero_iff.1 hu, List.append_nil] at hbefore ⊢
    rcases List.eq_nil_or_concat' front with rfl | ⟨front, q, rfl⟩
    · exact ⟨rfl, hvalid⟩
    · rw [List.getLast?_concat] at hbefore ⊢
      exact hbefore
  · rw [if_neg hu] at hbefore ⊢
    exact hbefore

theorem Built.row_ne_nil (hb : Built C t row xs) : row ≠ [] := by
  obtain ⟨rows, habove⟩ := hb.above
  cases rows with
  | nil =>
    obtain ⟨r, rfl, -⟩ := habove
    exact List.cons_ne_nil _ _
  | cons row' rows =>
    rintro rfl
    exact absurd habove.1.two (by decide)

/-- A leaf without items is the only one. -/
theorem Built.empty_leaf (hb : Built C t (front ++ p :: back) xs) (hp : t.items p = []) :
    front = [] ∧ back = [] := by
  have hne : ¬ 2 ≤ (front ++ p :: back).length := fun hmany =>
    hb.leaf_ne_nil hmany p (List.mem_append_right _ List.mem_cons_self) hp
  rw [List.length_append, List.length_cons] at hne
  exact ⟨List.length_eq_zero_iff.1 (by omega), List.length_eq_zero_iff.1 (by omega)⟩

theorem Built.getFirst (hb : Built C t row xs) (acc : Accessor) :
    LandsFirst t row (t.getFirst acc) [] xs := by
  obtain ⟨rows, habove⟩ := hb.above
  obtain ⟨r, hroot, hfirst, -⟩ := habove.descend
  obtain ⟨p, back, rfl⟩ := List.exists_cons_of_ne_nil hb.row_ne_nil
  rw [firstLeaf, List.getD_cons_zero] at hfirst
  rw [BePlusTree.getFirst, hroot]
  dsimp only
  rw [hfirst, ← hb.items, List.flatMap_cons]
  cases hp : t.items p with
  | nil =>
    have hb' : Built C t ([] ++ p :: back) xs := hb
    obtain ⟨-, rfl⟩ := hb'.empty_leaf hp
    refine ⟨rfl, ?_⟩
    rintro _ ⟨⟩
    exact List.mem_cons_self
  | cons x v => exact ⟨rfl, [], p, back, [], v, rfl, hp, rfl, rfl, rfl⟩

theorem Built.getLast (hb : Built C t row xs) (acc : Accessor) :
    LandsLast t row (t.getLast acc) xs [] := by
  obtain ⟨rows, habove⟩ := hb.above
  obtain ⟨r, hroot, -, hlast⟩ := habove.descend
  obtain ⟨front, p, rfl⟩ := (List.eq_nil_or_concat' row).resolve_left hb.row_ne_nil
  rw [lastLeaf, List.length_append, List.length_singleton, Nat.add_sub_cancel, getD_concat] at hlast
  rw [BePlusTree.getLast, hroot]
  dsimp only
  rw [hlast, ← hb.items, List.flatMap_append, List.flatMap_singleton]
  rcases List.eq_nil_or_concat' (t.items p) with hp | ⟨u, x, hp⟩
  · obtain ⟨rfl, -⟩ := hb.empty_leaf hp
    rw [hp, if_neg (fun h => h rfl)]
    refine ⟨rfl, ?_⟩
    rintro _ ⟨⟩
    exact List.mem_cons_self
  · rw [hp, if_pos (by rw [List.length_append, List.length_singleton]; omega), ← List.append_assoc,
      LandsLast, List.getLast?_concat, List.dropLast_concat]
    refine ⟨rfl, front, p, [], u, [], rfl, hp, ?_, rfl, rfl⟩
    rw [List.length_append, List.length_singleton, Nat.add_sub_cancel]

/-! ## Searching -/

/-- The items in front of the place of a key, and those behind it. -/
def Parted (C : Config V K) (key : K) (lo up : List V) : Prop :=
  (∀ x ∈ lo, C.key x < key) ∧ ∀ x ∈ up, key ≤ C.key x

/-- The key is there. -/
def Hit (C : Config V K) (key : K) (up : List V) : Prop := ∃ x ∈ up.head?, C.key x = key

theorem Parted.unique {lo up lo' up' : List V} (h : Parted C key lo up) (h' : Parted C key lo' up')
    (heq : lo ++ up = lo' ++ up') : lo = lo' ∧ up = up' := by
  induction lo generalizing lo' with
  | nil =>
    cases lo' with
    | nil => exact ⟨rfl, heq⟩
    | cons y lo' =>
      refine absurd (h'.1 y List.mem_cons_self) (not_lt.2 (h.2 y ?_))
      rw [List.nil_append] at heq
      exact heq ▸ List.mem_cons_self
  | cons x lo ih =>
    cases lo' with
    | nil =>
      refine absurd (h.1 x List.mem_cons_self) (not_lt.2 (h'.2 x ?_))
      rw [List.nil_append] at heq
      exact heq ▸ List.mem_cons_self
    | cons y lo' =>
      rw [List.cons_append, List.cons_append, List.cons.injEq] at heq
      obtain ⟨hlo, hup⟩ := ih ⟨fun z hz => h.1 z (List.mem_cons_of_mem _ hz), h.2⟩
        ⟨fun z hz => h'.1 z (List.mem_cons_of_mem _ hz), h'.2⟩ heq.2
      exact ⟨by rw [heq.1, hlo], hup⟩

/-- Where a search goes to, for each way to search. -/
def Locates (C : Config V K) (t : BePlusTree V) (row : List ℕ) (key : K) (lo up : List V)
    (r : Accessor × Bool) : LocType → Prop
  | .locEqual => (Hit C key up → LandsFirst t row r lo up) ∧
      (¬ Hit C key up → r.2 = false ∧ Valid row r.1)
  | .locGreatEqual => LandsFirst t row r lo up
  | .locGreat => (Hit C key up → LandsFirst t row r (lo ++ up.take 1) (up.drop 1)) ∧
      (¬ Hit C key up → LandsFirst t row r lo up)
  | .locLess => LandsLast t row r lo up
  | .locLessEqual => (Hit C key up → LandsFirst t row r lo up) ∧
      (¬ Hit C key up → LandsLast t row r lo up)

theorem Place.parted (hp : Place C t row key p front back u v) :
    Parted C key (front.flatMap t.items ++ u) (v ++ back.flatMap t.items) :=
  ⟨hp.less, fun x hx => (List.mem_append.1 hx).elim (hp.notLess x) fun hx => (hp.back x hx).le⟩

/-- The key is found if it is there. -/
theorem Place.hit (hp : Place C t row key p front back u v) :
    (t.findItem C p key).1 = true ↔ Hit C key (v ++ back.flatMap t.items) := by
  rw [hp.find, Hit]
  cases v with
  | nil =>
    refine ⟨fun h => (nomatch h), fun ⟨x, hx, hkey⟩ => ?_⟩
    exact absurd hkey (hp.back x (List.mem_of_head? hx)).ne'
  | cons y v => simp

variable [Inhabited V] {lo up : List V}

theorem Built.locate (hb : Built C t row (lo ++ up)) (hparted : Parted C key lo up) (acc : Accessor)
    (lt : LocType) : Locates C t row key lo up (t.locate C acc lt key) lt := by
  obtain ⟨r, p, front, back, u, v, hroot, hfind, hp⟩ := hb.place key
  obtain ⟨rfl, rfl⟩ := hparted.unique hp.parted (by
    rw [← hb.items, hp.row, List.flatMap_append, List.flatMap_cons, hp.items]
    simp only [List.append_assoc])
  obtain rfl := hp.row
  have hpos : (t.findItem C p key).2 = u.length := by rw [hp.find]
  have hhit := hp.hit
  have hmem : p ∈ front ++ p :: back := List.mem_append_right _ List.mem_cons_self
  have hmiss : ¬ Hit C key (v ++ back.flatMap t.items) → (t.findItem C p key).1 = false :=
    fun h => Bool.eq_false_iff.2 (mt hhit.1 h)
  have hcons : Hit C key (v ++ back.flatMap t.items) → ∃ y v', v = y :: v' := by
    intro h
    rw [← hhit, hp.find] at h
    cases v with
    | nil => exact nomatch h
    | cons y v => exact ⟨y, v, rfl⟩
  have hhere : Hit C key (v ++ back.flatMap t.items) → LandsFirst t (front ++ p :: back)
      (⟨some p, u.length⟩, true) (front.flatMap t.items ++ u) (v ++ back.flatMap t.items) := by
    intro h
    obtain ⟨y, v, rfl⟩ := hcons h
    exact ⟨rfl, front, p, back, u, v, rfl, hp.items, rfl, rfl, rfl⟩
  have hfrom := hb.lands_from hp.items
  have hbefore := hb.lands_before hp.items
  rw [BePlusTree.locate, hroot]
  dsimp only
  rw [hfind, hpos]
  cases lt with
  | locEqual =>
    refine ⟨fun h => ?_, fun h => ⟨hmiss h, ?_⟩⟩
    · dsimp only
      rw [hhit.2 h]
      exact hhere h
    · rintro _ ⟨⟩
      exact hmem
  | locLess => exact hbefore
  | locGreat =>
    dsimp only
    refine ⟨fun h => ?_, fun h => ?_⟩
    · obtain ⟨y, v, rfl⟩ := hcons h
      have hfrom := hb.lands_from (u := u ++ [y]) (v := v) (by rw [hp.items, List.append_cons])
      rw [List.length_append, List.length_singleton, ← List.append_assoc] at hfrom
      rw [if_pos (hhit.2 h)]
      exact hfrom
    · rw [hmiss h, if_neg Bool.false_ne_true]
      exact hfrom
  | locGreatEqual =>
    dsimp only
    by_cases h : Hit C key (v ++ back.flatMap t.items)
    · obtain ⟨y, v, rfl⟩ := hcons h
      rw [if_neg (by rw [hp.items, List.length_append, List.length_cons]; omega)]
      exact hhere h
    · rw [hmiss h, Bool.false_or]
      exact hfrom
  | locLessEqual =>
    dsimp only
    refine ⟨fun h => ?_, fun h => ?_⟩
    · rw [if_pos (hhit.2 h)]
      exact hhere h
    · rw [if_neg (by rw [hmiss h]; exact Bool.false_ne_true)]
      exact hbefore

end FirebirdCore.Tree
