import FirebirdCore.Temp.FreeSpace
import Mathlib.Data.List.TakeWhile

/-!
# The free segments stay apart

`Spread` is the order of the free segments: each ends in front of the next one, with a gap between
them. Every operation keeps it, and the free and the allocated segments together tile the space.
-/
namespace FirebirdCore.Temp
open FirebirdCore.Buffer FreeSegments TempSpace

/-- There is something between the two segments. -/
def Segment.Before (a b : Segment) : Prop := a.position + a.size < b.position

/-- In order, and not adjacent to each other. -/
def Spread (free : List Segment) : Prop := free.Pairwise Segment.Before

section Spread
variable {free before after : List Segment} {c c' : Segment} {key : ℕ}

theorem Segment.Before.lt (h : c.Before c') : c.position < c'.position := by
  rw [Segment.Before] at h
  omega

theorem spread_middle : Spread (before ++ c :: after) ↔
    Spread (before ++ after) ∧ (∀ s ∈ before, s.Before c) ∧ ∀ s ∈ after, c.Before s := by
  simp only [Spread, List.pairwise_append, List.pairwise_cons, List.forall_mem_cons]
  constructor
  · rintro ⟨hbefore, ⟨hc, hafter⟩, hboth⟩
    exact ⟨⟨hbefore, hafter, fun s hs => (hboth s hs).2⟩, fun s hs => (hboth s hs).1, hc⟩
  · rintro ⟨⟨hbefore, hafter, hboth⟩, hc, hc'⟩
    exact ⟨hbefore, ⟨hc', hafter⟩, fun s hs => ⟨hc s hs, hboth s hs⟩⟩

theorem below_append_fromKey (free : List Segment) (key : ℕ) :
    below free key ++ fromKey free key = free :=
  List.takeWhile_append_dropWhile ..

theorem lt_of_mem_below {s : Segment} (h : s ∈ below free key) : s.position < key :=
  of_decide_eq_true (List.mem_takeWhile_imp (p := fun s : Segment => decide (s.position < key)) h)

theorem le_of_mem_fromKey (hfree : Spread free) {s : Segment} (h : s ∈ fromKey free key) :
    key ≤ s.position := by
  induction free with
  | nil => exact absurd h List.not_mem_nil
  | cons a free ih =>
    obtain ⟨ha, hfree⟩ := List.pairwise_cons.1 hfree
    by_cases hkey : a.position < key
    · rw [fromKey, List.dropWhile_cons_of_pos (by simpa using hkey)] at h
      exact ih hfree h
    · rw [fromKey, List.dropWhile_cons_of_neg (by simpa using hkey)] at h
      rcases List.mem_cons.1 h with rfl | h
      · omega
      · have := (ha s h).lt
        omega

/-- The list is cut at the key. -/
theorem below_eq (hbefore : ∀ s ∈ before, s.position < key) (hafter : ∀ s ∈ after.head?, key ≤ s.position) :
    below (before ++ after) key = before ∧ fromKey (before ++ after) key = after := by
  have hnone : after.takeWhile (·.position < key) = [] ∧ after.dropWhile (·.position < key) = after := by
    cases after with
    | nil => exact ⟨rfl, rfl⟩
    | cons a after =>
      have ha : ¬ decide (a.position < key) = true := by
        have := hafter a rfl
        simp only [decide_eq_true_eq]
        omega
      exact ⟨List.takeWhile_cons_of_neg ha, List.dropWhile_cons_of_neg ha⟩
  have hall : ∀ s ∈ before, decide (s.position < key) = true :=
    fun s hs => decide_eq_true (hbefore s hs)
  rw [below, fromKey, List.takeWhile_append_of_pos hall, List.dropWhile_append_of_pos hall, hnone.1,
    hnone.2, List.append_nil]
  exact ⟨rfl, rfl⟩

theorem locateEqual_some {c : Cursor} (h : locateEqual free key = some c) :
    free = c.before ++ c.current :: c.after ∧ c.current.position = key ∧
      ∀ s ∈ c.before, s.position < key := by
  rw [locateEqual] at h
  split at h
  · exact absurd h (fun h => nomatch h)
  · next current after hfrom =>
    by_cases hcurrent : current.position = key
    · rw [if_pos hcurrent, Option.some.injEq] at h
      subst h
      refine ⟨?_, hcurrent, fun s hs => lt_of_mem_below hs⟩
      rw [← hfrom, below_append_fromKey]
    · rw [if_neg hcurrent] at h
      exact absurd h (fun h => nomatch h)

theorem locateEqual_none (hfree : Spread free) (h : locateEqual free key = none) :
    ∀ s ∈ free, s.position ≠ key := by
  intro s hs heq
  rw [← below_append_fromKey free key, List.mem_append] at hs
  rcases hs with hs | hs
  · exact absurd (lt_of_mem_below hs) (by omega)
  · rw [locateEqual] at h
    split at h
    · next hfrom => exact absurd (hfrom ▸ hs) List.not_mem_nil
    · next current after hfrom =>
      have hcurrent : current.position ≠ key := fun hcurrent => by
        rw [if_pos hcurrent] at h
        exact absurd h (fun h => nomatch h)
      have hmem : current ∈ fromKey free key := hfrom ▸ List.mem_cons_self
      have hle := le_of_mem_fromKey hfree hmem
      have hspread : Spread (current :: after) := by
        rw [← hfrom]
        exact hfree.sublist (List.dropWhile_sublist _)
      rw [hfrom] at hs
      rcases List.mem_cons.1 hs with rfl | hs
      · exact hcurrent heq
      · have := ((List.pairwise_cons.1 hspread).1 s hs).lt
        omega

/-- A key that is there is found. -/
theorem locateEqual_eq (hbefore : ∀ s ∈ before, s.position < c.position) :
    locateEqual (before ++ c :: after) c.position = some ⟨before, c, after⟩ := by
  have hafter : ∀ s ∈ (c :: after).head?, c.position ≤ s.position :=
    fun s hs => (Option.some.inj hs) ▸ le_rfl
  obtain ⟨hbelow, hfrom⟩ := below_eq hbefore hafter
  rw [locateEqual, hfrom, hbelow]
  exact if_pos rfl

theorem locateLess_some (hfree : Spread free) {c : Cursor} (h : locateLess free key = some c) :
    free = c.before ++ c.current :: c.after ∧ c.current.position < key ∧
      ∀ s ∈ c.after, key ≤ s.position := by
  rw [locateLess, Option.map_eq_some_iff] at h
  obtain ⟨current, hlast, rfl⟩ := h
  have hbelow := List.dropLast_append_getLast? _ hlast
  refine ⟨?_, lt_of_mem_below (List.mem_of_getLast? hlast),
    fun s hs => le_of_mem_fromKey hfree hs⟩
  dsimp only
  rw [List.append_cons, hbelow, below_append_fromKey]

theorem locateLess_none (hfree : Spread free) (h : locateLess free key = none) :
    ∀ s ∈ free, key ≤ s.position := by
  rw [locateLess, Option.map_eq_none_iff, List.getLast?_eq_none_iff] at h
  intro s hs
  rw [← below_append_fromKey free key, h, List.nil_append] at hs
  exact le_of_mem_fromKey hfree hs

theorem add_eq (hbefore : ∀ s ∈ before, s.position < c.position)
    (hafter : ∀ s ∈ after, c.position < s.position) :
    add (before ++ after) c = before ++ c :: after := by
  have hne : locateEqual (before ++ after) c.position = none := by
    by_contra hsome
    obtain ⟨cursor, hcursor⟩ := Option.ne_none_iff_exists'.1 hsome
    obtain ⟨hfree, hcurrent, -⟩ := locateEqual_some hcursor
    have hmem : cursor.current ∈ before ++ after := hfree ▸ List.mem_append_right _ List.mem_cons_self
    rcases List.mem_append.1 hmem with hmem | hmem
    · exact absurd (hbefore _ hmem) (by omega)
    · exact absurd (hafter _ hmem) (by omega)
  obtain ⟨hbelow, hfrom⟩ := below_eq hbefore
    (fun s hs => (hafter s (List.mem_of_head? hs)).le)
  rw [add, hne, hbelow, hfrom]
  rfl

/-! ## Releasing -/

theorem middle_perm (before after : List Segment) (c : Segment) (es : List Extent) :
    ((before ++ c :: after).map Segment.extent ++ es).Perm
      (c.extent :: ((before ++ after).map Segment.extent ++ es)) := by
  rw [List.map_append, List.map_cons, List.map_append, List.append_assoc, List.append_assoc]
  exact List.perm_middle

variable {es : List Extent} {position size n : ℕ}

/-- The range in front of a segment is joined with it. -/
theorem tiles_joinNext (hsize : 0 < size) (hc : c.position = position + size)
    (h : Tiles (⟨position, size⟩ :: ((before ++ c :: after).map Segment.extent ++ es)) n) :
    Tiles ((before ++ ⟨position, c.size + size⟩ :: after).map Segment.extent ++ es) n := by
  have h := h.perm (List.Perm.cons _ (middle_perm before after c es))
  obtain ⟨p, csize⟩ := c
  subst hc
  have hcsize := (h.inside _ (List.mem_cons_of_mem _ List.mem_cons_self)).1
  have hjoin := (Tiles.cut_iff hsize hcsize).2 h
  rw [Nat.add_comm] at hjoin
  exact hjoin.perm (middle_perm before after ⟨position, csize + size⟩ es).symm

/-- The range behind a segment is joined with it. -/
theorem tiles_joinPrior (hsize : 0 < size) (hc : position = c.position + c.size)
    (h : Tiles (⟨position, size⟩ :: ((before ++ c :: after).map Segment.extent ++ es)) n) :
    Tiles ((before ++ ⟨c.position, c.size + size⟩ :: after).map Segment.extent ++ es) n := by
  have h := h.perm (List.Perm.cons _ (middle_perm before after c es))
  subst hc
  have hcsize := (h.inside _ (List.mem_cons_of_mem _ List.mem_cons_self)).1
  have hjoin := (Tiles.cut_iff hcsize hsize).2 (h.perm (List.Perm.swap ..))
  exact hjoin.perm (middle_perm before after ⟨c.position, c.size + size⟩ es).symm

/-- A segment of the tiling is apart from the range in front of all. -/
theorem tiles_apart {free : List Segment}
    (h : Tiles (⟨position, size⟩ :: (free.map Segment.extent ++ es)) n) {s : Segment} (hs : s ∈ free) :
    0 < s.size ∧ (position + size ≤ s.position ∨ s.position + s.size ≤ position) := by
  have hmem : s.extent ∈ free.map Segment.extent ++ es :=
    List.mem_append_left _ (List.mem_map_of_mem hs)
  exact ⟨(h.inside _ (List.mem_cons_of_mem _ hmem)).1, (List.pairwise_cons.1 h.apart).1 _ hmem⟩

/-- A segment may become larger where nothing is close to it. -/
theorem spread_replace (h : Spread (before ++ c :: after)) (hbefore : ∀ s ∈ before, s.Before c')
    (hafter : ∀ s ∈ after, c'.Before s) : Spread (before ++ c' :: after) :=
  spread_middle.2 ⟨(spread_middle.1 h).1, hbefore, hafter⟩

theorem release_next (hfree : Spread (before ++ c :: after)) (hc : c.position = position + size)
    (hbefore : ∀ s ∈ before, s.position < position + size)
    (h : Tiles (⟨position, size⟩ :: ((before ++ c :: after).map Segment.extent ++ es)) n)
    (hlast : ∀ s ∈ before.getLast?, position ≠ s.position + s.size) :
    Spread (before ++ ⟨position, c.size + size⟩ :: after) := by
  obtain ⟨hboth, -, hafter⟩ := spread_middle.1 hfree
  refine spread_replace hfree (fun s hs => ?_) (fun s hs => ?_)
  · have hs' := hbefore s hs
    obtain ⟨hpos, hapart⟩ := tiles_apart h (List.mem_append_left _ hs)
    have hend : s.position + s.size ≤ position := by omega
    show s.position + s.size < position
    refine lt_of_le_of_ne hend fun heq => ?_
    -- Only the last one can end here.
    obtain ⟨front, last, rfl⟩ := List.eq_nil_or_concat' before |>.resolve_left (List.ne_nil_of_mem hs)
    rw [List.getLast?_concat] at hlast
    rcases List.mem_append.1 hs with hs | hs
    · have hbefore' := (List.pairwise_append.1 (hboth.sublist (List.sublist_append_left ..))).2.2 s hs
        last List.mem_cons_self
      obtain ⟨-, hapart'⟩ := tiles_apart h
        (List.mem_append_left _ (List.mem_append_right _ (List.mem_cons_self (a := last))))
      have hlt := hbefore last (List.mem_append_right _ List.mem_cons_self)
      have hgap : s.position + s.size < last.position := hbefore'
      omega
    · rw [List.mem_singleton.1 hs] at heq
      exact hlast last rfl heq.symm
  · have hs := hafter s hs
    rw [Segment.Before] at hs ⊢
    dsimp only
    omega

/-- A segment joined with its prior one, or with the one behind it too. -/
theorem release_prior (hfree : Spread (before ++ c :: after)) (hc : position = c.position + c.size)
    (hafter : ∀ s ∈ after, position + size < s.position) :
    Spread (before ++ ⟨c.position, c.size + size⟩ :: after) :=
  spread_replace hfree (spread_middle.1 hfree).2.1 fun s hs => by
    have hs := hafter s hs
    rw [Segment.Before]
    dsimp only
    omega

/-- A segment that is not adjacent to any other. -/
theorem release_add (hfree : Spread (before ++ after))
    (hbefore : ∀ s ∈ before, s.position + s.size < position)
    (hafter : ∀ s ∈ after, position + size < s.position)
    (h : Tiles (⟨position, size⟩ :: ((before ++ after).map Segment.extent ++ es)) n) :
    Spread (add (before ++ after) ⟨position, size⟩) ∧
      Tiles ((add (before ++ after) ⟨position, size⟩).map Segment.extent ++ es) n := by
  rw [add_eq (fun s hs => (Nat.le_add_right ..).trans_lt (hbefore s hs))
    (fun s hs => (Nat.le_add_right ..).trans_lt (hafter s hs))]
  exact ⟨spread_middle.2 ⟨hfree, hbefore, hafter⟩, h.perm (middle_perm before after ⟨position, size⟩ es).symm⟩

/-- The range between two adjacent segments joins them. -/
theorem release_both {prior : Segment} (hfree : Spread (before ++ prior :: c :: after))
    (hc : c.position = position + size) (hprior : position = prior.position + prior.size)
    (h : Tiles ((before ++ prior :: ⟨position, c.size + size⟩ :: after).map Segment.extent ++ es) n) :
    Spread (before ++ ⟨position - prior.size, c.size + size + prior.size⟩ :: after) ∧
      Tiles ((before ++ ⟨position - prior.size, c.size + size + prior.size⟩ :: after).map
        Segment.extent ++ es) n := by
  have hposition : position - prior.size = prior.position := by omega
  obtain ⟨hboth, hbefore, -⟩ := spread_middle.1 hfree
  obtain ⟨hrest, -, hafter⟩ := spread_middle.1 hboth
  rw [hposition]
  constructor
  · refine spread_middle.2 ⟨hrest, hbefore, fun s hs => ?_⟩
    have hs := hafter s hs
    rw [Segment.Before] at hs ⊢
    dsimp only
    omega
  · have h := h.perm (middle_perm before _ prior es)
    exact tiles_joinNext (c := ⟨position, c.size + size⟩) (h.inside _ List.mem_cons_self).1 hprior h

/-- Releasing keeps the order and the tiling. -/
theorem release_spec {free : List Segment} (hfree : Spread free) (hsize : 0 < size)
    (h : Tiles (⟨position, size⟩ :: (free.map Segment.extent ++ es)) n) :
    Spread (release free position size) ∧
      Tiles ((release free position size).map Segment.extent ++ es) n := by
  rw [release]
  split
  · next c hcursor =>
    obtain ⟨rfl, hc, hbefore⟩ := locateEqual_some hcursor
    have hposition : c.current.position - size = position := by omega
    rw [hposition]
    have hnext := tiles_joinNext hsize hc h
    split
    · next prior hlast =>
      by_cases hprior : position = prior.position + prior.size
      · rw [if_pos hprior]
        have hbefore' := List.dropLast_append_getLast? _ hlast
        generalize c.before.dropLast = front at *
        rw [← hbefore', List.append_assoc] at hfree hnext
        exact release_both hfree hc hprior hnext
      · rw [if_neg hprior]
        refine ⟨release_next hfree hc hbefore h fun s hs => ?_, hnext⟩
        rw [hlast] at hs
        exact Option.some.inj hs ▸ hprior
    · next hlast =>
      refine ⟨release_next hfree hc hbefore h fun s hs => ?_, hnext⟩
      rw [hlast] at hs
      exact absurd hs (fun h => nomatch h)
  · next hnone =>
    have hne := locateEqual_none hfree hnone
    have habove : ∀ s ∈ free, position ≤ s.position → position + size < s.position := by
      intro s hs hle
      have hs' := hne s hs
      obtain ⟨hpos, hapart⟩ := tiles_apart h hs
      omega
    split
    · next c hcursor =>
      obtain ⟨rfl, hc, hafter⟩ := locateLess_some hfree hcursor
      have hafter' : ∀ s ∈ c.after, position + size < s.position := fun s hs =>
        habove s (List.mem_append_right _ (List.mem_cons_of_mem _ hs)) (hafter s hs)
      obtain ⟨hpos, hapart⟩ :=
        tiles_apart h (List.mem_append_right _ (List.mem_cons_self (a := c.current)))
      by_cases hprior : position = c.current.position + c.current.size
      · rw [if_pos hprior]
        exact ⟨release_prior hfree hprior hafter', tiles_joinPrior hsize hprior h⟩
      · rw [if_neg hprior]
        have hbefore := (spread_middle.1 hfree).2.1
        rw [List.append_cons] at hfree h ⊢
        refine release_add hfree (fun s hs => ?_) hafter' h
        rcases List.mem_append.1 hs with hs | hs
        · have hs : s.position + s.size < c.current.position := hbefore s hs
          omega
        · rw [List.mem_singleton.1 hs]
          omega
    · next hless =>
      have hall := locateLess_none hfree hless
      have hnone : ∀ s ∈ ([] : List Segment), s.position + s.size < position :=
        fun s hs => absurd hs List.not_mem_nil
      have hspread : Spread ([] ++ free) := hfree
      exact release_add hspread hnone (fun s hs => habove s hs (hall s hs)) h

/-! ## Allocating -/

/-- The front of a segment is taken, all of it perhaps. -/
def carve (before : List Segment) (c : Segment) (after : List Segment) (size : ℕ) : List Segment :=
  if c.size - size = 0 then before ++ after
  else before ++ ⟨c.position + size, c.size - size⟩ :: after

theorem carve_spread (hboth : Spread (before ++ after))
    (hbefore : ∀ s ∈ before, s.position + s.size ≤ c.position) (hafter : ∀ s ∈ after, c.Before s)
    (hsize : 0 < size) (hc : size ≤ c.size) : Spread (carve before c after size) := by
  rw [carve]
  split_ifs with hrest
  · exact hboth
  · refine spread_middle.2 ⟨hboth, fun s hs => ?_, fun s hs => ?_⟩
    · have hs := hbefore s hs
      show s.position + s.size < c.position + size
      omega
    · have hs : c.position + c.size < s.position := hafter s hs
      show c.position + size + (c.size - size) < s.position
      omega

theorem carve_tiles (hsize : 0 < size) (hc : size ≤ c.size)
    (h : Tiles ((before ++ c :: after).map Segment.extent ++ es) n) :
    Tiles ((carve before c after size).map Segment.extent ++ (⟨c.position, size⟩ :: es)) n := by
  have h := h.perm (middle_perm before after c es)
  obtain ⟨p, csize⟩ := c
  obtain ⟨rest, rfl⟩ := Nat.exists_eq_add_of_le hc
  rw [carve, Nat.add_sub_cancel_left]
  by_cases hrest : rest = 0
  · subst hrest
    rw [if_pos rfl]
    exact h.perm List.perm_middle.symm
  · rw [if_neg hrest]
    have hcut := (Tiles.cut_iff hsize (Nat.pos_of_ne_zero hrest)).1 h
    refine hcut.perm ((List.Perm.cons _ ?_).trans List.perm_middle.symm)
    exact (middle_perm before after ⟨p + size, rest⟩ es).symm

theorem bestFit_fits {free : List Segment} {i k : ℕ} {best : Segment} {found : Option (ℕ × Segment)}
    (h : bestFit size free k found = some (i, best)) :
    found = some (i, best) ∨ ∃ j, i = k + j ∧ free[j]? = some best ∧ size ≤ best.size := by
  induction free generalizing k found with
  | nil => exact .inl h
  | cons space spaces ih =>
    have hlater : ∀ found', bestFit size spaces (k + 1) found' = some (i, best) →
        found' = some (i, best) ∨
          ∃ j, i = k + j ∧ (space :: spaces)[j]? = some best ∧ size ≤ best.size := by
      intro found' h
      obtain hfound | ⟨j, rfl, hj, hsize⟩ := ih h
      · exact .inl hfound
      · exact .inr ⟨j + 1, by omega, hj, hsize⟩
    rw [bestFit] at h
    by_cases hbetter : space.size ≥ size ∧ ∀ b ∈ found, space.size < b.2.size
    · rw [if_pos hbetter] at h
      obtain hfound | hspaces := hlater _ h
      · rw [Option.some.injEq, Prod.mk.injEq] at hfound
        exact .inr ⟨0, hfound.1.symm, congrArg some hfound.2, hfound.2 ▸ hbetter.1⟩
      · exact .inr hspaces
    · rw [if_neg hbetter] at h
      exact hlater _ h

theorem bestFit_isSome (free : List Segment) (k : ℕ) (found : ℕ × Segment) :
    bestFit size free k (some found) ≠ none := by
  induction free generalizing k found with
  | nil => exact Option.some_ne_none _
  | cons space spaces ih =>
    rw [bestFit]
    split_ifs
    · exact ih _ _
    · exact ih _ _

/-- Without a fit all segments are too small. -/
theorem bestFit_none {free : List Segment} {k : ℕ} (h : bestFit size free k none = none) :
    ∀ space ∈ free, space.size < size := by
  induction free generalizing k with
  | nil => exact fun _ h => absurd h List.not_mem_nil
  | cons space spaces ih =>
    rw [bestFit] at h
    by_cases hfits : space.size ≥ size
    · rw [if_pos ⟨hfits, fun _ h => nomatch h⟩] at h
      exact absurd h (bestFit_isSome _ _ _)
    · rw [if_neg fun h => hfits h.1] at h
      exact List.forall_mem_cons.2 ⟨Nat.lt_of_not_le hfits, ih h⟩

theorem TempSpace.Valid.withFree {s : TempSpace} (h : s.Valid) (free : List Segment) :
    Valid { s with freeSegments := free } :=
  ⟨h.chain, h.physical, h.logical, h.initial, h.dynamic, h.positive, h.tail⟩

/-- The free segments, and the other ranges `es`, tile the space. -/
structure Shared (s : TempSpace) (es : List Extent) : Prop where
  valid : s.Valid
  spread : Spread s.freeSegments
  tiles : Tiles (s.freeSegments.map Segment.extent ++ es) s.logicalSize

/-- What the best fit gives is a part of the free segments no more. -/
theorem allocate_fit {s : TempSpace} (h : Shared s es) {i : ℕ} {best : Segment}
    (hi : s.freeSegments[i]? = some best) (hsize : size ≤ best.size) :
    let free := s.freeSegments.set i ⟨best.position + size, best.size - size⟩
    let free :=
      if best.size - size = 0 then
        match locateEqual free (best.position + size) with
        | some c => c.before ++ c.after
        | none => free
      else free
    Shared { s with freeSegments := free } (Extent.ifAny ⟨best.position, size⟩ ++ es) := by
  obtain ⟨hlt, rfl⟩ := List.getElem?_eq_some_iff.1 hi
  have hsplit := (List.take_append_drop i s.freeSegments).symm
  rw [List.drop_eq_getElem_cons hlt] at hsplit
  have hspread := h.spread
  have htiles := h.tiles
  rw [List.set_eq_take_append_cons_drop, if_pos hlt]
  generalize s.freeSegments[i] = best at *
  generalize s.freeSegments.take i = before at *
  generalize s.freeSegments.drop (i + 1) = after at *
  rw [hsplit] at hspread htiles
  have hpositive : 0 < best.size :=
    (htiles.inside best.extent (List.mem_append_left _ (List.mem_map_of_mem
      (List.mem_append_right _ List.mem_cons_self)))).1
  have hlocate : locateEqual (before ++ ⟨best.position + size, best.size - size⟩ :: after)
      (best.position + size) = some ⟨before, ⟨best.position + size, best.size - size⟩, after⟩ :=
    locateEqual_eq (c := ⟨best.position + size, best.size - size⟩) fun s hs =>
      ((spread_middle.1 hspread).2.1 s hs).lt.trans_le (Nat.le_add_right ..)
  dsimp only
  rw [hlocate]
  show Shared { s with freeSegments := carve before best after size } _
  rw [Extent.ifAny]
  by_cases hzero : size = 0
  · subst hzero
    have hsame : carve before best after 0 = before ++ best :: after := if_neg (by omega)
    rw [hsame, if_neg (Nat.lt_irrefl 0)]
    exact ⟨h.valid.withFree _, hspread, htiles⟩
  · have hpos := Nat.pos_of_ne_zero hzero
    obtain ⟨hboth, hbefore, hafter⟩ := spread_middle.1 hspread
    rw [if_pos hpos]
    exact ⟨h.valid.withFree _, carve_spread hboth (fun s hs => (hbefore s hs).le) hafter hpos hsize,
      carve_tiles hpos hsize htiles⟩

/-- What is allocated is taken from the free segments, or from the end of the space. -/
theorem allocateSpace_spec {s : TempSpace} (h : Shared s es) {minBlockSize : ℕ} {backing : Backing}
    (hroom : (∀ space ∈ s.freeSegments, space.size < size) → s.HasRoom minBlockSize size backing) :
    ∃ position, (s.allocateSpace minBlockSize size backing).2 = some position ∧
      Shared (s.allocateSpace minBlockSize size backing).1
        (Extent.ifAny ⟨position, size⟩ ++ es) := by
  rw [allocateSpace]
  split
  · next hbest =>
    obtain ⟨hdone, hext⟩ := h.valid.extend (hroom (bestFit_none hbest))
    have hlogical := hext.logicalSize
    have hposition : (s.extend minBlockSize size backing).1.logicalSize - size = s.logicalSize := by
      omega
    refine ⟨s.logicalSize, ?_, hext.valid, hext.freeSegments ▸ h.spread, ?_⟩
    · dsimp only
      rw [if_pos hdone, hposition]
    · dsimp only
      rw [hext.freeSegments, hlogical, Extent.ifAny]
      split_ifs with hsize
      · exact (h.tiles.grow hsize).perm List.perm_middle.symm
      · obtain rfl : size = 0 := Nat.eq_zero_of_not_pos hsize
        exact h.tiles
  · next i best hbest =>
    obtain hfound | ⟨j, rfl, hj, hsize⟩ := bestFit_fits hbest
    · cases hfound
    · rw [Nat.zero_add] at hbest ⊢
      exact ⟨best.position, rfl, allocate_fit h hj hsize⟩

/-! ## Batches -/

theorem findMemoryLoop_inside {blocks : List Block} {finish i start offset seek : ℕ} {mem : ℕ × ℕ}
    (h : findMemoryLoop finish size blocks i start offset = some (mem, seek)) :
    start ≤ seek ∧ seek + size ≤ finish := by
  induction blocks generalizing i start offset with
  | nil => exact absurd h (fun h => nomatch h)
  | cons b blocks ih =>
    rw [findMemoryLoop] at h
    by_cases hinside : start + size ≤ finish
    · rw [if_pos hinside] at h
      split_ifs at h
      · rw [Option.some.injEq, Prod.mk.injEq] at h
        rw [← h.2]
        exact ⟨le_rfl, hinside⟩
      · obtain ⟨hstart, hfinish⟩ := ih h
        exact ⟨(Nat.le_add_right ..).trans hstart, hfinish⟩
    · rw [if_neg hinside] at h
      exact absurd h (fun h => nomatch h)

/-- The memory that is found is between the positions. -/
theorem findMemory_inside {s : TempSpace} {start finish seek : ℕ} {mem : ℕ × ℕ}
    (h : s.findMemory start finish size = some (mem, seek)) : start ≤ seek ∧ seek + size ≤ finish := by
  rw [findMemory] at h
  split at h
  · exact findMemoryLoop_inside h
  · exact absurd h (fun h => nomatch h)

/-- The skipped head is in front of the current segment, which starts where the memory was found. -/
theorem skipHead_eq (hfree : Spread (before ++ c :: after)) {seek : ℕ} (hseek : c.position < seek)
    (hafter : ∀ s ∈ after, seek < s.position) :
    skipHead before c after seek =
      ⟨before ++ [⟨c.position, seek - c.position⟩], ⟨seek, c.size - (seek - c.position)⟩, after⟩ := by
  have hbefore := (spread_middle.1 hfree).2.1
  have hposition : c.position + (seek - c.position) = seek := by omega
  have hadd : add (before ++ ⟨seek, c.size - (seek - c.position)⟩ :: after)
      ⟨c.position, seek - c.position⟩ =
      (before ++ [⟨c.position, seek - c.position⟩]) ++
        ⟨seek, c.size - (seek - c.position)⟩ :: after := by
    rw [List.append_assoc]
    refine add_eq (fun s hs => (hbefore s hs).lt) (fun s hs => ?_)
    rcases List.mem_cons.1 hs with rfl | hs
    · exact hseek
    · exact hseek.trans (hafter s hs)
  have hlocate : locateEqual ((before ++ [⟨c.position, seek - c.position⟩]) ++
        ⟨seek, c.size - (seek - c.position)⟩ :: after) seek =
      some ⟨before ++ [⟨c.position, seek - c.position⟩], ⟨seek, c.size - (seek - c.position)⟩, after⟩ := by
    refine locateEqual_eq (c := ⟨seek, c.size - (seek - c.position)⟩) fun s hs => ?_
    rcases List.mem_append.1 hs with hs | hs
    · exact (hbefore s hs).lt.trans hseek
    · rw [List.mem_singleton.1 hs]
      exact hseek
  rw [skipHead, if_pos hseek.ne']
  dsimp only
  rw [hposition, hadd, hlocate]

/-- A chunk of memory is cut out of the current segment. -/
theorem chunk_spec (hfree : Spread (before ++ c :: after)) (hsize : 0 < size) {seek : ℕ}
    (hseek : c.position ≤ seek) (hfinish : seek + size ≤ c.position + c.size)
    (h : Tiles ((before ++ c :: after).map Segment.extent ++ es) n) :
    let d := skipHead before c after seek
    d.current.position = seek ∧ Spread (carve d.before d.current d.after size) ∧
      Tiles ((carve d.before d.current d.after size).map Segment.extent ++ (⟨seek, size⟩ :: es)) n := by
  obtain ⟨hboth, hbefore, hafter⟩ := spread_middle.1 hfree
  rcases hseek.eq_or_lt with rfl | hlt
  · rw [skipHead, if_neg (not_not.2 rfl)]
    have hfits : size ≤ c.size := by omega
    exact ⟨rfl, carve_spread hboth (fun s hs => (hbefore s hs).le) hafter hsize hfits,
      carve_tiles hsize hfits h⟩
  · have habove : ∀ s ∈ after, seek < s.position := fun s hs => by
      have hs : c.position + c.size < s.position := hafter s hs
      omega
    rw [skipHead_eq hfree hlt habove]
    refine ⟨rfl, carve_spread ?_ (fun s hs => ?_) (fun s hs => ?_) hsize (by dsimp only; omega),
      carve_tiles (c := ⟨seek, c.size - (seek - c.position)⟩) hsize (by dsimp only; omega) ?_⟩
    · rw [List.append_assoc]
      refine spread_middle.2 ⟨hboth, hbefore, fun s hs => ?_⟩
      have hs := habove s hs
      show c.position + (seek - c.position) < s.position
      omega
    · rcases List.mem_append.1 hs with hs | hs
      · have hs : s.position + s.size < c.position := hbefore s hs
        show s.position + s.size ≤ seek
        omega
      · rw [List.mem_singleton.1 hs]
        show c.position + (seek - c.position) ≤ seek
        omega
    · have hs : c.position + c.size < s.position := hafter s hs
      show seek + (c.size - (seek - c.position)) < s.position
      omega
    · rw [List.append_assoc]
      refine Tiles.perm ?_ (middle_perm before _ ⟨c.position, seek - c.position⟩ es).symm
      refine Tiles.perm ?_ (List.Perm.cons _ (middle_perm before after _ es).symm)
      have hcut := h.perm (middle_perm before after c es)
      have hextent : c.extent =
          ⟨c.position, (seek - c.position) + (c.size - (seek - c.position))⟩ := by
        rw [Segment.extent, Extent.mk.injEq]
        omega
      rw [hextent, Tiles.cut_iff (by omega) (by omega),
        show c.position + (seek - c.position) = seek by omega] at hcut
      exact hcut

theorem chunk_perm (segments : List SegmentInMemory) (mem : ℕ × ℕ) (seek size : ℕ)
    (es : List Extent) :
    (Extent.mk seek size :: (segments.map SegmentInMemory.extent ++ es)).Perm
      ((segments ++ [SegmentInMemory.mk mem seek size]).map SegmentInMemory.extent ++ es) := by
  rw [List.map_append, List.append_assoc]
  exact List.perm_middle.symm

/-- The loop moves chunks from the free segments to the batch. -/
theorem batchLoop_spec (s : TempSpace) {freeMem : ℕ} (hsize : 0 < freeMem) (count : ℕ)
    (before rest : List Segment) (segments : List SegmentInMemory) (hfree : Spread (before ++ rest))
    (h : Tiles ((before ++ rest).map Segment.extent ++
      (segments.map SegmentInMemory.extent ++ es)) n) :
    let r := s.batchLoop freeMem count before rest segments
    Spread r.1 ∧ Tiles (r.1.map Segment.extent ++ (r.2.map SegmentInMemory.extent ++ es)) n := by
  fun_induction batchLoop s freeMem count before rest segments with
  | case1 before rest segments => exact ⟨hfree, h⟩
  | case2 count before segments =>
    rw [List.append_nil] at hfree h
    exact ⟨hfree, h⟩
  | case3 count before freeSpace after segments hmemory ih =>
    refine ih ?_ ?_
    · rwa [List.append_assoc]
    · rwa [List.append_assoc]
  | case4 count before freeSpace after segments mem freeSeek hmemory c segments' freeSpace' hempty ih =>
    obtain ⟨hstart, hfinish⟩ := findMemory_inside hmemory
    obtain ⟨-, hspread, htiles⟩ := chunk_spec hfree hsize hstart hfinish h
    have hcarve : carve c.before c.current c.after freeMem = c.before ++ c.after := if_pos hempty
    rw [hcarve] at hspread htiles
    exact ih hspread (htiles.perm (List.Perm.append_left _ (chunk_perm segments mem freeSeek freeMem es)))
  | case5 count before freeSpace after segments mem freeSeek hmemory c segments' freeSpace' hempty ih =>
    obtain ⟨hstart, hfinish⟩ := findMemory_inside hmemory
    obtain ⟨-, hspread, htiles⟩ := chunk_spec hfree hsize hstart hfinish h
    have hcarve : carve c.before c.current c.after freeMem = c.before ++ freeSpace' :: c.after :=
      if_neg hempty
    rw [hcarve] at hspread htiles
    exact ih hspread (htiles.perm (List.Perm.append_left _ (chunk_perm segments mem freeSeek freeMem es)))

theorem chunkSize_pos (s : TempSpace) {minBlockSize count minSize maxSize : ℕ}
    (hblock : fbAlignment ≤ minBlockSize) (hmin : fbAlignment ≤ minSize) :
    0 < s.chunkSize minBlockSize count minSize maxSize := by
  rw [chunkSize]
  generalize (s.freeSegments.map (·.size)).sum / count = freeMem
  have hle : fbAlignment ≤ min (max (min freeMem maxSize) minSize) minBlockSize :=
    le_min (hmin.trans (le_max_right ..)) hblock
  have hand : min (max (min freeMem maxSize) minSize) minBlockSize &&& (fbAlignment - 1) ≤
      fbAlignment - 1 := Nat.and_le_right
  have hpos : 0 < fbAlignment := by decide
  omega

/-- A batch is taken from the free segments. -/
theorem allocateBatch_spec {s : TempSpace} (h : Shared s es) {minBlockSize count minSize maxSize : ℕ}
    (hblock : fbAlignment ≤ minBlockSize) (hmin : fbAlignment ≤ minSize) :
    let r := s.allocateBatch minBlockSize count minSize maxSize
    Shared r.1 (r.2.map SegmentInMemory.extent ++ es) := by
  obtain ⟨hspread, htiles⟩ := batchLoop_spec s (chunkSize_pos s hblock hmin) count [] s.freeSegments []
    h.spread h.tiles
  exact ⟨h.valid.withFree _, hspread, htiles⟩

end Spread

end FirebirdCore.Temp
