import Mathlib.Data.List.Chain
import Mathlib.Data.List.Nodup
import Mathlib.Logic.Function.Basic
import Mathlib.Tactic

/-!
# Rings of links

`IsRing fwd back q xs` says that the two links of every block lead from the head `q` through the
members `xs`, in this order, and back to the head. Putting a member in front of the head and taking
one out change two links of the neighbours each.
-/
namespace FirebirdCore.Ring

variable {α : Type*} {fwd back fwd' back' : α → α} {q n x : α} {xs ys front behind l : List α}

/-- `b` follows `a`, in both directions. -/
def Follows (fwd back : α → α) (a b : α) : Prop := fwd a = b ∧ back b = a

def IsRing (fwd back : α → α) (q : α) (xs : List α) : Prop :=
  List.IsChain (Follows fwd back) (q :: (xs ++ [q]))

/-- A chain reads the forward links of all but its last block, the backward ones of all but its
first. -/
theorem relink (h : l.IsChain (Follows fwd back)) (hfwd : ∀ x ∈ l.dropLast, fwd' x = fwd x)
    (hback : ∀ x ∈ l.tail, back' x = back x) : l.IsChain (Follows fwd' back') := by
  induction l with
  | nil => exact List.isChain_nil
  | cons a l ih =>
    cases l with
    | nil => exact List.isChain_singleton a
    | cons b l =>
      rw [List.isChain_cons_cons] at h ⊢
      obtain ⟨⟨hab, hba⟩, hl⟩ := h
      refine ⟨⟨?_, ?_⟩, ih hl (fun x hx => hfwd x ?_) (fun x hx => hback x ?_)⟩
      · rw [hfwd a (by simp), hab]
      · rw [hback b (by simp), hba]
      · rw [List.dropLast_cons_cons]
        exact List.mem_cons_of_mem _ hx
      · exact List.mem_cons_of_mem _ hx

theorem IsRing.congr (h : IsRing fwd back q xs) (hfwd : ∀ x ∈ q :: xs, fwd' x = fwd x)
    (hback : ∀ x ∈ q :: xs, back' x = back x) : IsRing fwd' back' q xs := by
  refine relink h (fun x hx => hfwd x ?_) (fun x hx => hback x ?_)
  · rwa [← List.cons_append, List.dropLast_concat] at hx
  · rw [List.tail_cons] at hx
    simpa [or_comm] using hx

theorem IsRing.iff_tail : IsRing fwd back q xs ↔
    (q :: xs).IsChain (Follows fwd back) ∧
      Follows fwd back ((q :: xs).getLast (List.cons_ne_nil _ _)) q := by
  rw [IsRing, ← List.cons_append, List.isChain_append]
  simp [List.getLast?_eq_getLast_of_ne_nil]

/-- The backward link of the head leads to the last member, or to the head of an empty ring. -/
theorem IsRing.back_head (h : IsRing fwd back q xs) :
    back q = (q :: xs).getLast (List.cons_ne_nil _ _) :=
  (IsRing.iff_tail.1 h).2.2

theorem IsRing.fwd_back_head (h : IsRing fwd back q xs) : fwd (back q) = q := by
  rw [h.back_head]
  exact (IsRing.iff_tail.1 h).2.1

theorem IsRing.back_head_mem (h : IsRing fwd back q xs) : back q ∈ q :: xs := by
  rw [h.back_head]
  exact List.getLast_mem _

/-- Both links of every block of a ring stay in it, and the backward one undoes the forward one. -/
theorem IsRing.links (h : IsRing fwd back q xs) (hx : x ∈ q :: xs) :
    fwd x ∈ q :: xs ∧ back (fwd x) = x := by
  obtain ⟨front, behind, hsplit⟩ := List.append_of_mem hx
  have hring : q :: (xs ++ [q]) = front ++ x :: (behind ++ [q]) := by
    rw [← List.cons_append, hsplit, List.append_assoc, List.cons_append]
  rw [IsRing, hring, List.isChain_split] at h
  have hfollows := (List.isChain_cons.1 h.2).1
  cases behind with
  | nil =>
    obtain ⟨hfwd, hback⟩ := hfollows q (by simp)
    exact ⟨hfwd ▸ List.mem_cons_self, hfwd ▸ hback⟩
  | cons y behind =>
    obtain ⟨hfwd, hback⟩ := hfollows y (by simp)
    refine ⟨?_, hfwd ▸ hback⟩
    rw [hfwd, hsplit]
    simp

/-- Both links of every block of a ring stay in it, and the forward one undoes the backward one. -/
theorem IsRing.links_back (h : IsRing fwd back q xs) (hx : x ∈ q :: xs) :
    back x ∈ q :: xs ∧ fwd (back x) = x := by
  rcases List.mem_cons.1 hx with rfl | hmem
  · exact ⟨h.back_head_mem, h.fwd_back_head⟩
  · obtain ⟨front, behind, rfl⟩ := List.append_of_mem hmem
    rw [IsRing, List.append_assoc, List.cons_append, ← List.cons_append, List.isChain_append] at h
    obtain ⟨hfwd, hback⟩ := h.2.2 _ (List.getLast_mem_getLast? (List.cons_ne_nil q front)) x rfl
    refine ⟨?_, hback ▸ hfwd⟩
    rw [hback, ← List.cons_append]
    exact List.mem_append_left _ (List.getLast_mem _)

/-- A member does not follow itself. -/
theorem IsRing.fwd_ne (h : IsRing fwd back q xs) (hnodup : (q :: xs).Nodup) (hx : x ∈ xs) :
    fwd x ≠ x := by
  obtain ⟨front, behind, rfl⟩ := List.append_of_mem hx
  obtain ⟨hq, hmembers⟩ := List.nodup_cons.1 hnodup
  have hbehind := (List.nodup_cons.1 (List.nodup_append.1 hmembers).2.1).1
  rw [IsRing, List.append_assoc, List.cons_append, ← List.cons_append, List.isChain_append] at h
  have hfollows := (List.isChain_cons.1 h.2.1).1
  intro hself
  cases behind with
  | nil =>
    have hxq : x = q := hself.symm.trans (hfollows q rfl).1
    exact hq (hxq ▸ List.mem_append_right _ List.mem_cons_self)
  | cons y behind =>
    have hxy : x = y := hself.symm.trans (hfollows y rfl).1
    exact hbehind (hxy ▸ List.mem_cons_self)

/-- The links determine the members. -/
theorem IsRing.unique (h : IsRing fwd back q xs) (h' : IsRing fwd back q ys) (hq : q ∉ xs)
    (hq' : q ∉ ys) : xs = ys := by
  have walk : ∀ (a : α) (xs ys : List α), (a :: (xs ++ [q])).IsChain (Follows fwd back) →
      (a :: (ys ++ [q])).IsChain (Follows fwd back) → q ∉ xs → q ∉ ys → xs = ys := by
    intro a xs
    induction xs generalizing a with
    | nil =>
      intro ys h h' _ hq'
      cases ys with
      | nil => rfl
      | cons y ys =>
        have hy : y = q := (List.isChain_cons_cons.1 h').1.1.symm.trans (List.isChain_cons_cons.1 h).1.1
        exact absurd List.mem_cons_self (hy ▸ hq')
    | cons x xs ih =>
      intro ys h h' hq hq'
      cases ys with
      | nil =>
        have hx : x = q := (List.isChain_cons_cons.1 h).1.1.symm.trans (List.isChain_cons_cons.1 h').1.1
        exact absurd List.mem_cons_self (hx ▸ hq)
      | cons y ys =>
        have hxy : x = y := (List.isChain_cons_cons.1 h).1.1.symm.trans (List.isChain_cons_cons.1 h').1.1
        subst hxy
        rw [ih x ys (List.isChain_cons_cons.1 h).2 (List.isChain_cons_cons.1 h').2
          (fun hmem => hq (List.mem_cons_of_mem _ hmem)) (fun hmem => hq' (List.mem_cons_of_mem _ hmem))]
  exact walk q xs ys h h' hq hq'

theorem getLast_notMem_dropLast (hl : l.Nodup) (hne : l ≠ []) :
    l.getLast hne ∉ l.dropLast := by
  have h := List.dropLast_append_getLast hne
  rw [← h, List.nodup_append] at hl
  exact fun hmem => hl.2.2 _ hmem _ (List.mem_singleton_self _) rfl

variable [DecidableEq α]

/-- `n` comes in front of the head, behind the last member. -/
theorem IsRing.insertTail (h : IsRing fwd back q xs) (hnodup : (q :: xs).Nodup) (hn : n ∉ q :: xs) :
    IsRing (Function.update (Function.update fwd n q) (back q) n)
      (Function.update (Function.update back n (back q)) q n) q (xs ++ [n]) := by
  obtain ⟨hchain, -⟩ := IsRing.iff_tail.1 h
  have hlast := h.back_head
  have hqn : q ≠ n := fun heq => hn (heq ▸ List.mem_cons_self)
  have hpn : n ≠ back q := fun heq => hn (heq ▸ h.back_head_mem)
  rw [IsRing, List.append_assoc, ← List.cons_append, List.isChain_append]
  refine ⟨relink hchain (fun x hx => ?_) (fun x hx => ?_), ?_, ?_⟩
  · have hxp : x ≠ back q := by
      rintro rfl
      rw [hlast] at hx
      exact getLast_notMem_dropLast hnodup _ hx
    have hxn : x ≠ n := fun heq => hn (heq ▸ List.mem_of_mem_dropLast hx)
    rw [Function.update_of_ne hxp, Function.update_of_ne hxn]
  · have hxq : x ≠ q := fun heq => (List.nodup_cons.1 hnodup).1 (heq ▸ hx)
    have hxn : x ≠ n := fun heq => hn (heq ▸ List.mem_cons_of_mem _ hx)
    rw [Function.update_of_ne hxq, Function.update_of_ne hxn]
  · refine List.isChain_pair.2 ⟨?_, ?_⟩
    · rw [Function.update_of_ne hpn, Function.update_self]
    · rw [Function.update_self]
  · intro x hx y hy
    rw [List.getLast?_eq_getLast_of_ne_nil (List.cons_ne_nil _ _), ← hlast] at hx
    obtain rfl : back q = x := by simpa using hx
    obtain rfl : n = y := by simpa using hy
    exact ⟨Function.update_self .., by rw [Function.update_of_ne hqn.symm, Function.update_self]⟩

/-- The neighbours of `n` are linked to each other. -/
theorem IsRing.unlink (h : IsRing fwd back q (front ++ n :: behind))
    (hnodup : (q :: (front ++ n :: behind)).Nodup) :
    IsRing (Function.update fwd (back n) (fwd n)) (Function.update back (fwd n) (back n)) q
      (front ++ behind) := by
  obtain ⟨hq, hmembers⟩ := List.nodup_cons.1 hnodup
  obtain ⟨hfront, hrest, hdisjoint⟩ := List.nodup_append.1 hmembers
  obtain ⟨hn, hbehind⟩ := List.nodup_cons.1 hrest
  rw [IsRing, List.append_assoc, List.cons_append, ← List.cons_append, List.isChain_append] at h
  obtain ⟨hchain, hrest', hjoin⟩ := h
  obtain ⟨hhead, htail⟩ := List.isChain_cons.1 hrest'
  have hback : back n = (q :: front).getLast (List.cons_ne_nil _ _) :=
    (hjoin _ (List.getLast_mem_getLast? _) n rfl).2
  have hbackmem : back n ∈ q :: front := hback ▸ List.getLast_mem _
  obtain ⟨a, rest, hcons⟩ : ∃ a rest, behind ++ [q] = a :: rest :=
    List.exists_cons_of_ne_nil (by simp)
  have hfwd : fwd n = a := (hhead a (by rw [hcons]; rfl)).1
  have htailNodup : (behind ++ [q]).Nodup := by
    refine List.nodup_append.2 ⟨hbehind, List.nodup_singleton q, ?_⟩
    rintro x hx y hy rfl
    obtain rfl := List.mem_singleton.1 hy
    exact hq (List.mem_append_right _ (List.mem_cons_of_mem _ hx))
  rw [IsRing, List.append_assoc, ← List.cons_append, List.isChain_append]
  refine ⟨relink hchain (fun x hx => ?_) (fun x hx => ?_), relink htail (fun x hx => ?_)
    (fun x hx => ?_), ?_⟩
  · refine Function.update_of_ne ?_ ..
    rintro rfl
    rw [hback] at hx
    refine getLast_notMem_dropLast ?_ _ hx
    exact List.nodup_cons.2 ⟨fun hmem => hq (List.mem_append_left _ hmem), hfront⟩
  · refine Function.update_of_ne ?_ ..
    rintro rfl
    have ha : a ∈ behind ++ [q] := hcons ▸ List.mem_cons_self
    rw [hfwd] at hx
    rcases List.mem_append.1 ha with ha | ha
    · exact hdisjoint a hx a (List.mem_cons_of_mem _ ha) rfl
    · exact hq (List.mem_append_left _ (List.mem_singleton.1 ha ▸ hx))
  · refine Function.update_of_ne ?_ ..
    rintro rfl
    rw [List.dropLast_concat] at hx
    rcases List.mem_cons.1 hbackmem with heq | hmem
    · exact hq (heq ▸ List.mem_append_right _ (List.mem_cons_of_mem _ hx))
    · exact hdisjoint _ hmem _ (List.mem_cons_of_mem _ hx) rfl
  · refine Function.update_of_ne ?_ ..
    rintro rfl
    rw [hcons, List.nodup_cons] at htailNodup
    rw [hcons, List.tail_cons, hfwd] at hx
    exact htailNodup.1 hx
  · intro x hx y hy
    rw [List.getLast?_eq_getLast_of_ne_nil (List.cons_ne_nil _ _), ← hback] at hx
    obtain rfl : back n = x := by simpa using hx
    obtain rfl : a = y := by simpa [hcons] using hy
    rw [← hfwd]
    exact ⟨Function.update_self .., Function.update_self ..⟩

end FirebirdCore.Ring
