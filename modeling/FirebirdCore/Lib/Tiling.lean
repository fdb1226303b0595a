import FirebirdCore.Lib.Extent

/-!
# Ranges that tile a buffer

Some ranges tile the first `n` positions if none is empty, no two meet, and their sizes add up to
`n`. Tilings are kept when a range is cut in two, when two neighbours become one, and when a range is
put at the end.
-/
namespace FirebirdCore.Buffer

structure Tiles (es : List Extent) (n : ℕ) : Prop where
  apart : es.Pairwise Extent.Apart
  inside : ∀ e ∈ es, 0 < e.size ∧ e.finish ≤ n
  sum : (es.map Extent.size).sum = n

namespace Tiles

variable {es fs : List Extent} {e : Extent} {n p a b : ℕ}

theorem nil : Tiles [] 0 := ⟨List.Pairwise.nil, fun _ h => absurd h List.not_mem_nil, rfl⟩

theorem perm (h : Tiles es n) (hperm : es.Perm fs) : Tiles fs n where
  apart := (hperm.pairwise_iff Extent.Apart.symm).1 h.apart
  inside e he := h.inside e (hperm.mem_iff.2 he)
  sum := (hperm.map Extent.size).sum_eq.symm.trans h.sum

/-- What is apart from a range is apart from its parts, and the other way round. -/
theorem apart_cut (ha : 0 < a) (hb : 0 < b) (he : 0 < e.size) :
    Extent.Apart ⟨p, a + b⟩ e ↔ Extent.Apart ⟨p, a⟩ e ∧ Extent.Apart ⟨p + a, b⟩ e := by
  simp only [Extent.Apart, Extent.finish]
  omega

theorem cut_iff (ha : 0 < a) (hb : 0 < b) :
    Tiles (⟨p, a + b⟩ :: es) n ↔ Tiles (⟨p, a⟩ :: ⟨p + a, b⟩ :: es) n := by
  constructor
  · intro h
    obtain ⟨happart, hes⟩ := List.pairwise_cons.1 h.apart
    have hboth := fun e he => (apart_cut ha hb (h.inside e (List.mem_cons_of_mem _ he)).1).1 (happart e he)
    obtain ⟨-, hfinish⟩ := h.inside _ List.mem_cons_self
    have hsum := h.sum
    simp only [Extent.finish, List.map_cons, List.sum_cons] at hfinish hsum
    refine ⟨List.pairwise_cons.2 ⟨fun e he => ?_, List.pairwise_cons.2 ⟨fun e he => (hboth e he).2, hes⟩⟩,
      fun e he => ?_, ?_⟩
    · rcases List.mem_cons.1 he with rfl | he
      · exact .inl le_rfl
      · exact (hboth e he).1
    · rcases List.mem_cons.1 he with rfl | he
      · exact ⟨ha, by simp only [Extent.finish]; omega⟩
      · rcases List.mem_cons.1 he with rfl | he
        · exact ⟨hb, by simp only [Extent.finish]; omega⟩
        · exact h.inside e (List.mem_cons_of_mem _ he)
    · simp only [List.map_cons, List.sum_cons]
      omega
  · intro h
    obtain ⟨hfirst, hrest⟩ := List.pairwise_cons.1 h.apart
    obtain ⟨hsecond, hes⟩ := List.pairwise_cons.1 hrest
    have hinside := fun e he => h.inside e (List.mem_cons_of_mem _ (List.mem_cons_of_mem _ he))
    obtain ⟨-, hfinish⟩ := h.inside _ (List.mem_cons_of_mem _ List.mem_cons_self)
    have hsum := h.sum
    simp only [Extent.finish, List.map_cons, List.sum_cons] at hfinish hsum
    refine ⟨List.pairwise_cons.2 ⟨fun e he => ?_, hes⟩, fun e he => ?_, ?_⟩
    · exact (apart_cut ha hb (hinside e he).1).2 ⟨hfirst e (List.mem_cons_of_mem _ he), hsecond e he⟩
    · rcases List.mem_cons.1 he with rfl | he
      · exact ⟨Nat.add_pos_left ha b, by simp only [Extent.finish]; omega⟩
      · exact hinside e he
    · simp only [List.map_cons, List.sum_cons]
      omega

/-- A range is put at the end. -/
theorem grow (h : Tiles es n) (ha : 0 < a) : Tiles (⟨n, a⟩ :: es) (n + a) where
  apart := List.pairwise_cons.2 ⟨fun e he => .inr (h.inside e he).2, h.apart⟩
  inside e he := by
    rcases List.mem_cons.1 he with rfl | he
    · exact ⟨ha, le_rfl⟩
    · exact ⟨(h.inside e he).1, (h.inside e he).2.trans (Nat.le_add_right n a)⟩
  sum := by rw [List.map_cons, List.sum_cons, h.sum, Nat.add_comm]

end Tiles

namespace Extent

/-- The range, if it has a position at all. -/
def ifAny (e : Extent) : List Extent := if 0 < e.size then [e] else []

/-- What is left of a range without a part of it. -/
def without (e r : Extent) : List Extent :=
  ifAny ⟨e.start, r.start - e.start⟩ ++ ifAny ⟨r.finish, e.finish - r.finish⟩

end Extent

namespace Tiles

variable {es : List Extent} {e r : Extent} {n p a b : ℕ}

/-- The end of a range is cut off, unless it is empty. -/
theorem cutBehind (h : Tiles (⟨p, a + b⟩ :: es) n) (ha : 0 < a) :
    Tiles (⟨p, a⟩ :: (Extent.ifAny ⟨p + a, b⟩ ++ es)) n := by
  rw [Extent.ifAny]
  split_ifs with hb
  · exact (cut_iff ha hb).1 h
  · obtain rfl : b = 0 := Nat.eq_zero_of_not_pos hb
    exact h

theorem cutFront (h : Tiles (⟨p, a + b⟩ :: es) n) (hb : 0 < b) :
    Tiles (⟨p + a, b⟩ :: (Extent.ifAny ⟨p, a⟩ ++ es)) n := by
  rw [Extent.ifAny]
  split_ifs with ha
  · exact ((cut_iff ha hb).1 h).perm (List.Perm.swap ..)
  · obtain rfl : a = 0 := Nat.eq_zero_of_not_pos ha
    rwa [Nat.zero_add] at h

/-- A part is taken out of a range. -/
theorem takeOut (h : Tiles (e :: es) n) (hr : 0 < r.size) (hstart : e.start ≤ r.start)
    (hfinish : r.finish ≤ e.finish) : Tiles (r :: (e.without r ++ es)) n := by
  obtain ⟨p, size⟩ := e
  obtain ⟨q, rsize⟩ := r
  simp only [Extent.finish, Extent.without] at *
  obtain ⟨front, rfl⟩ := Nat.exists_eq_add_of_le hstart
  obtain ⟨behind, hbehind⟩ := Nat.exists_eq_add_of_le hfinish
  obtain rfl : size = front + (rsize + behind) := by omega
  rw [hbehind, Nat.add_sub_cancel_left, Nat.add_sub_cancel_left]
  refine ((h.cutFront (Nat.add_pos_left hr behind)).cutBehind hr).perm (List.Perm.cons _ ?_)
  rw [List.append_assoc]
  exact List.perm_append_comm_assoc ..

end Tiles

end FirebirdCore.Buffer
