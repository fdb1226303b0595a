import FirebirdCore.Lib.Buffer

/-!
# Ranges of a buffer

An `Extent` is a range of positions. `slice` reads the bytes of one, and writing apart from it or
inside it has the expected effect on what is read.
-/
namespace FirebirdCore.Buffer

structure Extent where
  start : ℕ
  size : ℕ
  deriving DecidableEq, Repr

namespace Extent

def finish (e : Extent) : ℕ := e.start + e.size

/-- The two ranges have no position in common. -/
def Apart (a b : Extent) : Prop := a.finish ≤ b.start ∨ b.finish ≤ a.start

instance (a b : Extent) : Decidable (Apart a b) :=
  inferInstanceAs (Decidable (_ ∨ _))

theorem Apart.symm {a b : Extent} (h : Apart a b) : Apart b a := Or.symm h

/-- The positions of some ranges. -/
def cover (es : List Extent) : Finset ℕ :=
  es.foldr (fun e s => Finset.Ico e.start e.finish ∪ s) ∅

@[simp] theorem cover_nil : cover [] = ∅ := rfl

@[simp] theorem cover_cons (e : Extent) (es : List Extent) :
    cover (e :: es) = Finset.Ico e.start e.finish ∪ cover es := rfl

theorem mem_cover {es : List Extent} {x : ℕ} :
    x ∈ cover es ↔ ∃ e ∈ es, e.start ≤ x ∧ x < e.finish := by
  induction es with
  | nil => simp
  | cons e es ih => simp [ih]

theorem card_cover {es : List Extent} (h : es.Pairwise Apart) :
    (cover es).card = (es.map size).sum := by
  induction es with
  | nil => rfl
  | cons e es ih =>
    obtain ⟨he, hes⟩ := List.pairwise_cons.1 h
    have hdisjoint : Disjoint (Finset.Ico e.start e.finish) (cover es) := by
      refine Finset.disjoint_left.2 fun x hx hxs => ?_
      obtain ⟨f, hf, hfx⟩ := mem_cover.1 hxs
      have hapart := he f hf
      rw [Finset.mem_Ico] at hx
      rw [Apart] at hapart
      omega
    rw [cover_cons, Finset.card_union_of_disjoint hdisjoint, ih hes, List.map_cons, List.sum_cons,
      Nat.card_Ico, finish, Nat.add_sub_cancel_left]

/-- Ranges that are apart and inside a range are no larger than it. -/
theorem sum_size_le {es : List Extent} {lo hi : ℕ} (hapart : es.Pairwise Apart)
    (hinside : ∀ e ∈ es, lo ≤ e.start ∧ e.finish ≤ hi) : (es.map size).sum ≤ hi - lo := by
  rw [← card_cover hapart, ← Nat.card_Ico]
  refine Finset.card_le_card fun x hx => ?_
  obtain ⟨e, he, hx⟩ := mem_cover.1 hx
  have he := hinside e he
  rw [Finset.mem_Ico]
  omega

end Extent

/-- The bytes of a range. -/
def slice (buf : List UInt8) (e : Extent) : List UInt8 := (buf.drop e.start).take e.size

theorem slice_length {buf : List UInt8} {e : Extent} (h : e.finish ≤ buf.length) :
    (slice buf e).length = e.size := by
  simp only [slice, Extent.finish, List.length_take, List.length_drop] at *
  omega

theorem slice_append_left {front behind : List UInt8} {e : Extent} (h : e.finish ≤ front.length) :
    slice (front ++ behind) e = slice front e := by
  rw [Extent.finish] at h
  rw [slice, slice, List.drop_append_of_le_length (by omega),
    List.take_append_of_le_length (by rw [List.length_drop]; omega)]

/-- What is read at a position after `src` was written at `off`. -/
theorem getElem?_blit {buf src : List UInt8} {off : ℕ} (h : off + src.length ≤ buf.length) (i : ℕ) :
    (blit buf off src)[i]? =
      if i < off then buf[i]? else if i < off + src.length then src[i - off]? else buf[i]? := by
  have hoff : (buf.take off).length = off := by
    rw [List.length_take]
    omega
  rw [blit, List.takeD_eq_take _ (by omega), List.append_assoc]
  split_ifs with h₁ h₂
  · rw [List.getElem?_append_left (by omega), List.getElem?_take_of_lt h₁]
  · rw [List.getElem?_append_right (by omega), hoff, List.getElem?_append_left (by omega)]
  · rw [List.getElem?_append_right (by omega), hoff, List.getElem?_append_right (by omega),
      List.getElem?_drop]
    congr 1
    omega

theorem blit_length {buf src : List UInt8} {off : ℕ} (h : off + src.length ≤ buf.length) :
    (blit buf off src).length = buf.length := by
  simp only [blit, List.length_append, List.takeD_length, List.length_drop]
  omega

theorem getElem?_slice (buf : List UInt8) (e : Extent) (i : ℕ) :
    (slice buf e)[i]? = if i < e.size then buf[e.start + i]? else none := by
  rw [slice]
  split_ifs with h
  · rw [List.getElem?_take_of_lt h, List.getElem?_drop]
  · rw [List.getElem?_take_eq_none (by omega)]

/-- Writing apart from a range keeps its bytes. -/
theorem slice_blit_apart {buf src : List UInt8} {e : Extent} {off : ℕ}
    (h : off + src.length ≤ buf.length) (hapart : e.Apart ⟨off, src.length⟩) :
    slice (blit buf off src) e = slice buf e := by
  refine List.ext_getElem? fun i => ?_
  rw [getElem?_slice, getElem?_slice]
  split_ifs with hi
  · rw [getElem?_blit h]
    simp only [Extent.Apart, Extent.finish] at hapart
    split_ifs <;> first | rfl | omega
  · rfl

theorem blit_nil {buf : List UInt8} {off : ℕ} (h : off ≤ buf.length) : blit buf off [] = buf := by
  rw [blit, List.takeD_eq_take _ h, List.append_nil, List.length_nil, Nat.add_zero,
    List.take_append_drop]

/-- Writing behind the end of the first part writes the rest to the second. -/
theorem blit_append {front behind src : List UInt8} {off : ℕ} (h : off ≤ front.length)
    (hfits : off + src.length ≤ front.length + behind.length) :
    blit (front ++ behind) off src = blit front off (src.take (front.length - off)) ++
      blit behind 0 (src.drop (front.length - off)) := by
  have htake : off + (src.take (front.length - off)).length ≤ front.length := by
    rw [List.length_take]
    omega
  have hdrop : 0 + (src.drop (front.length - off)).length ≤ behind.length := by
    rw [List.length_drop]
    omega
  refine List.ext_getElem? fun i => ?_
  rw [getElem?_blit (by rw [List.length_append]; exact hfits),
    @List.getElem?_append _ (blit front off _), blit_length htake, getElem?_blit htake,
    getElem?_blit hdrop, @List.getElem?_append _ front, List.length_take, List.length_drop,
    List.getElem?_drop]
  by_cases hfront : i < front.length
  · rw [if_pos hfront, if_pos hfront]
    by_cases hoff : i < off
    · rw [if_pos hoff, if_pos hoff]
    · rw [if_neg hoff, if_neg hoff]
      by_cases hsrc : i < off + src.length
      · rw [if_pos hsrc, if_pos (by omega), List.getElem?_take_of_lt (by omega)]
      · rw [if_neg hsrc, if_neg (by omega)]
  · rw [if_neg hfront, if_neg hfront, if_neg (by omega), if_neg (Nat.not_lt_zero _)]
    by_cases hsrc : i < off + src.length
    · rw [if_pos hsrc, if_pos (by omega)]
      congr 1
      omega
    · rw [if_neg hsrc, if_neg (by omega)]

theorem blit_append_right (front src : List UInt8) {behind : List UInt8} {off : ℕ}
    (h : off ≤ behind.length) :
    blit (front ++ behind) (front.length + off) src = front ++ blit behind off src := by
  rw [blit, blit, List.takeD_eq_take _ (by rw [List.length_append]; omega), List.takeD_eq_take _ h,
    List.take_length_add_append, Nat.add_assoc, List.drop_length_add_append, List.append_assoc,
    List.append_assoc, List.append_assoc]

/-- Writing inside a range changes just these of its bytes. -/
theorem slice_blit_inside {buf src : List UInt8} {e : Extent} {off : ℕ}
    (h : e.finish ≤ buf.length) (hoff : off + src.length ≤ e.size) :
    slice (blit buf (e.start + off) src) e = blit (slice buf e) off src := by
  have hlen := slice_length h
  have hfits : e.start + off + src.length ≤ buf.length := by
    rw [Extent.finish] at h
    omega
  refine List.ext_getElem? fun i => ?_
  rw [getElem?_slice, getElem?_blit hfits, getElem?_blit (by omega), getElem?_slice]
  have hi : e.start + i - (e.start + off) = i - off := by omega
  by_cases hsize : i < e.size
  · rw [if_pos hsize, if_pos hsize, hi]
    split_ifs <;> first | rfl | omega
  · rw [if_neg hsize, if_neg hsize, if_neg (by omega), if_neg (by omega)]

theorem slice_blit_self (buf src : List UInt8) (off : ℕ) :
    slice (blit buf off src) ⟨off, src.length⟩ = src := by
  rw [slice, blit, List.append_assoc, List.drop_left' (List.takeD_length _ _ _), List.take_left]

end FirebirdCore.Buffer
