import Mathlib.Data.List.Basic
import Mathlib.Data.List.TakeDrop
import Mathlib.Tactic

/-!
# Byte buffers of which only a front part is known

A buffer grows with zeros when it is written behind its end. `k <+: buf` says that the buffer
holds the word `k` at its front; `blit_front` is the only fact about writing that the index
code needs.
-/
namespace FirebirdCore.Buffer

/-- `memcpy(buf + off, src, length of src)`. -/
def blit (buf : List UInt8) (off : ℕ) (src : List UInt8) : List UInt8 :=
  buf.takeD off 0 ++ src ++ buf.drop (off + src.length)

theorem take_of_front {k buf : List UInt8} (h : k <+: buf) : buf.take k.length = k :=
  (List.prefix_iff_eq_take.1 h).symm

theorem takeD_of_front {k buf : List UInt8} (h : k <+: buf) {off : ℕ} (ho : off ≤ k.length) :
    buf.takeD off 0 = k.take off := by
  obtain ⟨t, rfl⟩ := h
  rw [List.takeD_eq_take _ (by simp; omega), List.take_append_of_le_length ho]

/-- A front part that ends in front of `off` is followed by padding. -/
theorem takeD_of_front_le {k buf : List UInt8} (h : k <+: buf) {off : ℕ} (ho : k.length ≤ off) :
    ∃ pad, buf.takeD off 0 = k ++ pad ∧ (k ++ pad).length = off := by
  obtain ⟨t, rfl⟩ := h
  refine ⟨t.takeD (off - k.length) 0, ?_, by simp [List.takeD_length]; omega⟩
  induction k generalizing off with
  | nil => simp
  | cons a k ih =>
    obtain ⟨m, rfl⟩ : ∃ m, off = m + 1 := ⟨off - 1, by simp at ho; omega⟩
    simp only [List.length_cons, Nat.add_le_add_iff_right] at ho
    simp [ih ho]

/-- Writing inside the known front keeps what is before it. -/
theorem blit_front {k buf : List UInt8} (h : k <+: buf) {off : ℕ} (ho : off ≤ k.length)
    (src : List UInt8) : k.take off ++ src <+: blit buf off src := by
  rw [blit, takeD_of_front h ho]
  exact List.prefix_append _ _

/-- Writing over as many bytes keeps what is behind them. -/
theorem blit_replace {front old src : List UInt8} (h : old.length = src.length)
    (behind : List UInt8) :
    blit (front ++ (old ++ behind)) front.length src = front ++ (src ++ behind) := by
  rw [blit, takeD_of_front (List.prefix_append _ _) le_rfl, List.take_length, ← List.append_assoc,
    ← h, ← List.length_append, List.drop_left, List.append_assoc]

theorem blit_end (front src : List UInt8) : blit front front.length src = front ++ src := by
  rw [blit, takeD_of_front List.prefix_rfl le_rfl, List.take_length,
    List.drop_eq_nil_of_le (Nat.le_add_right _ _), List.append_nil]

theorem take_takeD (buf : List UInt8) (off more : ℕ) :
    (buf.takeD (off + more) 0).take off = buf.takeD off 0 := by
  induction off generalizing buf with
  | zero => rfl
  | succ off ih =>
    rw [Nat.succ_add]
    simp [ih]

/-- What is written behind the place of `head` first stays when `head` is written there. -/
theorem blit_blit (buf head src : List UInt8) (off : ℕ) :
    blit (blit buf (off + head.length) src) off head = blit buf off (head ++ src) := by
  have hlen : (buf.takeD (off + head.length) 0).length = off + head.length :=
    List.takeD_length _ _ _
  have htake : (blit buf (off + head.length) src).takeD off 0 = buf.takeD off 0 := by
    rw [blit, List.append_assoc, List.takeD_eq_take _ (by simp; omega),
      List.take_append_of_le_length (by omega), take_takeD]
  have hdrop : (blit buf (off + head.length) src).drop (off + head.length) =
      src ++ buf.drop (off + head.length + src.length) := by
    rw [blit, List.append_assoc, List.drop_left' hlen]
  rw [blit, htake, hdrop, blit, List.length_append, ← Nat.add_assoc]
  simp only [List.append_assoc]

/-- A byte that is left out when the next one is written is zero. -/
theorem blit_hole (front : List UInt8) (b : UInt8) :
    blit front (front.length + 1) [b] = front ++ [0, b] := by
  have htake : front.takeD (front.length + 1) 0 = front ++ [0] := by
    induction front with
    | nil => rfl
    | cons a front ih => simpa using ih
  rw [blit, htake, List.drop_eq_nil_of_le (by omega)]
  simp

end FirebirdCore.Buffer
