import FirebirdCore.Lib.LittleEndian
import Mathlib.Data.List.Lex
import Mathlib.Data.Fin.Basic

/-!
# Orders of words of bytes

`longwords` reads bytes as little-endian numbers of thirty-two bits. Lists of one length are compared part by
part; where the bytes of each longword are reversed, longwords compare as the bytes did before.
-/
namespace FirebirdCore.WordOrder
open LittleEndian

/-! ## Lists of one length -/

section Lists
variable {α β : Type*} [LinearOrder α] [LinearOrder β]

theorem append_lt_append_iff {a b x y : List α} (h : a.length = b.length) :
    a ++ x < b ++ y ↔ a < b ∨ a = b ∧ x < y := by
  induction a generalizing b with
  | nil =>
    obtain rfl : b = [] := List.length_eq_zero_iff.1 h.symm
    simp
  | cons c a ih =>
    cases b with
    | nil => cases h
    | cons d b =>
      rw [List.cons_append, List.cons_append, List.cons_lt_cons_iff, List.cons_lt_cons_iff,
        ih (Nat.succ.inj h), List.cons.injEq]
      tauto

theorem append_lt_append_right_iff {a b : List α} (h : a.length = b.length) (x : List α) :
    a ++ x < b ++ x ↔ a < b := by
  rw [append_lt_append_iff h]
  simp

theorem map_lt_map_iff {f : α → β} (hf : StrictMono f) {a b : List α} : a.map f < b.map f ↔ a < b := by
  induction a generalizing b with
  | nil => cases b <;> simp
  | cons c a ih =>
    cases b with
    | nil => simp
    | cons d b =>
      rw [List.map_cons, List.map_cons, List.cons_lt_cons_iff, List.cons_lt_cons_iff, ih, hf.lt_iff_lt,
        hf.injective.eq_iff]

/-- A map that reverses the order of some elements reverses the order of lists of them. -/
theorem map_lt_map_iff_of_anti {f : α → β} {s : Set α} (hf : StrictAntiOn f s) {a b : List α}
    (ha : ∀ x ∈ a, x ∈ s) (hb : ∀ x ∈ b, x ∈ s) (h : a.length = b.length) : a.map f < b.map f ↔ b < a := by
  induction a generalizing b with
  | nil =>
    obtain rfl : b = [] := List.length_eq_zero_iff.1 h.symm
    simp
  | cons c a ih =>
    cases b with
    | nil => cases h
    | cons d b =>
      have hc := ha c List.mem_cons_self
      have hd := hb d List.mem_cons_self
      rw [List.map_cons, List.map_cons, List.cons_lt_cons_iff, List.cons_lt_cons_iff,
        ih (fun x hx => ha x (List.mem_cons_of_mem c hx)) (fun x hx => hb x (List.mem_cons_of_mem d hx))
          (Nat.succ.inj h), hf.lt_iff_gt hc hd, hf.injOn.eq_iff hc hd, eq_comm]

end Lists

/-! ## Longwords -/

def longwords : List UInt8 → List ℕ
  | a :: b :: c :: d :: p => ofBytes [a, b, c, d] :: longwords p
  | _ => []

def reverseLongs : List UInt8 → List UInt8
  | a :: b :: c :: d :: p => d :: c :: b :: a :: reverseLongs p
  | p => p

def complement (p : List UInt8) : List UInt8 := p.map (· ^^^ 0xFF)

section Longwords
variable {p q : List UInt8} {k : ℕ}

/-- Longwords one at a time. -/
theorem longword_cases (h : p.length = 4 * (k + 1)) :
    ∃ a b c d p', p = a :: b :: c :: d :: p' ∧ p'.length = 4 * k := by
  match p, h with
  | a :: b :: c :: d :: p', h =>
    refine ⟨a, b, c, d, p', rfl, ?_⟩
    simp only [List.length_cons] at h
    omega

theorem longwords_append (h : p.length = 4 * k) (q : List UInt8) :
    longwords (p ++ q) = longwords p ++ longwords q := by
  induction k generalizing p with
  | zero =>
    obtain rfl : p = [] := List.length_eq_zero_iff.1 h
    rfl
  | succ k ih =>
    obtain ⟨a, b, c, d, p', rfl, hp'⟩ := longword_cases h
    exact congrArg (ofBytes [a, b, c, d] :: ·) (ih hp')

theorem length_longwords (h : p.length = 4 * k) : (longwords p).length = k := by
  induction k generalizing p with
  | zero =>
    obtain rfl : p = [] := List.length_eq_zero_iff.1 h
    rfl
  | succ k ih =>
    obtain ⟨a, b, c, d, p', rfl, hp'⟩ := longword_cases h
    exact congrArg (· + 1) (ih hp')

theorem longwords_lt (h : p.length = 4 * k) : ∀ w ∈ longwords p, w < 2 ^ 32 := by
  induction k generalizing p with
  | zero =>
    obtain rfl : p = [] := List.length_eq_zero_iff.1 h
    simp [longwords]
  | succ k ih =>
    obtain ⟨a, b, c, d, p', rfl, hp'⟩ := longword_cases h
    intro w hw
    rcases List.mem_cons.1 hw with rfl | hw
    · exact (ofBytes_lt [a, b, c, d]).trans_eq (by norm_num)
    · exact ih hp' w hw

theorem toNat_complement (b : UInt8) : (b ^^^ 0xFF).toNat = 255 - b.toNat := by
  have hall : ∀ n : Fin 256, n.val ^^^ 255 = 255 - n.val := by decide +kernel
  have hones : (0xFF : UInt8).toNat = 255 := rfl
  rw [UInt8.toNat_xor, hones]
  exact hall ⟨b.toNat, b.toNat_lt⟩

theorem complement_complement (p : List UInt8) : complement (complement p) = p := by
  rw [complement, complement, List.map_map]
  apply List.map_id''
  intro b
  rw [Function.comp_apply, UInt8.xor_assoc, UInt8.xor_self, UInt8.xor_zero]

@[simp] theorem length_complement (p : List UInt8) : (complement p).length = p.length := List.length_map _

theorem longwords_complement (h : p.length = 4 * k) :
    longwords (complement p) = (longwords p).map (2 ^ 32 - 1 - ·) := by
  induction k generalizing p with
  | zero =>
    obtain rfl : p = [] := List.length_eq_zero_iff.1 h
    rfl
  | succ k ih =>
    obtain ⟨a, b, c, d, p', rfl, hp'⟩ := longword_cases h
    have hword : ofBytes [a ^^^ 0xFF, b ^^^ 0xFF, c ^^^ 0xFF, d ^^^ 0xFF] = 2 ^ 32 - 1 - ofBytes [a, b, c, d] := by
      have ha := a.toNat_lt
      have hb := b.toNat_lt
      have hc := c.toNat_lt
      have hd := d.toNat_lt
      simp only [ofBytes, toNat_complement]
      omega
    have hrest := ih hp'
    rw [complement] at hrest
    simp only [complement, List.map_cons, longwords, hword, hrest]

/-- Complementing reverses the order. -/
theorem longwords_complement_lt_iff (hp : p.length = 4 * k) (hq : q.length = 4 * k) :
    longwords (complement p) < longwords (complement q) ↔ longwords q < longwords p := by
  have hanti : StrictAntiOn (fun w => 2 ^ 32 - 1 - w) {w : ℕ | w < 2 ^ 32} := by
    intro v hv w hw hlt
    rw [Set.mem_ofPred_eq] at hv hw
    dsimp only
    omega
  rw [longwords_complement hp, longwords_complement hq]
  apply map_lt_map_iff_of_anti hanti (longwords_lt hp) (longwords_lt hq)
  rw [length_longwords hp, length_longwords hq]

@[simp] theorem length_reverseLongs (p : List UInt8) : (reverseLongs p).length = p.length := by
  fun_induction reverseLongs p with
  | case1 a b c d p ih => simp only [List.length_cons, ih]
  | case2 p => rfl

theorem reverseLongs_reverseLongs (h : p.length = 4 * k) : reverseLongs (reverseLongs p) = p := by
  induction k generalizing p with
  | zero =>
    obtain rfl : p = [] := List.length_eq_zero_iff.1 h
    rfl
  | succ k ih =>
    obtain ⟨a, b, c, d, p', rfl, hp'⟩ := longword_cases h
    simp only [reverseLongs, ih hp']

theorem complement_reverseLongs (p : List UInt8) : complement (reverseLongs p) = reverseLongs (complement p) := by
  match p with
  | [] | [_] | [_, _] | [_, _, _] => rfl
  | a :: b :: c :: d :: p =>
    have hrest := complement_reverseLongs p
    rw [complement, complement] at hrest
    simp only [complement, reverseLongs, List.map_cons, hrest]

/-- The numbers of bytes. -/
def values (p : List UInt8) : List ℤ := p.map fun b => (b.toNat : ℤ)

/-- Reversed in each longword, bytes are compared as they were. -/
theorem longwords_reverseLongs_lt_iff (hp : p.length = 4 * k) (hq : q.length = 4 * k) :
    longwords (reverseLongs p) < longwords (reverseLongs q) ↔ values p < values q := by
  induction k generalizing p q with
  | zero =>
    obtain rfl : p = [] := List.length_eq_zero_iff.1 hp
    obtain rfl : q = [] := List.length_eq_zero_iff.1 hq
    simp [reverseLongs, longwords, values]
  | succ k ih =>
    obtain ⟨a, b, c, d, p', rfl, hp'⟩ := longword_cases hp
    obtain ⟨a', b', c', d', q', rfl, hq'⟩ := longword_cases hq
    have hrest := ih hp' hq'
    rw [values, values] at hrest
    simp only [values, reverseLongs, longwords, List.map_cons, List.cons_lt_cons_iff, hrest, ofBytes]
    have hb := b.toNat_lt
    have hc := c.toNat_lt
    have hd := d.toNat_lt
    have hb' := b'.toNat_lt
    have hc' := c'.toNat_lt
    have hd' := d'.toNat_lt
    generalize (List.map (fun b : UInt8 => (b.toNat : ℤ)) p' < List.map (fun b : UInt8 => (b.toNat : ℤ)) q') = rest
    by_cases h : rest <;> simp only [h, and_true, and_false, or_false] <;> omega

end Longwords

end FirebirdCore.WordOrder
