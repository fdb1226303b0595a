import FirebirdCore.Sqz.Compressor

/-!
# Fragments of compressed records

The bounded `pack` fills an area of known length with a front part of the string. A record is cut into
fragments by packing what is left of it again.
-/
namespace FirebirdCore.Sqz.Compressor

/-- Compress a string into an area of known length: what is written there, and how much of the string it
stands for. -/
def packInto : ℤ → List UInt8 → List UInt8 → Except BugCheck (List UInt8 × ℕ)
  | _, [], _ => .error .recordLengthInconsistent
  | space, c :: control, input =>
      let space := space - 1
      if space ≤ 0 then .ok (if space = 0 then [0] else [], 0)
      else
        let length := signedChar c
        if length < 0 then
          let run := (-length).toNat % 256
          (packInto (space - 1) control (input.drop run)).map fun r =>
            (c :: input.headD 0 :: r.1, run + r.2)
        else if space - length < 0 then
          let length := (length + (space - length)).toNat
          .ok (UInt8.ofNat length :: input.take length, length)
        else
          (packInto (space - length) control (input.drop length.toNat)).map fun r =>
            (c :: (input.take length.toNat ++ r.1), length.toNat + r.2)

/-- Same as `packInto` without the output. -/
def getPartialLength : ℤ → List UInt8 → Except BugCheck ℕ
  | _, [] => .error .recordLengthInconsistent
  | space, c :: control =>
      let space := space - 1
      if space ≤ 0 then .ok 0
      else
        let length := signedChar c
        if length < 0 then
          (getPartialLength (space - 1) control).map ((-length).toNat % 256 + ·)
        else if space - length < 0 then .ok (length + (space - length)).toNat
        else (getPartialLength (space - length) control).map (length.toNat + ·)

variable {control data : List UInt8} {space : ℕ}

/-- The area is filled, and stands for the first `n` bytes of the string. -/
structure Packs (control data : List UInt8) (space : ℕ) (out : List UInt8) (n : ℕ) : Prop where
  pack : packInto space control data = .ok (out, n)
  partial_length : getPartialLength space control = .ok n
  out_length : out.length = space
  le_length : n ≤ data.length
  unpack : ∀ outLength output rest, output.length + n ≤ outLength →
    unpackLoop outLength space (out ++ rest) output = .ok (output ++ data.take n)

theorem unpackLoop_nil {outLength : ℕ} (input : List UInt8) {output : List UInt8}
    (h : output.length ≤ outLength) : unpackLoop outLength 0 input output = .ok output := by
  rw [unpackLoop, if_pos rfl, if_neg (Nat.not_lt.2 h)]

/-- No byte is left for another control byte. -/
theorem packs_zero (c : UInt8) (control data : List UInt8) : Packs (c :: control) data 0 [] 0 where
  pack := rfl
  partial_length := rfl
  out_length := rfl
  le_length := Nat.zero_le _
  unpack := by
    intro outLength output rest h
    rw [List.take_zero, List.append_nil]
    exact unpackLoop_nil _ h

/-- One byte is left, which is padding. -/
theorem packs_one (c : UInt8) (control data : List UInt8) : Packs (c :: control) data 1 [0] 0 where
  pack := rfl
  partial_length := rfl
  out_length := rfl
  le_length := Nat.zero_le _
  unpack := by
    intro outLength output rest h
    have hpadding := @unpackLoop_literal outLength 0 [] rest output (Nat.zero_le _) h
    rw [List.append_nil] at hpadding
    rw [List.take_zero, List.append_nil]
    exact hpadding.trans (unpackLoop_nil _ h)

/-- The area ends in a stretch of literals. -/
theorem packs_cut {bs : List UInt8} (control data : List UInt8) (hmax : bs.length ≤ 127)
    (hspace : 1 < space) (hlong : space ≤ bs.length) :
    Packs (UInt8.ofNat bs.length :: control) (bs ++ data) space
      (UInt8.ofNat (space - 1) :: bs.take (space - 1)) (space - 1) := by
  have hchar := signedChar_ofNat (n := bs.length) (by omega)
  have htake : (bs ++ data).take (space - 1) = bs.take (space - 1) :=
    List.take_append_of_le_length (by omega)
  have hlength : (bs.take (space - 1)).length = space - 1 := by
    rw [List.length_take]
    omega
  have hpart : ((bs.length : ℤ) + ((space : ℤ) - 1 - bs.length)).toNat = space - 1 := by omega
  constructor
  · simp only [packInto, hchar]
    rw [if_neg (by omega), if_neg (by omega), if_pos (by omega), hpart, htake]
  · simp only [getPartialLength, hchar]
    rw [if_neg (by omega), if_neg (by omega), if_pos (by omega), hpart]
  · rw [List.length_cons, hlength]
    omega
  · rw [List.length_append]
    omega
  · intro outLength output rest h
    have hliteral := @unpackLoop_literal outLength 0 (bs.take (space - 1)) rest output (by omega) (by omega)
    rw [hlength] at hliteral
    have hall : 1 + (space - 1) + 0 = space := by omega
    rw [hall] at hliteral
    rw [htake, List.cons_append, hliteral]
    apply unpackLoop_nil
    rw [List.length_append]
    omega

theorem Packs.literal {bs out : List UInt8} {n : ℕ} (h : Packs control data space out n)
    (hmax : bs.length ≤ 127) (hpos : 0 < bs.length + space) :
    Packs (UInt8.ofNat bs.length :: control) (bs ++ data) (1 + bs.length + space)
      (UInt8.ofNat bs.length :: (bs ++ out)) (bs.length + n) := by
  have hchar := signedChar_ofNat (n := bs.length) (by omega)
  have hspace : (((1 + bs.length + space : ℕ) : ℤ) - 1 - (bs.length : ℤ)) = space := by omega
  constructor
  · simp only [packInto, hchar]
    rw [if_neg (by omega), if_neg (by omega), if_neg (by omega), hspace, Int.toNat_natCast, List.drop_left,
      h.pack, List.take_left]
    rfl
  · simp only [getPartialLength, hchar]
    rw [if_neg (by omega), if_neg (by omega), if_neg (by omega), hspace, Int.toNat_natCast, h.partial_length]
    rfl
  · rw [List.length_cons, List.length_append, h.out_length]
    omega
  · rw [List.length_append]
    exact Nat.add_le_add_left h.le_length _
  · intro outLength output rest hfit
    rw [List.cons_append, List.append_assoc, unpackLoop_literal hmax (by omega),
      h.unpack _ _ _ (by rw [List.length_append]; omega), List.append_assoc, List.take_length_add_append]

theorem Packs.run {m n : ℕ} {c : UInt8} {out : List UInt8} (h : Packs control data space out n)
    (hmin : 3 ≤ m) (hmax : m ≤ 128) :
    Packs (UInt8.ofNat (256 - m) :: control) (List.replicate m c ++ data) (2 + space)
      (UInt8.ofNat (256 - m) :: c :: out) (m + n) := by
  have hchar := signedChar_neg (n := m) (by omega) hmax
  have hspace : ((2 + space : ℕ) : ℤ) - 1 - 1 = space := by omega
  have hrun : (- -(m : ℤ)).toNat % 256 = m := by omega
  have hhead : (List.replicate m c ++ data).headD 0 = c := by
    obtain ⟨k, rfl⟩ : ∃ k, m = k + 1 := ⟨m - 1, by omega⟩
    rfl
  have hdrop : (List.replicate m c ++ data).drop m = data := by
    rw [List.drop_left' (by simp)]
  constructor
  · simp only [packInto, hchar]
    rw [if_neg (by omega), if_pos (by omega), hrun, hdrop, hhead, hspace, h.pack]
    rfl
  · simp only [getPartialLength, hchar]
    rw [if_neg (by omega), if_pos (by omega), hrun, hspace, h.partial_length]
    rfl
  · rw [List.length_cons, List.length_cons, h.out_length]
    omega
  · rw [List.length_append, List.length_replicate]
    exact Nat.add_le_add_left h.le_length _
  · intro outLength output rest hfit
    have htake : (List.replicate m c ++ data).take (m + n) = List.replicate m c ++ data.take n := by
      rw [List.take_append, List.length_replicate, Nat.add_sub_cancel_left, List.take_of_length_le (by simp)]
    rw [List.cons_append, List.cons_append, unpackLoop_run hmin hmax (by omega),
      h.unpack _ _ _ (by rw [List.length_append, List.length_replicate]; omega), List.append_assoc, htake]

/-- Control bytes that need more than the area fill it. -/
theorem Controls.packs (h : Controls control data) (hspace : space < packedLength control) :
    ∃ out n, Packs control data space out n := by
  induction h generalizing space with
  | nil => exact absurd hspace (Nat.not_lt_zero _)
  | @literal bs control data hpos hmax h ih =>
    have hchar := signedChar_ofNat (n := bs.length) (by omega)
    rw [packedLength_cons, hchar, if_neg (by omega), Int.toNat_natCast] at hspace
    match space with
    | 0 => exact ⟨_, _, packs_zero _ _ _⟩
    | 1 => exact ⟨_, _, packs_one _ _ _⟩
    | space + 2 =>
      by_cases hlong : space + 2 ≤ bs.length
      · exact ⟨_, _, packs_cut control data hmax (by omega) hlong⟩
      · obtain ⟨left, hleft⟩ : ∃ left, space + 2 = 1 + bs.length + left :=
          ⟨space + 1 - bs.length, by omega⟩
        rw [hleft] at hspace ⊢
        obtain ⟨out, n, hpacks⟩ := ih (by omega : left < packedLength control)
        exact ⟨_, _, hpacks.literal hmax (by omega)⟩
  | @run m c control data hmin hmax h ih =>
    have hchar := signedChar_neg (n := m) (by omega) hmax
    rw [packedLength_cons, hchar, if_pos (by omega)] at hspace
    match space with
    | 0 => exact ⟨_, _, packs_zero _ _ _⟩
    | 1 => exact ⟨_, _, packs_one _ _ _⟩
    | space + 2 =>
      obtain ⟨out, n, hpacks⟩ := ih (by omega : space < packedLength control)
      rw [Nat.add_comm]
      exact ⟨_, _, hpacks.run hmin hmax⟩

/-! ## Cutting a record -/

/-- A record in fragments of the sizes, as long as what is left of it does not fit. The last fragment is
packed as a whole. -/
def cut : List ℕ → List UInt8 → Except BugCheck (List (List UInt8))
  | [], data => .ok [pack (make data).control data]
  | size :: sizes, data =>
      if size < (make data).getPackedLength then
        (packInto size (make data).control data).bind fun r =>
          (cut sizes (data.drop r.2)).map (r.1 :: ·)
      else .ok [pack (make data).control data]

/-- Unpacked, the fragment is the part, whatever follows it in memory. -/
def Stores (fragment part : List UInt8) : Prop :=
  ∀ rest outLength, part.length ≤ outLength →
    unpack fragment.length (fragment ++ rest) outLength = .ok part

theorem stores_pack (data : List UInt8) : Stores (pack (make data).control data) data := by
  intro rest outLength h
  exact (make_controls data).unpackLoop_pack outLength [] rest (by simpa using h)

theorem Packs.stores {out : List UInt8} {n : ℕ} (h : Packs control data space out n) :
    Stores out (data.take n) := by
  intro rest outLength hfit
  rw [List.length_take, Nat.min_eq_left h.le_length] at hfit
  rw [h.out_length]
  exact h.unpack outLength [] rest (by simpa using hfit)

theorem make_packs {data : List UInt8} {size : ℕ} (h : size < (make data).getPackedLength) :
    ∃ out n, Packs (make data).control data size out n := by
  rw [getPackedLength, (make_lengths data).2] at h
  exact (make_controls data).packs h

theorem cut_stores (sizes : List ℕ) (data : List UInt8) : ∃ fragments parts,
    cut sizes data = .ok fragments ∧ List.Forall₂ Stores fragments parts ∧ parts.flatten = data := by
  have hwhole : List.Forall₂ Stores [pack (make data).control data] [data] :=
    .cons (stores_pack data) .nil
  induction sizes generalizing data with
  | nil => exact ⟨_, _, rfl, hwhole, by simp⟩
  | cons size sizes ih =>
    rw [cut]
    split_ifs with hsize
    · obtain ⟨out, n, hpacks⟩ := make_packs hsize
      have hlast : List.Forall₂ Stores [pack (make (data.drop n)).control (data.drop n)] [data.drop n] :=
        .cons (stores_pack _) .nil
      obtain ⟨fragments, parts, hcut, hstores, hparts⟩ := ih (data.drop n) hlast
      refine ⟨out :: fragments, data.take n :: parts, ?_, .cons hpacks.stores hstores, ?_⟩
      · rw [hpacks.pack]
        simp [Except.bind, hcut, Except.map]
      · rw [List.flatten_cons, hparts, List.take_append_drop]
    · exact ⟨_, _, rfl, hwhole, by simp⟩

/-- An area that is too small is filled with a front part of the string, of the length that
`getPartialLength` finds, and fragments of any sizes make up the string. -/
theorem packInto_spec (data : List UInt8) (outLength : ℕ) (h : outLength < (make data).getPackedLength) :
    (∃ out n, packInto outLength (make data).control data = .ok (out, n) ∧ out.length = outLength ∧
      getPartialLength outLength (make data).control = .ok n ∧ n ≤ data.length ∧
      Stores out (data.take n)) ∧
    ∀ sizes, ∃ fragments parts, cut sizes data = .ok fragments ∧
      List.Forall₂ Stores fragments parts ∧ parts.flatten = data := by
  constructor
  · obtain ⟨out, n, hpacks⟩ := make_packs h
    exact ⟨out, n, hpacks.pack, hpacks.out_length, hpacks.partial_length, hpacks.le_length, hpacks.stores⟩
  · intro sizes
    exact cut_stores sizes data

theorem packInto_spec_three :
    (∃ out n, packInto (3 : ℕ) (make [1, 2, 3, 4]).control [1, 2, 3, 4] = .ok (out, n) ∧ out.length = 3 ∧
      getPartialLength (3 : ℕ) (make [1, 2, 3, 4]).control = .ok n ∧ n ≤ [1, 2, 3, 4].length ∧
      Stores out (([1, 2, 3, 4] : List UInt8).take n)) ∧
    ∀ sizes, ∃ fragments parts, cut sizes [1, 2, 3, 4] = .ok fragments ∧
      List.Forall₂ Stores fragments parts ∧ parts.flatten = [1, 2, 3, 4] := by
  apply packInto_spec [1, 2, 3, 4] 3
  simp [getPackedLength, make, literalLength, literalControls, takeRun]

end FirebirdCore.Sqz.Compressor
