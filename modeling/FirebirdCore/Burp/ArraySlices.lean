import FirebirdCore.Burp.GetArray

/-!
# The slices of an array

The slices are right if they are disjoint boxes of exactly the elements in the backup, in row-major order, and each
comes with the bytes of its elements. They are, unless the texts vary in length, the description of a slice is too
long for its buffer, or the last element has the lowest of all subscripts.
-/
namespace FirebirdCore.Burp
open Cvt (SLONG MIN_SLONG MAX_SLONG SLONG_of_mem SLONG_mem)
open RowMajor

/-! ## Right slices -/

/-- The element of a cell: the elements are in row-major order. -/
def elementAt (ranges : List (ℤ × ℤ)) (elements : List (List UInt8)) (cell : List ℤ) : List UInt8 :=
  elements.getD ((cells ranges).idxOf cell) []

structure Right (ranges : List (ℤ × ℤ)) (elements : List (List UInt8)) (slices : List Slice) : Prop where
  disjoint : slices.Pairwise fun s t => (cells s.bounds).Disjoint (cells t.bounds)
  cover : slices.flatMap (fun s => cells s.bounds) = (cells ranges).take elements.length
  bytes : ∀ s ∈ slices, s.slice = (cells s.bounds).flatMap (elementAt ranges elements)

/-- The row of the last element is complete, in the last two dimensions. -/
def RowComplete (ranges : List (ℤ × ℤ)) (last : List ℤ) : Prop :=
  ranges.length = 1 ∧ last.head? = ranges.head?.map Prod.snd

instance instDecidableRowComplete (ranges : List (ℤ × ℤ)) (last : List ℤ) : Decidable (RowComplete ranges last) :=
  inferInstanceAs (Decidable (_ ∧ _))

/-- There is no subscript below that of the last element in some dimension in front of the last one, or of the last
two where these are merged. -/
def Undercut : List (ℤ × ℤ) → List ℤ → Prop
  | _ :: ranges, l :: last =>
      ranges ≠ [] ∧ ¬ RowComplete ranges last ∧ (l = MIN_SLONG ∨ Undercut ranges last)
  | _, _ => False

/-- The length of the description, which does not depend on the bounds. -/
def sdlLength (rel_name : List UInt8) (field : burp_fld) : ℕ :=
  13 + (typeBytes field).length + rel_name.length + field.fld_name.length + 14 * field.fld_dimensions

/-! ## The last element -/

variable {field : burp_fld} {rel_name buffer : List UInt8} {r : ℤ × ℤ} {ranges pre : List (ℤ × ℤ)}
  {l : ℤ} {last lpre : List ℤ} {dimensions current_dim count passes n k m fl : ℕ} {data_at : ℤ}
  {boxes : List (List (ℤ × ℤ))} {elements : List (List UInt8)}

/-- What the ranges of a field keep to. -/
structure Fits (ranges : List (ℤ × ℤ)) : Prop where
  filled : Filled ranges
  bounds : ∀ r ∈ ranges, MIN_SLONG ≤ r.1 ∧ r.2 ≤ MAX_SLONG
  elements : size ranges ≤ MAX_SLONG

theorem fits_field (field : burp_fld) : Fits field.fld_ranges := ⟨field.filled, field.bounds, field.elements⟩

theorem Fits.tail (h : Fits (r :: ranges)) : Fits ranges where
  filled := h.filled.tail
  bounds s hs := h.bounds s (List.mem_cons_of_mem r hs)
  elements := by
    have hextent : 1 ≤ extent r := extent_pos h.filled.head
    have hsize := h.filled.tail.size_pos
    have hle := h.elements
    rw [size_cons] at hle
    nlinarith

theorem SLONG_of_nonneg {x : ℤ} (hx : 0 ≤ x) (hmax : x ≤ MAX_SLONG) : SLONG x = x := by
  refine SLONG_of_mem ⟨?_, hmax⟩
  unfold MIN_SLONG
  omega

/-- A number falls into the rows in front of the element and its place in its own row. -/
theorem exists_row (h : Filled (r :: ranges)) (hn : (n : ℤ) < size (r :: ranges)) :
    ∃ k m : ℕ, n = k * (cells ranges).length + m ∧ m < (cells ranges).length ∧ (k : ℤ) < extent r := by
  have hlength := length_cells h.tail
  have hpos : 0 < (cells ranges).length := by
    have := h.tail.size_pos
    omega
  refine ⟨n / (cells ranges).length, n % (cells ranges).length, (Nat.div_add_mod' _ _).symm,
    Nat.mod_lt _ hpos, ?_⟩
  have hextent := (extent_pos h.head).le
  rw [size_cons, ← hlength] at hn
  have hlt : n < (extent r).toNat * (cells ranges).length := by
    rw [← Int.toNat_of_nonneg hextent] at hn
    exact_mod_cast hn
  have hdiv := Nat.div_lt_of_lt_mul (Nat.mul_comm _ _ ▸ hlt)
  omega

theorem last_element_dim_cons (h : Fits (r :: ranges)) (hk : (k : ℤ) < extent r)
    (hm : m < (cells ranges).length) :
    last_element_dim ((k * (cells ranges).length + m : ℕ) + 1) (r :: ranges) =
      (r.1 + k) :: last_element_dim (m + 1) ranges := by
  have hlength := length_cells h.tail.filled
  obtain ⟨hmin, hmax⟩ := h.bounds r List.mem_cons_self
  have hquotient : ((k * (cells ranges).length + m : ℕ) + 1 - 1 : ℤ).tdiv (size ranges) = k := by
    rw [add_sub_cancel_right, ← hlength, Int.tdiv_eq_ediv_of_nonneg (Int.natCast_nonneg _)]
    rw [← Int.natCast_ediv, Nat.add_comm, Nat.add_mul_div_right _ _ (by omega), Nat.div_eq_of_lt hm, Nat.zero_add]
  have hfirst : SLONG ((k : ℤ) + r.1) = r.1 + k := by
    rw [add_comm]
    refine SLONG_of_mem ⟨by omega, ?_⟩
    unfold extent at hk
    omega
  have hrest : SLONG ((k * (cells ranges).length + m : ℕ) + 1 - (r.1 + k - r.1) * size ranges) = (m : ℤ) + 1 := by
    have heq : ((k * (cells ranges).length + m : ℕ) + 1 - (r.1 + k - r.1) * size ranges : ℤ) = m + 1 := by
      rw [← hlength]
      push_cast
      ring
    have hle := h.tail.elements
    rw [heq, SLONG_of_nonneg (by omega) (by omega)]
  rw [last_element_dim, hquotient, hfirst, hrest]

/-- The subscripts are those of the last element. -/
theorem getElem?_cells_last (h : Fits ranges) (hn : (n : ℤ) < size ranges) :
    (cells ranges)[n]? = some (last_element_dim (n + 1) ranges) := by
  induction ranges generalizing n with
  | nil =>
    have hzero : n = 0 := by
      rw [size_nil] at hn
      omega
    rw [hzero]
    rfl
  | cons r ranges ih =>
    obtain ⟨k, m, rfl, hm, hk⟩ := exists_row h.filled hn
    have hm' : (m : ℤ) < size ranges := by
      rw [← length_cells h.tail.filled]
      exact_mod_cast hm
    rw [getElem?_cells hk hm, ih h.tail hm', last_element_dim_cons h hk hm]
    rfl

def Within (ranges : List (ℤ × ℤ)) (last : List ℤ) : Prop :=
  List.Forall₂ (fun r l => r.1 ≤ l ∧ l ≤ r.2) ranges last

theorem within_last (h : Fits ranges) (hn : (n : ℤ) < size ranges) :
    Within ranges (last_element_dim (n + 1) ranges) := by
  induction ranges generalizing n with
  | nil => exact .nil
  | cons r ranges ih =>
    obtain ⟨k, m, rfl, hm, hk⟩ := exists_row h.filled hn
    have hm' : (m : ℤ) < size ranges := by
      rw [← length_cells h.tail.filled]
      exact_mod_cast hm
    rw [last_element_dim_cons h hk hm]
    refine .cons ⟨by omega, ?_⟩ (ih h.tail hm')
    unfold extent at hk
    omega

/-! ## The ranges in the backup -/

/-- The box from the first element to the given subscripts. -/
def spanned (ranges : List (ℤ × ℤ)) (last : List ℤ) : List (ℤ × ℤ) :=
  (ranges.zip last).map fun r => (r.1.1, r.2)

theorem size_spanned_cons :
    size (spanned (r :: ranges) (l :: last)) = (l - r.1 + 1) * size (spanned ranges last) := size_cons _ _

/-- The box to an element has no more elements than there are up to it. -/
theorem size_spanned_le (h : Fits ranges) (hn : (n : ℤ) < size ranges) :
    0 < size (spanned ranges (last_element_dim (n + 1) ranges)) ∧
      size (spanned ranges (last_element_dim (n + 1) ranges)) ≤ n + 1 := by
  induction ranges generalizing n with
  | nil => exact ⟨Int.one_pos, by simp [spanned]⟩
  | cons r ranges ih =>
    obtain ⟨k, m, rfl, hm, hk⟩ := exists_row h.filled hn
    have hm' : (m : ℤ) < size ranges := by
      rw [← length_cells h.tail.filled]
      exact_mod_cast hm
    obtain ⟨hpos, hle⟩ := ih h.tail hm'
    rw [last_element_dim_cons h hk hm, size_spanned_cons, add_sub_cancel_left]
    refine ⟨Int.mul_pos (by omega) hpos, ?_⟩
    calc ((k : ℤ) + 1) * size (spanned ranges (last_element_dim (m + 1) ranges))
        ≤ (k + 1) * (m + 1) := Int.mul_le_mul_of_nonneg_left hle (by omega)
      _ ≤ (k * (cells ranges).length + m : ℕ) + 1 := by
        push_cast
        have hmul := Int.mul_le_mul_of_nonneg_left (Int.ofNat_le.2 (Nat.succ_le_of_lt hm)) (Int.natCast_nonneg k)
        push_cast at hmul
        linarith

/-- With no element left, the box is empty: the ends of some dimension meet again when they wrap. -/
theorem dvd_size_spanned (h : Fits ranges) (hne : ranges ≠ []) :
    (2 ^ 32 : ℤ) ∣ size (spanned ranges (last_element_dim 0 ranges)) := by
  induction ranges with
  | nil => exact absurd rfl hne
  | cons r ranges ih =>
    have hsize := h.tail.filled.size_pos
    obtain ⟨hmin, -⟩ := h.bounds r List.mem_cons_self
    rw [last_element_dim, size_spanned_cons]
    rcases Int.lt_or_le 1 (size ranges) with hlarge | hsmall
    · have hquotient : (0 - 1 : ℤ).tdiv (size ranges) = 0 := by
        rw [zero_sub, Int.neg_tdiv, Int.tdiv_eq_zero_of_lt Int.one_nonneg hlarge, neg_zero]
      have hhead := h.filled.head
      have hmax := (h.bounds r List.mem_cons_self).2
      have hranges : ranges ≠ [] := by
        rintro rfl
        exact absurd hlarge (by decide)
      rw [hquotient, zero_add, SLONG_of_mem ⟨hmin, hhead.trans hmax⟩, sub_self, zero_mul, sub_self,
        show SLONG 0 = 0 from rfl]
      exact Dvd.dvd.mul_left (ih h.tail hranges) _
    · have hone : size ranges = 1 := by omega
      have hdvd : (2 ^ 32 : ℤ) ∣ SLONG (-1 + r.1) - (-1 + r.1) := Int.dvd_bmod_sub_self
      have heq : SLONG (-1 + r.1) - r.1 + 1 = SLONG (-1 + r.1) - (-1 + r.1) := by ring
      rw [hone, show (0 - 1 : ℤ).tdiv 1 = -1 from rfl, heq]
      exact Dvd.dvd.mul_right hdvd _

theorem field_length_pos (field : burp_fld) : 0 < field.field_length := by
  have := field.fld_length_pos
  unfold burp_fld.field_length
  split_ifs <;> omega

/-- The ranges in the backup are never those of all elements that are in it. -/
theorem length_ne_slice_length (field : burp_fld) (hpos : 0 < n) (hfew : n < size field.fld_ranges)
    (hbytes : (n * field.field_length : ℕ) ≤ MAX_SLONG) :
    ((n * field.field_length : ℕ) : ℤ) ≠ SLONG (field.field_length * size (put_array_ranges field n)) := by
  have hlength := field_length_pos field
  obtain ⟨n, rfl⟩ := Nat.exists_eq_succ_of_ne_zero hpos.ne'
  have hranges : put_array_ranges field (n + 1) = spanned field.fld_ranges (last_element_dim n field.fld_ranges) := by
    rw [put_array_ranges, Nat.cast_succ, add_sub_cancel_right]
    rfl
  rw [hranges]
  cases n with
  | zero =>
    have hdvd := dvd_size_spanned (fits_field field) field.fld_ranges_ne_nil
    have hzero : SLONG (field.field_length * size (spanned field.fld_ranges
        (last_element_dim (0 : ℕ) field.fld_ranges))) = 0 :=
      Int.dvd_iff_bmod_eq_zero.1 (Dvd.dvd.mul_left hdvd _)
    rw [hzero]
    omega
  | succ n =>
    have hn : (n : ℤ) < size field.fld_ranges := by omega
    obtain ⟨hsize, hle⟩ := size_spanned_le (fits_field field) hn
    have hmul := Int.mul_le_mul_of_nonneg_left hle (Int.natCast_nonneg field.field_length)
    have hnonneg := Int.mul_nonneg (Int.natCast_nonneg field.field_length) hsize.le
    push_cast at hbytes hmul hnonneg ⊢
    rw [SLONG_of_nonneg hnonneg (by nlinarith)]
    nlinarith

/-! ## The passes -/

/-- The boxes that the passes come to. -/
def cut : List (ℤ × ℤ) → List ℤ → List (List (ℤ × ℤ))
  | r :: ranges, l :: last =>
      if ranges = [] then [[(r.1, l)]]
      else if RowComplete ranges last then [(r.1, l) :: spanned ranges last]
      else
        (if SLONG (l - 1) < r.1 then [] else [(r.1, SLONG (l - 1)) :: ranges]) ++
          (cut ranges last).map ((l, l) :: ·)
  | _, _ => []

/-- One subscript for each dimension. -/
def pin (last : List ℤ) : List (ℤ × ℤ) := last.map fun l => (l, l)

def Pass.pinned (last : List ℤ) : Pass → Pass
  | dont_write => dont_write
  | write bounds merged => write (pin last ++ bounds) merged

/-- In front of the current dimension the subscripts are those of the last element. -/
theorem findBounds_pinned (hlength : pre.length = lpre.length) (hcurrent : count + pre.length = current_dim) :
    findBounds dimensions current_dim count (pre ++ ranges) (lpre ++ last) =
      (findBounds dimensions current_dim current_dim ranges last).pinned lpre := by
  induction pre generalizing count lpre with
  | nil =>
    cases lpre with
    | nil =>
      have hcount : count = current_dim := hcurrent
      rw [hcount, List.nil_append, List.nil_append]
      cases findBounds dimensions current_dim current_dim ranges last <;> rfl
    | cons l lpre => cases hlength
  | cons r pre ih =>
    cases lpre with
    | nil => cases hlength
    | cons l lpre =>
      have hlt : count < current_dim := by
        rw [List.length_cons] at hcurrent
        omega
      have hrest : findBounds dimensions current_dim (count + 1) (pre ++ ranges) (lpre ++ last) =
          (findBounds dimensions current_dim current_dim ranges last).pinned lpre :=
        ih (Nat.succ.inj hlength) (by rw [List.length_cons] at hcurrent; omega)
      rw [List.cons_append, List.cons_append, findBounds, if_neg (by omega), if_neg (by omega), if_neg (by omega),
        hrest]
      cases findBounds dimensions current_dim current_dim ranges last <;> rfl

/-- Behind the current dimension the subscripts are all there are. -/
theorem findBounds_free (hcount : current_dim < count) (hlength : ranges.length = last.length)
    (hdimensions : count + ranges.length = dimensions) :
    findBounds dimensions current_dim count ranges last = .write ranges false := by
  induction ranges generalizing count last with
  | nil => rw [findBounds]; simp
  | cons r ranges ih =>
    cases last with
    | nil => cases hlength
    | cons l last =>
      rw [List.length_cons] at hdimensions
      rw [findBounds, if_neg (by omega), if_neg (by omega), if_pos hcount,
        ih (by omega) (Nat.succ.inj hlength) (by omega)]
      rfl

theorem findBounds_last (hl : r.1 ≤ l) :
    findBounds (current_dim + 1) current_dim current_dim [r] [l] = .write [(r.1, l)] false := by
  rw [findBounds, if_neg (by omega), if_pos rfl]
  simp only [Nat.add_sub_cancel, if_true, if_neg (not_lt.2 hl)]
  rfl

/-- In the current dimension, if it is not the last one. -/
theorem findBounds_current (hne : ranges ≠ []) (hlength : ranges.length = last.length)
    (hdimensions : current_dim + 1 + ranges.length = dimensions) :
    findBounds dimensions current_dim current_dim (r :: ranges) (l :: last) =
      if RowComplete ranges last then .write ((r.1, l) :: spanned ranges last) true
      else if SLONG (l - 1) < r.1 then .dont_write
      else .write ((r.1, SLONG (l - 1)) :: ranges) false := by
  have hpos := List.length_pos_iff.2 hne
  have hmerge : (current_dim + 1 = dimensions - 1 ∧ dimensions - current_dim = 2 ∧
      last.head? = ranges.head?.map Prod.snd) ↔ RowComplete ranges last := by
    unfold RowComplete
    constructor
    · rintro ⟨-, hcount, hhead⟩
      exact ⟨by omega, hhead⟩
    · rintro ⟨hone, hhead⟩
      exact ⟨by omega, by omega, hhead⟩
  rw [findBounds]
  simp only [hmerge, if_true, if_neg (show ¬ current_dim = dimensions - 1 by omega)]
  rw [findBounds_free (by omega) hlength (by omega)]
  rfl

/-! ## The loop -/

/-- The boxes with the bytes behind a running offset. -/
def deliver (fld_length : ℕ) (buffer : List UInt8) : ℤ → List (List (ℤ × ℤ)) → List Slice
  | _, [] => []
  | data_at, bounds :: boxes =>
      ⟨bounds, (buffer.drop data_at.toNat).take (slice_length fld_length bounds).toNat⟩ ::
        deliver fld_length buffer (SLONG (data_at + slice_length fld_length bounds)) boxes

theorem length_add_long (lg : ℤ) : (add_long lg).length = 4 := rfl

theorem length_addDo2 (count : ℕ) (r : ℤ × ℤ) : (addDo2 count r).length = 12 := by
  simp [addDo2, length_add_long]

theorem length_sdl {bounds : List (ℤ × ℤ)} (h : bounds.length = field.fld_dimensions) :
    (sdl rel_name field bounds).length = sdlLength rel_name field := by
  simp only [sdl, sdlLength, add_string, List.length_append, List.length_cons, List.length_nil, List.length_flatMap,
    length_addDo2, List.map_const', List.length_zipIdx, List.length_range, List.sum_replicate, smul_eq_mul, h]
  omega

theorem putSlices_done (h : field.fld_dimensions ≤ current_dim) :
    putSlices rel_name field last buffer passes current_dim data_at = some [] := by
  cases passes with
  | zero => rfl
  | succ passes => rw [putSlices, if_neg (not_lt.2 h)]

theorem length_pin (last : List ℤ) : (pin last).length = last.length := List.length_map _

theorem pin_concat (lpre : List ℤ) (l : ℤ) (bounds : List (ℤ × ℤ)) :
    pin (lpre ++ [l]) ++ bounds = pin lpre ++ (l, l) :: bounds := by
  simp [pin]

theorem length_spanned (h : ranges.length = last.length) : (spanned ranges last).length = ranges.length := by
  rw [spanned, List.length_map, List.length_zip, h, Nat.min_self]

theorem putSlices_skip (hlt : current_dim < field.fld_dimensions)
    (h : findBounds field.fld_dimensions current_dim 0 field.fld_ranges last = .dont_write) :
    putSlices rel_name field last buffer (passes + 1) current_dim data_at =
      putSlices rel_name field last buffer passes (current_dim + 1) data_at := by
  rw [putSlices, if_pos hlt, h]

theorem putSlices_write {bounds : List (ℤ × ℤ)} {merged : Bool} (hlt : current_dim < field.fld_dimensions)
    (h : findBounds field.fld_dimensions current_dim 0 field.fld_ranges last = .write bounds merged)
    (hlength : bounds.length = field.fld_dimensions) :
    putSlices rel_name field last buffer (passes + 1) current_dim data_at =
      if BLR_BUFFER_SIZE < sdlLength rel_name field then none
      else
        (putSlices rel_name field last buffer passes (if merged then current_dim + 2 else current_dim + 1)
          (SLONG (data_at + slice_length field.fld_length bounds))).map
          (⟨bounds, (buffer.drop data_at.toNat).take (slice_length field.fld_length bounds).toNat⟩ :: ·) := by
  rw [putSlices, if_pos hlt, h]
  dsimp only
  rw [length_sdl hlength]

/-- What the passes come to from the current dimension on. -/
theorem putSlices_spec (hranges : field.fld_ranges = pre ++ ranges) (hpre : pre.length = lpre.length)
    (hne : ranges ≠ []) (hwithin : Within ranges last) (hpasses : ranges.length ≤ passes) :
    putSlices rel_name field (lpre ++ last) buffer passes pre.length data_at =
      if BLR_BUFFER_SIZE < sdlLength rel_name field then none
      else some (deliver field.fld_length buffer data_at ((cut ranges last).map (pin lpre ++ ·))) := by
  induction ranges generalizing pre lpre last passes data_at with
  | nil => exact absurd rfl hne
  | cons r ranges ih =>
    cases hwithin with
    | @cons _ l _ last hl hwithin =>
      have hlength : ranges.length = last.length := hwithin.length_eq
      have hdimensions : pre.length + 1 + ranges.length = field.fld_dimensions := by
        rw [burp_fld.fld_dimensions, hranges, List.length_append, List.length_cons]
        omega
      obtain ⟨passes, rfl⟩ := Nat.exists_eq_succ_of_ne_zero (Nat.ne_of_gt (Nat.lt_of_lt_of_le (Nat.succ_pos _) hpasses))
      have hpinned : findBounds field.fld_dimensions pre.length 0 (pre ++ r :: ranges) (lpre ++ l :: last) =
          (findBounds field.fld_dimensions pre.length pre.length (r :: ranges) (l :: last)).pinned lpre :=
        findBounds_pinned hpre (Nat.zero_add _)
      rw [← hranges] at hpinned
      have hpins : ∀ bounds : List (ℤ × ℤ), bounds.length = ranges.length + 1 →
          (pin lpre ++ bounds).length = field.fld_dimensions := by
        intro bounds hbounds
        rw [List.length_append, length_pin, ← hpre, hbounds, ← hdimensions]
        omega
      -- The passes behind this one have one more subscript in front.
      have hrest : ∀ data_at, ranges ≠ [] →
          putSlices rel_name field (lpre ++ l :: last) buffer passes (pre.length + 1) data_at =
            if BLR_BUFFER_SIZE < sdlLength rel_name field then none
            else some (deliver field.fld_length buffer data_at
              (((cut ranges last).map ((l, l) :: ·)).map (pin lpre ++ ·))) := by
        intro data_at hranges'
        have h : putSlices rel_name field ((lpre ++ [l]) ++ last) buffer passes (pre ++ [r]).length data_at =
            if BLR_BUFFER_SIZE < sdlLength rel_name field then none
            else some (deliver field.fld_length buffer data_at ((cut ranges last).map (pin (lpre ++ [l]) ++ ·))) :=
          ih (by rw [hranges, List.append_assoc]; rfl) (by simp [hpre]) hranges' hwithin
            (Nat.le_of_succ_le_succ hpasses)
        rw [List.append_assoc, List.length_append] at h
        simp only [pin_concat] at h
        rw [List.map_map]
        exact h
      have hlt : pre.length < field.fld_dimensions := by omega
      by_cases hlast : ranges = []
      · subst hlast
        have hnil : last = [] := List.length_eq_zero_iff.1 hlength.symm
        subst hnil
        rw [← hdimensions, List.length_nil, Nat.add_zero, findBounds_last hl.1] at hpinned
        rw [putSlices_write hlt (by rw [← hdimensions]; exact hpinned) (hpins _ rfl),
          putSlices_done (by simp [← hdimensions])]
        simp [cut, deliver]
      · rw [findBounds_current hlast hlength hdimensions] at hpinned
        rw [cut, if_neg hlast]
        by_cases hrow : RowComplete ranges last
        · rw [if_pos hrow] at hpinned ⊢
          have hbounds : ((r.1, l) :: spanned ranges last).length = ranges.length + 1 := by
            rw [List.length_cons, length_spanned hlength]
          rw [putSlices_write hlt hpinned (hpins _ hbounds),
            putSlices_done (by rw [if_pos rfl, ← hdimensions, hrow.1])]
          rfl
        · rw [if_neg hrow] at hpinned ⊢
          by_cases hless : SLONG (l - 1) < r.1
          · rw [if_pos hless] at hpinned ⊢
            rw [putSlices_skip hlt hpinned, hrest _ hlast, List.nil_append]
          · rw [if_neg hless] at hpinned ⊢
            rw [putSlices_write hlt hpinned (hpins _ rfl), if_neg Bool.false_ne_true, hrest _ hlast]
            split_ifs <;> rfl

/-! ## What the slices cover -/

theorem map_bounds_deliver (fld_length : ℕ) (buffer : List UInt8) (data_at : ℤ) (boxes : List (List (ℤ × ℤ))) :
    (deliver fld_length buffer data_at boxes).map Slice.bounds = boxes := by
  induction boxes generalizing data_at with
  | nil => rfl
  | cons bounds boxes ih => rw [deliver, List.map_cons, ih]

theorem filled_spanned (hwithin : Within ranges last) : Filled (spanned ranges last) := by
  induction hwithin with
  | nil => exact fun r hr => absurd hr List.not_mem_nil
  | cons hl _ ih => exact .cons hl.1 ih

theorem filled_cut (hfilled : Filled ranges) (hwithin : Within ranges last) :
    ∀ bounds ∈ cut ranges last, Filled bounds := by
  induction ranges generalizing last with
  | nil => exact fun bounds h => absurd h List.not_mem_nil
  | cons r ranges ih =>
    cases hwithin with
    | @cons _ l _ last hl hwithin =>
      have hpinned : ∀ bounds ∈ (cut ranges last).map ((l, l) :: ·), Filled bounds := by
        intro bounds hbounds
        obtain ⟨tail, htail, rfl⟩ := List.mem_map.1 hbounds
        exact .cons le_rfl (ih hfilled.tail hwithin tail htail)
      intro bounds hbounds
      rw [cut] at hbounds
      split_ifs at hbounds with hlast hrow hless
      · rw [List.mem_singleton.1 hbounds]
        exact .cons hl.1 fun s hs => absurd hs List.not_mem_nil
      · rw [List.mem_singleton.1 hbounds]
        exact .cons hl.1 (filled_spanned hwithin)
      · exact hpinned bounds hbounds
      · rcases List.mem_cons.1 hbounds with rfl | hbounds
        · exact .cons (not_lt.1 hless) hfilled.tail
        · exact hpinned bounds hbounds

/-- The boxes are the elements up to the last one, if there is a subscript below that of the last element where it is
needed. -/
theorem flatMap_cut (h : Fits ranges) (hne : ranges ≠ []) (hn : (n : ℤ) < size ranges)
    (hundercut : ¬ Undercut ranges (last_element_dim (n + 1) ranges)) :
    (cut ranges (last_element_dim (n + 1) ranges)).flatMap cells = (cells ranges).take (n + 1) := by
  induction ranges generalizing n with
  | nil => exact absurd rfl hne
  | cons r ranges ih =>
    obtain ⟨k, m, rfl, hm, hk⟩ := exists_row h.filled hn
    have hm' : (m : ℤ) < size ranges := by
      rw [← length_cells h.tail.filled]
      exact_mod_cast hm
    have hwithin := within_last h.tail hm'
    obtain ⟨hmin, hmax⟩ := h.bounds r List.mem_cons_self
    rw [last_element_dim_cons h hk hm] at hundercut ⊢
    rw [cut]
    -- The rows up to the last one, where this is complete.
    have hrows : (cells ranges).length = m + 1 →
        (cells (r :: ranges)).take (k * (cells ranges).length + m + 1) = cells ((r.1, r.1 + k) :: ranges) := by
      intro hcomplete
      have hall : k * (cells ranges).length + m + 1 = (k + 1) * (cells ranges).length := by
        rw [hcomplete]
        ring
      rw [hall, take_rows (by omega), Nat.cast_succ, add_sub_assoc, add_sub_cancel_right]
    split_ifs with hlast hrow hless
    · subst hlast
      have hzero : m = 0 := by simpa using hm
      rw [hrows (by rw [hzero]; rfl), List.flatMap_singleton]
    · obtain ⟨r', rfl⟩ := List.length_eq_one_iff.1 hrow.1
      obtain ⟨k', m', rfl, hm', hk'⟩ := exists_row h.tail.filled hm'
      have hzero : m' = 0 := by simpa using hm'
      have hlast := last_element_dim_cons h.tail hk' hm'
      rw [hlast] at hrow ⊢
      have hhigh : r'.1 + k' = r'.2 := Option.some.inj hrow.2
      have hcomplete : (cells [r']).length = k' * (cells []).length + m' + 1 := by
        rw [length_cells_cons, hzero, extent]
        simp only [cells_nil, List.length_singleton]
        omega
      have hbox : spanned [r'] ((r'.1 + k') :: last_element_dim (m' + 1) []) = [r'] := by
        rw [hhigh]
        rfl
      rw [hrows hcomplete, hbox, List.flatMap_singleton]
    all_goals
      have hl : SLONG (r.1 + k - 1) = r.1 + k - 1 := by
        have hne : r.1 + k ≠ MIN_SLONG := fun heq => hundercut ⟨hlast, hrow, .inl heq⟩
        refine SLONG_of_mem ⟨by omega, ?_⟩
        unfold extent at hk
        omega
      have hih := ih h.tail hlast hm' fun hundercut' => hundercut ⟨hlast, hrow, .inr hundercut'⟩
      rw [Nat.add_assoc, take_rows_add hk (Nat.succ_le_of_lt hm), List.flatMap_append, flatMap_cells_pinned, hih]
    · have hempty : cells ((r.1, r.1 + k - 1) :: ranges) = [] := by
        rw [hl] at hless
        have hextent : (extent (r.1, r.1 + k - 1)).toNat = 0 := by
          unfold extent
          omega
        rw [cells, indices, hextent]
        rfl
      rw [hempty]
      rfl
    · rw [hl, List.flatMap_singleton]

/-! ## The bytes of the slices -/

theorem SLONG_le {x : ℤ} (hx : 0 ≤ x) : SLONG x ≤ x := by
  have hmod : x % 2 ^ 32 ≤ x := by omega
  rw [SLONG, Int.bmod_eq_emod]
  push_cast
  split_ifs <;> omega

theorem length_slice_le (hfilled : ∀ bounds ∈ boxes, Filled bounds) :
    ∀ s ∈ deliver fl buffer data_at boxes, s.slice.length ≤ (cells s.bounds).length * fl := by
  induction boxes generalizing data_at with
  | nil => exact fun s h => absurd h List.not_mem_nil
  | cons bounds boxes ih =>
    intro s hs
    rcases List.mem_cons.1 hs with rfl | hs
    · have hlength := length_cells (hfilled bounds List.mem_cons_self)
      have hle := SLONG_le (Int.natCast_nonneg ((cells bounds).length * fl))
      rw [Nat.cast_mul, hlength] at hle
      dsimp only
      rw [List.length_take]
      refine (Nat.min_le_left _ _).trans ?_
      rw [slice_length, ← Int.ofNat_le, Nat.cast_mul, hlength]
      have hnonneg := Int.natCast_nonneg ((cells bounds).length * fl)
      rw [Nat.cast_mul, hlength] at hnonneg
      omega
    · exact ih (fun b hb => hfilled b (List.mem_cons_of_mem _ hb)) s hs

theorem length_flatMap_of_length {α β : Type} {f : α → List β} {xs : List α} {d : ℕ}
    (h : ∀ x ∈ xs, (f x).length = d) : (xs.flatMap f).length = xs.length * d := by
  rw [List.length_flatMap, List.map_congr_left h, List.map_const', List.sum_replicate, smul_eq_mul]

/-- The offset runs with the elements that are delivered. -/
theorem bytes_deliver {value : List ℤ → List UInt8} (hvalue : ∀ c ∈ boxes.flatMap cells, (value c).length = fl)
    (hfilled : ∀ bounds ∈ boxes, Filled bounds) {offset : ℕ}
    (hdata : buffer.drop offset = (boxes.flatMap cells).flatMap value) (hoffset : offset ≤ buffer.length)
    (hmax : (buffer.length : ℤ) ≤ MAX_SLONG) :
    ∀ s ∈ deliver fl buffer offset boxes, s.slice = (cells s.bounds).flatMap value := by
  induction boxes generalizing offset with
  | nil => exact fun s h => absurd h List.not_mem_nil
  | cons bounds boxes ih =>
    rw [List.flatMap_cons, List.flatMap_append] at hdata
    have hfirst : ((cells bounds).flatMap value).length = (cells bounds).length * fl :=
      length_flatMap_of_length fun c hc => hvalue c (List.mem_append_left _ hc)
    have hroom : offset + (cells bounds).length * fl ≤ buffer.length := by
      have hlength := congrArg List.length hdata
      rw [List.length_drop, List.length_append, hfirst] at hlength
      omega
    have hslice : slice_length fl bounds = ((cells bounds).length * fl : ℕ) := by
      rw [slice_length, ← length_cells (hfilled bounds List.mem_cons_self), ← Nat.cast_mul]
      exact SLONG_of_nonneg (Int.natCast_nonneg _) (by omega)
    have hnext : SLONG (offset + slice_length fl bounds) = (offset + (cells bounds).length * fl : ℕ) := by
      rw [hslice, ← Nat.cast_add]
      exact SLONG_of_nonneg (Int.natCast_nonneg _) (by omega)
    intro s hs
    rw [deliver, hnext, hslice] at hs
    rcases List.mem_cons.1 hs with rfl | hs
    · dsimp only
      rw [Int.toNat_natCast, Int.toNat_natCast, hdata, ← hfirst, List.take_left]
    · refine ih (fun c hc => hvalue c (List.mem_append_right _ hc))
        (fun b hb => hfilled b (List.mem_cons_of_mem _ hb)) ?_ hroom s hs
      rw [← List.drop_drop, hdata, ← hfirst, List.drop_left]

theorem map_elementAt (h : elements.length ≤ (cells ranges).length) :
    ((cells ranges).take elements.length).map (elementAt ranges elements) = elements := by
  refine List.ext_getElem (by rw [List.length_map, List.length_take, Nat.min_eq_left h]) fun i _ hi => ?_
  have hidx := (nodup_cells ranges).idxOf_getElem i (hi.trans_le h)
  rw [List.getElem_map, List.getElem_take, elementAt, hidx, List.getD_eq_getElem?_getD,
    List.getElem?_eq_getElem hi, Option.getD_some]

/-! ## When the slices are right -/

theorem right_deliver (field : burp_fld) (hlength : ∀ e ∈ elements, e.length = field.fld_length)
    (hpos : elements ≠ []) (hfew : elements.length < size field.fld_ranges)
    (hbytes : (elements.flatten.length : ℤ) ≤ MAX_SLONG)
    (hundercut : ¬ Undercut field.fld_ranges (last_element_dim elements.length field.fld_ranges)) :
    Right field.fld_ranges elements (deliver field.fld_length elements.flatten 0
      (cut field.fld_ranges (last_element_dim elements.length field.fld_ranges))) := by
  obtain ⟨n, hn⟩ := Nat.exists_eq_succ_of_ne_zero (List.length_pos_iff.2 hpos).ne'
  have hfits := fits_field field
  have hcount := length_cells field.filled
  have hle : elements.length ≤ (cells field.fld_ranges).length := by omega
  have hlast : ((elements.length : ℕ) : ℤ) = n + 1 := by
    rw [hn]
    rfl
  have hsize : (n : ℤ) < size field.fld_ranges := by omega
  have hmap := map_elementAt hle
  rw [hlast] at hundercut ⊢
  have hcover := flatMap_cut hfits field.fld_ranges_ne_nil hsize hundercut
  have hbounds := map_bounds_deliver field.fld_length elements.flatten 0
    (cut field.fld_ranges (last_element_dim (n + 1) field.fld_ranges))
  have hall : (deliver field.fld_length elements.flatten 0
      (cut field.fld_ranges (last_element_dim (n + 1) field.fld_ranges))).flatMap (fun s => cells s.bounds) =
      (cells field.fld_ranges).take elements.length := by
    rw [hn, ← hcover, ← hbounds, List.flatMap_map, hbounds]
  refine ⟨?_, hall, ?_⟩
  · have hnodup : ((cells field.fld_ranges).take elements.length).Nodup :=
      (nodup_cells _).sublist (List.take_sublist _ _)
    rw [← hall, List.nodup_flatMap] at hnodup
    exact hnodup.2
  · have hvalue : ∀ c ∈ (cut field.fld_ranges (last_element_dim (n + 1) field.fld_ranges)).flatMap cells,
        (elementAt field.fld_ranges elements c).length = field.fld_length := by
      intro c hc
      rw [hcover, ← Nat.succ_eq_add_one, ← hn] at hc
      have hmem := List.mem_map_of_mem (f := elementAt field.fld_ranges elements) hc
      rw [hmap] at hmem
      exact hlength _ hmem
    have hdata : elements.flatten.drop 0 =
        ((cut field.fld_ranges (last_element_dim (n + 1) field.fld_ranges)).flatMap cells).flatMap
          (elementAt field.fld_ranges elements) := by
      rw [hcover, ← Nat.succ_eq_add_one, ← hn, List.flatMap_def, hmap, List.drop_zero]
    exact bytes_deliver hvalue (filled_cut field.filled (within_last hfits hsize)) hdata (Nat.zero_le _) hbytes

/-- With a length in front, an element has more bytes than it is given. -/
theorem not_right_of_varying (hvarying : field.fld_type = blr_varying)
    (hlength : ∀ e ∈ elements, e.length = field.field_length) (hpos : elements ≠ [])
    (hfew : elements.length < size field.fld_ranges) (hfilled : ∀ bounds ∈ boxes, Filled bounds) :
    ¬ Right field.fld_ranges elements (deliver field.fld_length buffer data_at boxes) := by
  intro hright
  have hcount := length_cells field.filled
  have hle : elements.length ≤ (cells field.fld_ranges).length := by omega
  have hmap := map_elementAt hle
  have hfield : field.field_length = field.fld_length + 2 := if_pos hvarying
  obtain ⟨c, hc⟩ : ∃ c, c ∈ (cells field.fld_ranges).take elements.length := by
    refine List.exists_mem_of_length_pos ?_
    rw [List.length_take, Nat.min_eq_left hle]
    exact List.length_pos_iff.2 hpos
  rw [← hright.cover] at hc
  obtain ⟨s, hs, hcell⟩ := List.mem_flatMap.1 hc
  have helements : ((cells s.bounds).flatMap (elementAt field.fld_ranges elements)).length =
      (cells s.bounds).length * (field.fld_length + 2) := by
    refine length_flatMap_of_length fun c' hc' => ?_
    have hmem : c' ∈ (cells field.fld_ranges).take elements.length := by
      rw [← hright.cover]
      exact List.mem_flatMap.2 ⟨s, hs, hc'⟩
    have hmem' := List.mem_map_of_mem (f := elementAt field.fld_ranges elements) hmem
    rw [hmap] at hmem'
    rw [hlength _ hmem', hfield]
  have hshort := length_slice_le hfilled s hs
  rw [hright.bytes s hs, helements] at hshort
  have hsome := List.length_pos_of_mem hcell
  nlinarith

/-- Where the subscript below wraps, a slice has as many cells as an `SLONG` has values. -/
theorem exists_wrapped (h : Fits ranges) (hwithin : Within ranges last) (hundercut : Undercut ranges last) :
    ∃ bounds ∈ cut ranges last, 2 ^ 32 ≤ (cells bounds).length := by
  induction ranges generalizing last with
  | nil =>
    cases hwithin
    exact hundercut.elim
  | cons r ranges ih =>
    cases hwithin with
    | @cons _ l _ last hl hwithin =>
      obtain ⟨hne, hrow, hrest⟩ := hundercut
      rw [cut, if_neg hne, if_neg hrow]
      rcases hrest with rfl | hrest
      · have hmin := (h.bounds r List.mem_cons_self).1
        have hlow : r.1 = MIN_SLONG := le_antisymm hl.1 hmin
        have hwrap : SLONG (MIN_SLONG - 1) = MAX_SLONG := by decide
        have hpos : 0 < (cells ranges).length := by
          have hlength := length_cells h.tail.filled
          have := h.tail.filled.size_pos
          omega
        rw [hwrap, hlow, if_neg (by decide)]
        refine ⟨_, List.mem_cons_self, ?_⟩
        rw [length_cells_cons, show (extent (MIN_SLONG, MAX_SLONG)).toNat = 2 ^ 32 from by decide]
        exact Nat.le_mul_of_pos_right _ hpos
      · obtain ⟨bounds, hbounds, hlarge⟩ := ih h.tail hwithin hrest
        refine ⟨(l, l) :: bounds, List.mem_append_right _ (List.mem_map_of_mem hbounds), ?_⟩
        rwa [cells_pinned, List.length_map]

theorem not_right_of_undercut (hwithin : Within field.fld_ranges last) (hundercut : Undercut field.fld_ranges last) :
    ¬ Right field.fld_ranges elements (deliver fl buffer data_at (cut field.fld_ranges last)) := by
  intro hright
  obtain ⟨bounds, hbounds, hlarge⟩ := exists_wrapped (fits_field field) hwithin hundercut
  rw [← map_bounds_deliver fl buffer data_at (cut field.fld_ranges last)] at hbounds
  obtain ⟨s, hs, rfl⟩ := List.mem_map.1 hbounds
  have hsub : (cells s.bounds).length ≤ ((cells field.fld_ranges).take elements.length).length := by
    rw [← hright.cover, List.length_flatMap]
    exact List.single_le_sum (fun _ _ => Nat.zero_le _) _ (List.mem_map_of_mem hs)
  have hcount := length_cells field.filled
  have hmax := field.elements
  have htake : ((cells field.fld_ranges).take elements.length).length ≤ (cells field.fld_ranges).length := by
    rw [List.length_take]
    exact Nat.min_le_right _ _
  unfold MAX_SLONG at hmax
  omega

/-- The elements that were in the backup come back with the right slices if and only if the texts do not vary in
length, the description of a slice fits in its buffer, and there is a subscript below that of the last element. -/
theorem restore_right_iff (rel_name : List UInt8) (field : burp_fld) (elements : List (List UInt8))
    (hlength : ∀ e ∈ elements, e.length = field.field_length) (hpos : 0 < elements.length)
    (hfew : elements.length < size field.fld_ranges)
    (hbytes : (elements.length * field.field_length : ℕ) ≤ MAX_SLONG) :
    (∃ slices, restore rel_name field elements = some slices ∧ Right field.fld_ranges elements slices) ↔
      field.fld_type ≠ blr_varying ∧ sdlLength rel_name field ≤ BLR_BUFFER_SIZE ∧
        ¬ Undercut field.fld_ranges ((cells field.fld_ranges).getD (elements.length - 1) []) := by
  have hne : elements ≠ [] := List.length_pos_iff.1 hpos
  have hbuffer : elements.flatten.length = elements.length * field.field_length := by
    rw [List.length_flatten, List.map_congr_left hlength, List.map_const', List.sum_replicate, smul_eq_mul]
  have hlt : ((elements.length - 1 : ℕ) : ℤ) < size field.fld_ranges := by omega
  have hcast : ((elements.length - 1 : ℕ) : ℤ) + 1 = elements.length := by omega
  have hlast := getElem?_cells_last (fits_field field) hlt
  have hwithin := within_last (fits_field field) hlt
  rw [hcast] at hlast hwithin
  have hcell : (cells field.fld_ranges).getD (elements.length - 1) [] =
      last_element_dim elements.length field.fld_ranges := by
    rw [List.getD_eq_getElem?_getD, hlast]
    rfl
  have hpartial := length_ne_slice_length field hpos hfew hbytes
  have hrestore : restore rel_name field elements =
      if BLR_BUFFER_SIZE < sdlLength rel_name field then none
      else some (deliver field.fld_length elements.flatten 0
        (cut field.fld_ranges (last_element_dim elements.length field.fld_ranges))) := by
    have hspec : putSlices rel_name field ([] ++ last_element_dim elements.length field.fld_ranges) elements.flatten
        field.fld_ranges.length ([] : List (ℤ × ℤ)).length 0 =
          if BLR_BUFFER_SIZE < sdlLength rel_name field then none
          else some (deliver field.fld_length elements.flatten 0
            ((cut field.fld_ranges (last_element_dim elements.length field.fld_ranges)).map (pin [] ++ ·))) :=
      putSlices_spec (List.nil_append field.fld_ranges).symm rfl field.fld_ranges_ne_nil hwithin le_rfl
    rw [restore, get_array, hbuffer, if_pos hpartial, Nat.mul_div_cancel _ (field_length_pos field)]
    simpa [pin, burp_fld.fld_dimensions] using hspec
  rw [hrestore, hcell]
  have hfilled := filled_cut field.filled hwithin
  constructor
  · rintro ⟨slices, hslices, hright⟩
    split_ifs at hslices with hlong
    cases hslices
    refine ⟨fun hvarying => ?_, not_lt.1 hlong, fun hundercut => ?_⟩
    · exact not_right_of_varying hvarying hlength hne hfew hfilled hright
    · exact not_right_of_undercut hwithin hundercut hright
  · rintro ⟨hvarying, hshort, hundercut⟩
    have hfield : field.field_length = field.fld_length := if_neg hvarying
    rw [hfield] at hlength
    rw [if_neg (not_lt.2 hshort)]
    exact ⟨_, rfl, right_deliver field hlength hne hfew (by rwa [hbuffer]) hundercut⟩

def squareOfLongs : burp_fld where
  fld_type := blr_long
  fld_length := 4
  fld_scale := 0
  fld_character_set_id := 0
  fld_name := [65]
  fld_ranges := [(1, 2), (1, 2)]
  fld_length_pos := by decide
  fld_length_lt := by decide
  fld_ranges_ne_nil := List.cons_ne_nil _ _
  fld_ranges_length := by decide
  filled := by unfold Filled; decide
  bounds := by decide
  elements := by decide

theorem restore_right_iff_square : ∃ slices,
    restore [84] squareOfLongs [[1, 0, 0, 0], [2, 0, 0, 0], [3, 0, 0, 0]] = some slices ∧
      Right squareOfLongs.fld_ranges [[1, 0, 0, 0], [2, 0, 0, 0], [3, 0, 0, 0]] slices := by
  refine (restore_right_iff [84] squareOfLongs [[1, 0, 0, 0], [2, 0, 0, 0], [3, 0, 0, 0]] (by decide) (by decide)
    (by decide) (by decide)).2 ⟨by decide, by decide +kernel, ?_⟩
  rintro ⟨-, -, hlow | ⟨hne, -⟩⟩
  · exact absurd hlow (by decide +kernel)
  · exact hne rfl

def twoTexts : burp_fld where
  fld_type := blr_varying
  fld_length := 1
  fld_scale := 0
  fld_character_set_id := 0
  fld_name := [65]
  fld_ranges := [(1, 2)]
  fld_length_pos := by decide
  fld_length_lt := by decide
  fld_ranges_ne_nil := List.cons_ne_nil _ _
  fld_ranges_length := by decide
  filled := by unfold Filled; decide
  bounds := by decide
  elements := by decide

/-- Of the text `A` with its length in front, only the first byte is given to the slice. -/
theorem restore_texts : ¬ ∃ slices, restore [84] twoTexts [[1, 0, 65]] = some slices ∧
    Right twoTexts.fld_ranges [[1, 0, 65]] slices := by
  rintro ⟨slices, hslices, hright⟩
  have hrestore : restore [84] twoTexts [[1, 0, 65]] = some [⟨[(1, 1)], [1]⟩] := by decide +kernel
  rw [hrestore] at hslices
  cases hslices
  exact absurd (hright.bytes _ List.mem_cons_self) (by decide +kernel)

end FirebirdCore.Burp
