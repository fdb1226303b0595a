import FirebirdCore.Clumplet.Reader

/-!
# Walking over a parameter block

The walk reports each clumplet and moves to the next one. It is sound unless it meets a wide clumplet
whose length is so great that the size of the whole clumplet does not fit 32 bits.
-/
namespace FirebirdCore.Clumplet
open FirebirdCore.LittleEndian

namespace ClumpletReader

/-! ## What a clumplet measures -/

/-- A wide clumplet whose size does not fit 32 bits. -/
def Overflows (r : ClumpletReader) : Prop :=
  ∃ tag rest, r.buffer.drop r.curOffset = tag :: rest ∧
    getClumpletType r.kind r.spbState tag = .ok .wide ∧ 4 ≤ rest.length ∧
    2 ^ 32 ≤ 5 + ofBytes (rest.take 4)

variable {r r' : ClumpletReader}

/-- What is measured is the length component of the type of the clumplet, and what it says. -/
structure Measures (r : ClumpletReader) (lengthSize dataSize : ℕ) : Prop where
  start : r.curOffset < r.buffer.length
  length : r.curOffset + 1 + lengthSize ≤ r.buffer.length
  fits : (1 + lengthSize + dataSize) % 2 ^ 32 ≤ r.buffer.length - r.curOffset
  small : lengthSize ≤ 4
  overflows : 2 ^ 32 ≤ 1 + lengthSize + dataSize ↔ r.Overflows

theorem dataSize_lt (type : ClumpletType) {rest : List UInt8} (h : type.lengthSize ≤ rest.length)
    (hwide : type ≠ .wide) : type.fixedSize.getD (ofBytes (rest.take type.lengthSize)) < 2 ^ 16 := by
  have hlt := ofBytes_lt (rest.take type.lengthSize)
  rw [List.length_take_of_le h] at hlt
  cases type with
  | wide => exact absurd rfl hwide
  | traditionalDpb => exact hlt.trans (by decide)
  | stringSpb => exact hlt
  | singleTpb => exact (by decide : 0 < 2 ^ 16)
  | intSpb => exact (by decide : 4 < 2 ^ 16)
  | bigIntSpb => exact (by decide : 8 < 2 ^ 16)
  | byteSpb => exact (by decide : 1 < 2 ^ 16)

theorem measures_of_measure {lengthSize dataSize : ℕ} (h : r.measure = .ok (lengthSize, dataSize)) :
    Measures r lengthSize dataSize := by
  rw [measure] at h
  split at h
  · cases h
  · rename_i tag rest hdrop
    have hlength : r.buffer.length - r.curOffset = rest.length + 1 := by
      rw [← List.length_drop, hdrop, List.length_cons]
    split at h
    · cases h
    · rename_i type htype
      dsimp only at h
      split_ifs at h with hshort hlong
      cases h
      have hsmall : type.lengthSize ≤ 4 := by cases type <;> decide
      refine ⟨by omega, by omega, by omega, hsmall, fun hover => ?_, ?_⟩
      · by_cases hwide : type = .wide
        · subst hwide
          exact ⟨tag, rest, hdrop, htype, not_lt.1 hshort, hover⟩
        · have hlt := dataSize_lt type (not_lt.1 hshort) hwide
          omega
      · rintro ⟨tag', rest', hdrop', htype', -, hover⟩
        rw [hdrop, List.cons.injEq] at hdrop'
        obtain ⟨rfl, rfl⟩ := hdrop'
        rw [htype, Except.ok.injEq] at htype'
        subst htype'
        exact hover

/-- A wide clumplet that is too long is measured all the same. -/
theorem measure_of_overflows (h : r.Overflows) :
    ∃ dataSize, r.measure = .ok (4, dataSize) ∧ 2 ^ 32 ≤ 5 + dataSize ∧ dataSize < 2 ^ 32 := by
  obtain ⟨tag, rest, hdrop, htype, hlength, hover⟩ := h
  have hlt := ofBytes_lt (rest.take 4)
  rw [List.length_take_of_le hlength] at hlt
  refine ⟨ofBytes (rest.take 4), ?_, hover, hlt⟩
  have hshort : ¬ rest.length < ClumpletType.wide.lengthSize := not_lt.2 hlength
  have hlong : ¬ rest.length + 1 < (1 + ClumpletType.wide.lengthSize +
      ClumpletType.wide.fixedSize.getD (ofBytes (rest.take ClumpletType.wide.lengthSize))) % 2 ^ 32 := by
    change ¬ rest.length + 1 < (1 + 4 + ofBytes (rest.take 4)) % 2 ^ 32
    omega
  rw [measure, hdrop]
  dsimp only
  rw [htype]
  dsimp only
  rw [if_neg hshort, if_neg hlong]
  rfl

/-! ## The walk -/

/-- All clumplets from where the reader is. The fuel bounds the steps. -/
def iterate : ℕ → ClumpletReader → Option (Except ClumpletError (List SingleClumplet))
  | 0, _ => none
  | fuel + 1, r =>
      if r.isEof then some (.ok [])
      else
        match r.getClumplet, r.moveNext with
        | .error e, _ => some (.error e)
        | .ok _, .error e => some (.error e)
        | .ok clumplet, .ok next => (iterate fuel next).map fun rest => rest.map (clumplet :: ·)

/-- The readers that the walk comes to. -/
inductive Visited (start : ClumpletReader) : ClumpletReader → Prop where
  | start : Visited start start
  | moveNext {r r' : ClumpletReader} (h : Visited start r) (heof : r.isEof = false)
      (hnext : r.moveNext = .ok r') : Visited start r'

/-- The walk ends, it reports nothing that is not inside the buffer, and it moves ahead. -/
structure Sound (start : ClumpletReader) : Prop where
  ends : ∃ fuel result, start.iterate fuel = some result
  inside : ∀ r, Visited start r → r.isEof = false → ∀ clumplet, r.getClumplet = .ok clumplet →
    r.curOffset < clumplet.data ∧ clumplet.data + clumplet.size ≤ start.buffer.length
  advances : ∀ r, Visited start r → r.isEof = false → ∀ r', r.moveNext = .ok r' →
    r.curOffset < r'.curOffset

theorem adjustSpbState_eq (h : r.adjustSpbState = .ok r') :
    r'.kind = r.kind ∧ r'.buffer = r.buffer ∧ r'.curOffset = r.curOffset := by
  rw [adjustSpbState] at h
  split at h
  · cases hsize : r.getClumpletSize true true true with
    | error e => rw [hsize] at h; cases h
    | ok size =>
      rw [hsize] at h
      simp only [bind, Except.bind] at h
      split at h
      · cases htag : r.getClumpTag with
        | error e => rw [htag] at h; cases h
        | ok tag =>
          rw [htag] at h
          cases h
          exact ⟨rfl, rfl, rfl⟩
      · cases h
        exact ⟨rfl, rfl, rfl⟩
  · cases h
    exact ⟨rfl, rfl, rfl⟩

/-- What a step does. -/
theorem moveNext_eq (heof : r.isEof = false) (h : r.moveNext = .ok r') :
    ∃ lengthSize dataSize, r.measure = .ok (lengthSize, dataSize) ∧ r'.kind = r.kind ∧
      r'.buffer = r.buffer ∧
      r'.curOffset = (r.curOffset + (1 + lengthSize + dataSize) % 2 ^ 32) % 2 ^ 32 := by
  rw [moveNext, heof, if_neg Bool.false_ne_true, getClumpletSize] at h
  cases hmeasure : r.measure with
  | error e => rw [hmeasure] at h; cases h
  | ok sizes =>
    obtain ⟨lengthSize, dataSize⟩ := sizes
    rw [hmeasure] at h
    simp only [Except.map, bind, Except.bind] at h
    cases hadjust : r.adjustSpbState with
    | error e => rw [hadjust] at h; cases h
    | ok adjusted =>
      rw [hadjust] at h
      cases h
      obtain ⟨hkind, hbuffer, hoffset⟩ := adjustSpbState_eq hadjust
      exact ⟨lengthSize, dataSize, rfl, hkind, hbuffer, by rw [hoffset]; rfl⟩

/-- What is reported. -/
theorem getClumplet_eq {clumplet : SingleClumplet} (h : r.getClumplet = .ok clumplet) :
    ∃ lengthSize dataSize, r.measure = .ok (lengthSize, dataSize) ∧ clumplet.size = dataSize % 2 ^ 32 ∧
      clumplet.data = r.curOffset + (1 + lengthSize) % 2 ^ 32 := by
  rw [getClumplet, getClumpLength, getBytes, getClumpletSize, getClumpletSize] at h
  cases htag : r.getClumpTag with
  | error e => rw [htag] at h; cases h
  | ok tag =>
    cases hmeasure : r.measure with
    | error e => rw [htag, hmeasure] at h; cases h
    | ok sizes =>
      obtain ⟨lengthSize, dataSize⟩ := sizes
      rw [htag, hmeasure] at h
      cases h
      refine ⟨lengthSize, dataSize, rfl, ?_, rfl⟩
      change (0 + 0 + dataSize) % 2 ^ 32 = _
      rw [Nat.zero_add]

theorem getClumplet_of_measure {lengthSize dataSize : ℕ} (h : r.measure = .ok (lengthSize, dataSize)) :
    ∃ tag, r.getClumplet =
      .ok ⟨tag, dataSize % 2 ^ 32, r.curOffset + (1 + lengthSize) % 2 ^ 32⟩ := by
  have hstart := (measures_of_measure h).start
  obtain ⟨tag, rest, hdrop⟩ := List.exists_cons_of_ne_nil
    (List.ne_nil_of_length_pos (by rw [List.length_drop]; omega) :
      r.buffer.drop r.curOffset ≠ [])
  refine ⟨tag, ?_⟩
  rw [getClumplet, getClumpTag, hdrop, getClumpLength, getBytes, getClumpletSize, getClumpletSize, h]
  simp only [Except.map, bind, Except.bind, pure, Except.pure, Nat.zero_add, if_true,
    Bool.false_eq_true, if_false, Nat.add_zero]

theorem Visited.buffer_eq {start : ClumpletReader} (h : Visited start r) : r.buffer = start.buffer := by
  induction h with
  | start => rfl
  | moveNext _ heof hnext ih =>
    obtain ⟨_, _, _, _, hbuffer, _⟩ := moveNext_eq heof hnext
    rw [hbuffer, ih]

theorem Visited.trans {start mid : ClumpletReader} (h : Visited start mid) (h' : Visited mid r) :
    Visited start r := by
  induction h' with
  | start => exact h
  | moveNext _ heof hnext ih => exact .moveNext ih heof hnext

/-- Without an overflow, a step stays inside the buffer. -/
theorem moveNext_inside (hbuffer : r.buffer.length < 2 ^ 32) (heof : r.isEof = false)
    (hover : ¬ r.Overflows) (h : r.moveNext = .ok r') :
    r.curOffset < r'.curOffset ∧ r'.curOffset ≤ r.buffer.length := by
  obtain ⟨lengthSize, dataSize, hmeasure, -, -, hoffset⟩ := moveNext_eq heof h
  have hm := measures_of_measure hmeasure
  have hsmall : 1 + lengthSize + dataSize < 2 ^ 32 := not_le.1 fun hle => hover (hm.overflows.1 hle)
  have hstart := hm.start
  have hfits := hm.fits
  rw [Nat.mod_eq_of_lt hsmall] at hfits hoffset
  rw [Nat.mod_eq_of_lt (by omega)] at hoffset
  omega

theorem lt_of_not_isEof (heof : r.isEof = false) : r.curOffset < r.buffer.length := by
  rw [isEof, decide_eq_false_iff_not, not_le, getBufferLength] at heof
  split at heof
  · exact absurd heof (Nat.not_lt_zero _)
  · exact heof

/-- Each step leaves less of the buffer, so that the walk ends. -/
theorem iterate_ends (hbuffer : r.buffer.length < 2 ^ 32)
    (hover : ∀ r', Visited r r' → r'.isEof = false → ¬ r'.Overflows) (fuel : ℕ)
    (hfuel : r.buffer.length ≤ r.curOffset + fuel) : ∃ result, r.iterate (fuel + 1) = some result := by
  induction fuel generalizing r with
  | zero =>
    have heof : r.isEof = true := by
      by_contra h
      have hlt := lt_of_not_isEof (Bool.eq_false_iff.2 h)
      omega
    exact ⟨_, if_pos heof⟩
  | succ fuel ih =>
    rw [iterate]
    by_cases heof : r.isEof
    · exact ⟨_, if_pos heof⟩
    · rw [if_neg heof]
      rw [Bool.not_eq_true] at heof
      split
      · exact ⟨_, rfl⟩
      · exact ⟨_, rfl⟩
      · rename_i next _ hnext
        obtain ⟨-, -, -, -, hbuf, -⟩ := moveNext_eq heof hnext
        obtain ⟨hlt, -⟩ := moveNext_inside hbuffer heof (hover r .start heof) hnext
        obtain ⟨result, hresult⟩ := ih (by rwa [hbuf])
          (fun r' hr' => hover r' ((Visited.moveNext .start heof hnext).trans hr'))
          (by rw [hbuf]; omega)
        exact ⟨_, by rw [hresult, Option.map_some]⟩

/-- For every buffer of a kind: the walk is sound exactly if it meets no wide clumplet whose size does
not fit 32 bits. -/
theorem create_sound_iff (kind : Kind) {buffer : List UInt8} (hbuffer : buffer.length < 2 ^ 32) :
    Sound (create kind buffer) ↔
      ∀ r, Visited (create kind buffer) r → r.isEof = false → ¬ r.Overflows := by
  have hcreate : (create kind buffer).buffer = buffer := rfl
  constructor
  · intro hsound r hr heof hover
    obtain ⟨dataSize, hmeasure, hlarge, hlt⟩ := measure_of_overflows hover
    obtain ⟨tag, hclumplet⟩ := getClumplet_of_measure hmeasure
    have hinside := (hsound.inside r hr heof _ hclumplet).2
    dsimp only at hinside
    rw [Nat.mod_eq_of_lt hlt, hcreate] at hinside
    omega
  · intro hover
    refine ⟨?_, fun r hr heof clumplet hclumplet => ?_, fun r hr heof r' hnext => ?_⟩
    · obtain ⟨result, hresult⟩ := iterate_ends hbuffer hover buffer.length
        (by rw [hcreate]; exact Nat.le_add_left ..)
      exact ⟨_, result, hresult⟩
    · obtain ⟨lengthSize, dataSize, hmeasure, hsize, hdata⟩ := getClumplet_eq hclumplet
      have hm := measures_of_measure hmeasure
      have hsmall : 1 + lengthSize + dataSize < 2 ^ 32 :=
        not_le.1 fun hle => hover r hr heof (hm.overflows.1 hle)
      have hfits := hm.fits
      have hstart := hm.start
      have hbuf := hr.buffer_eq
      rw [Nat.mod_eq_of_lt hsmall] at hfits
      rw [hsize, hdata, ← hbuf, Nat.mod_eq_of_lt (by omega), Nat.mod_eq_of_lt (by omega)]
      omega
    · exact (moveNext_inside (by rw [hr.buffer_eq]; exact hbuffer) heof (hover r hr heof) hnext).1

theorem smallBlock_sound : Sound (create .tagged [1, 5, 1, 9]) ↔
    ∀ r, Visited (create .tagged [1, 5, 1, 9]) r → r.isEof = false → ¬ r.Overflows :=
  create_sound_iff .tagged (by decide)

/-- A wide clumplet of 4294967291 bytes. -/
def longBlock : ClumpletReader := create .wideUnTagged [7, 0xFB, 0xFF, 0xFF, 0xFF]

/-- The walk stays at the clumplet for ever, and nothing is raised. -/
theorem longBlock_not_sound : (∀ fuel, longBlock.iterate fuel = none) ∧ ¬ Sound longBlock := by
  have hnext : longBlock.moveNext = .ok longBlock := by decide +kernel
  have hclumplet : longBlock.getClumplet = .ok ⟨7, 4294967291, 5⟩ := by decide +kernel
  have heof : longBlock.isEof = false := by decide +kernel
  refine ⟨fun fuel => ?_, fun hsound => ?_⟩
  · induction fuel with
    | zero => rfl
    | succ fuel ih =>
      rw [iterate, heof, if_neg Bool.false_ne_true, hclumplet, hnext]
      dsimp only
      rw [ih, Option.map_none]
  · exact lt_irrefl _ (hsound.advances longBlock .start heof longBlock hnext)

end ClumpletReader

end FirebirdCore.Clumplet
