import FirebirdCore.Lib.Extent
import FirebirdCore.Lib.WordOrder

/-!
# Sort keys in the form that longwords are compared in

`diddleKey` of little-endian hosts: the fields of a key are changed in place so that the longwords of a record
compare as they do, and back. The lengths of strings are stashed outside of the key meanwhile.
-/
namespace FirebirdCore.Sort
open Buffer LittleEndian WordOrder

inductive skd_dtype
  | SKD_long
  | SKD_ulong
  | SKD_short
  | SKD_ushort
  | SKD_text
  | SKD_float
  | SKD_double
  | SKD_quad
  | SKD_timestamp
  | SKD_bytes
  | SKD_varying
  | SKD_cstring
  | SKD_sql_time
  | SKD_sql_date
  | SKD_int64
  deriving DecidableEq

/-- `skd_flags` as its two bits. -/
structure sort_key_def where
  skd_dtype : skd_dtype
  SKD_descending : Bool
  SKD_binary : Bool
  skd_length : UInt16
  skd_offset : ℕ
  skd_vary_offset : ℕ

namespace sort_key_def

/-- `ROUNDUP` to longwords. -/
def roundup (key : sort_key_def) : ℕ := (key.skd_length.toNat + 3) / 4 * 4

/-- As a `USHORT`. -/
def n (key : sort_key_def) : ℕ := key.roundup % 2 ^ 16

def fill_char (key : sort_key_def) : UInt8 := if key.SKD_binary then 0 else 32

/-- The longwords of a key. -/
def full (key : sort_key_def) : Extent := ⟨key.skd_offset, key.roundup⟩

def stash (key : sort_key_def) : Extent := ⟨key.skd_vary_offset, 2⟩

end sort_key_def

/-! ## The code -/

/-- `p[i] ^= 1 << 7`. -/
def flip (p : List UInt8) (i : ℕ) : List UInt8 := p.modify i (· ^^^ 0x80)

def SWAP_LONGS (p : List UInt8) : List UInt8 := (p.drop 4).take 4 ++ p.take 4 ++ p.drop 8

def strlen (p : List UInt8) : ℕ := (p.takeWhile (· ≠ 0)).length

/-- Zero, of whatever sign, as a floating number with its highest byte at `top`. -/
def isZero (p : List UInt8) (top : ℕ) : Bool :=
  (p.take top).all (· = 0) && ((p.getD top 0) ||| 0x80) = 0x80

/-- What is done to the bytes of a field, and whether they are to be complemented. -/
def diddleField (key : sort_key_def) (direction : Bool) (p : List UInt8) : List UInt8 × Bool :=
  let complement := key.SKD_descending
  let flag := if direction || !complement then direction else true
  match key.skd_dtype with
  | .SKD_timestamp | .SKD_sql_time | .SKD_sql_date | .SKD_long => (flip p 3, complement)
  | .SKD_ulong | .SKD_ushort => (p, complement)
  | .SKD_text | .SKD_bytes | .SKD_cstring | .SKD_varying => (reverseLongs p, complement)
  | .SKD_short => (flip p 1, complement)
  | .SKD_quad => (flip p 7, complement)
  | .SKD_int64 => (if direction then SWAP_LONGS (flip p 7) else flip (SWAP_LONGS p) 7, complement)
  | .SKD_double =>
      let p := if direction then p else SWAP_LONGS p
      let flips := flag ^^ decide (128 ≤ (p.getD 7 0).toNat)
      let r := if flips then flip p 7 else p
      (if direction then SWAP_LONGS r else r, if flips then complement else !complement)
  | .SKD_float =>
      let flips := flag ^^ decide (128 ≤ (p.getD 3 0).toNat)
      (if flips then flip p 3 else p, if flips then complement else !complement)

/-- Zeros lose their sign, and the lengths of strings go to their stash, before the bytes are changed. -/
def prepareKey (key : sort_key_def) (scb_sorted : Bool) (record : List UInt8) : List UInt8 :=
  match key.skd_dtype with
  | .SKD_double =>
      if isZero (slice record ⟨key.skd_offset, 8⟩) 7 then blit record key.skd_offset (List.replicate 8 0)
      else record
  | .SKD_float =>
      if isZero (slice record ⟨key.skd_offset, 4⟩) 3 then blit record key.skd_offset (List.replicate 4 0)
      else record
  | .SKD_varying =>
      let vlen := ofBytes (slice record ⟨key.skd_offset, 2⟩)
      let filled :=
        if scb_sorted then record
        else
          let fill := (key.n + (2 ^ 17 - 2 - vlen)) % 2 ^ 16
          blit (blit record key.skd_vary_offset (toBytes 2 vlen)) (key.skd_offset + (2 + vlen))
            (List.replicate fill key.fill_char)
      blit filled (key.skd_offset + 0) [0, 0]
  | .SKD_cstring =>
      if scb_sorted then
        blit record (key.skd_offset + ofBytes (slice record key.stash)) [key.fill_char]
      else
        let l := strlen (record.drop key.skd_offset) % 2 ^ 16
        let fill := (key.n + (2 ^ 16 - l)) % 2 ^ 16
        blit (blit record key.skd_vary_offset (toBytes 2 l)) (key.skd_offset + l)
          (List.replicate fill key.fill_char)
  | _ => record

/-- The lengths of strings come back. -/
def restoreKey (key : sort_key_def) (record : List UInt8) : List UInt8 :=
  match key.skd_dtype with
  | .SKD_varying => blit record (key.skd_offset + 0) (slice record key.stash)
  | .SKD_cstring => blit record (key.skd_offset + ofBytes (slice record key.stash)) [0]
  | _ => record

def diddleOne (scb_sorted direction : Bool) (record : List UInt8) (key : sort_key_def) : List UInt8 :=
  let record := if direction then prepareKey key scb_sorted record else record
  let r := diddleField key direction (slice record ⟨key.skd_offset, key.n⟩)
  let record := blit record (key.skd_offset + 0) (if r.2 then complement r.1 else r.1)
  if direction then record else restoreKey key record

def diddleKey (m_description : List sort_key_def) (scb_sorted : Bool) (record : List UInt8) (direction : Bool) :
    List UInt8 :=
  m_description.foldl (diddleOne scb_sorted direction) record

/-! ## What keys are compared by -/

def signed (bits value : ℕ) : ℤ := if value < 2 ^ (bits - 1) then value else (value : ℤ) - 2 ^ bits

/-- The bytes of a string without a length, filled up. -/
def padded (fill : UInt8) (width : ℕ) (p : List UInt8) : List UInt8 :=
  p ++ List.replicate (width - p.length) fill

/-- The value of a field. Strings are those of its bytes, filled up to its length. -/
def sort_key_def.value (key : sort_key_def) (p : List UInt8) : List ℤ :=
  match key.skd_dtype with
  | .SKD_long | .SKD_sql_date => [signed 32 (ofBytes (p.take 4))]
  | .SKD_ulong | .SKD_sql_time => [(ofBytes (p.take 4) : ℤ)]
  | .SKD_short => [signed 16 (ofBytes (p.take 2))]
  | .SKD_ushort => [(ofBytes (p.take 2) : ℤ)]
  | .SKD_int64 => [signed 64 (ofBytes (p.take 8))]
  | .SKD_timestamp | .SKD_quad => [signed 32 (ofBytes (p.take 4)), (ofBytes ((p.drop 4).take 4) : ℤ)]
  | .SKD_text | .SKD_bytes => values (p.take key.skd_length.toNat)
  | .SKD_varying =>
      values (padded key.fill_char (key.skd_length.toNat - 2) ((p.drop 2).take (ofBytes (p.take 2))))
  | .SKD_cstring => values (padded key.fill_char key.skd_length.toNat (p.take (strlen p)))
  | .SKD_float | .SKD_double => []

/-- How many bytes of a field mean something. -/
def sort_key_def.meant (key : sort_key_def) (p : List UInt8) : ℕ :=
  match key.skd_dtype with
  | .SKD_varying => 2 + ofBytes (p.take 2)
  | .SKD_cstring => strlen p + 1
  | _ => key.roundup

/-! ## What is assumed of keys and records -/

namespace sort_key_def

/-- Strings whose length is kept besides. -/
def stashes (key : sort_key_def) : Prop := key.skd_dtype = .SKD_varying ∨ key.skd_dtype = .SKD_cstring

instance (key : sort_key_def) : Decidable key.stashes := inferInstanceAs (Decidable (_ ∨ _))

/-- Lengths are those of the types. -/
def Fits (key : sort_key_def) : Prop :=
  match key.skd_dtype with
  | .SKD_short | .SKD_ushort => key.skd_length = 2
  | .SKD_long | .SKD_ulong | .SKD_sql_time | .SKD_sql_date | .SKD_float => key.skd_length = 4
  | .SKD_quad | .SKD_timestamp | .SKD_int64 | .SKD_double => key.skd_length = 8
  | .SKD_text | .SKD_bytes => True
  | .SKD_varying => 2 ≤ key.skd_length.toNat
  | .SKD_cstring => 1 ≤ key.skd_length.toNat

/-- The bytes of a field and zeros behind them. Strings end inside of the field, and times are times of day. -/
structure Valid (key : sort_key_def) (p : List UInt8) : Prop where
  length_eq : p.length = key.roundup
  zeros : p.drop key.skd_length.toNat = List.replicate (key.roundup - key.skd_length.toNat) 0
  varying : key.skd_dtype = .SKD_varying → 2 + ofBytes (p.take 2) ≤ key.skd_length.toNat
  cstring : key.skd_dtype = .SKD_cstring → strlen p < key.skd_length.toNat
  time : key.skd_dtype = .SKD_sql_time → ofBytes (p.take 4) < 24 * 60 * 60 * 10000

end sort_key_def

/-! ## Bytes of a field -/

section Field
variable {key : sort_key_def} {p q : List UInt8}

theorem roundup_dvd (key : sort_key_def) : ∃ k, key.roundup = 4 * k := ⟨_, Nat.mul_comm _ _⟩

theorem le_roundup (key : sort_key_def) : key.skd_length.toNat ≤ key.roundup := by
  rw [sort_key_def.roundup]
  omega

theorem roundup_le (key : sort_key_def) : key.roundup ≤ 2 ^ 16 := by
  have hlt := key.skd_length.toNat_lt
  rw [sort_key_def.roundup]
  omega

/-- The length that is used is the right one, or none for the longest strings. -/
theorem n_cases (key : sort_key_def) : key.n = key.roundup ∧ key.roundup < 2 ^ 16 ∨
    key.n = 0 ∧ key.roundup = 2 ^ 16 := by
  have hle := roundup_le key
  rw [sort_key_def.n]
  omega

theorem n_le (key : sort_key_def) : key.n ≤ key.roundup := Nat.mod_le _ _

@[simp] theorem length_flip (p : List UInt8) (i : ℕ) : (flip p i).length = p.length := List.length_modify _ _ _

@[simp] theorem length_SWAP_LONGS (p : List UInt8) : (SWAP_LONGS p).length = p.length := by
  simp only [SWAP_LONGS, List.length_append, List.length_take, List.length_drop]
  omega

theorem length_diddleField (key : sort_key_def) (direction : Bool) (p : List UInt8) :
    (diddleField key direction p).1.length = p.length := by
  unfold diddleField
  cases key.skd_dtype <;> dsimp only
  case SKD_int64 | SKD_double | SKD_float => split_ifs <;> simp
  all_goals simp

theorem flip_flip (p : List UInt8) (i : ℕ) : flip (flip p i) i = p := by
  apply List.ext_getElem?
  intro j
  simp only [flip, List.getElem?_modify]
  split_ifs <;> cases p[j]? <;> simp [UInt8.xor_assoc]

theorem xor_right_comm (b c d : UInt8) : b ^^^ c ^^^ d = b ^^^ d ^^^ c := by
  rw [UInt8.xor_assoc, UInt8.xor_comm c, ← UInt8.xor_assoc]

theorem complement_flip (p : List UInt8) (i : ℕ) : complement (flip p i) = flip (complement p) i := by
  apply List.ext_getElem?
  intro j
  simp only [flip, complement, List.getElem?_map, List.getElem?_modify]
  split_ifs <;> cases p[j]? <;> simp [xor_right_comm _ 0x80]

theorem SWAP_LONGS_SWAP_LONGS (h : p.length = 8) : SWAP_LONGS (SWAP_LONGS p) = p := by
  match p, h with
  | [_, _, _, _, _, _, _, _], _ => rfl

theorem complement_SWAP_LONGS (p : List UInt8) : complement (SWAP_LONGS p) = SWAP_LONGS (complement p) := by
  simp only [complement, SWAP_LONGS, List.map_append, List.map_take, List.map_drop]

/-- The bytes that a field is changed to, without the stash. -/
def change (key : sort_key_def) (direction : Bool) (p : List UInt8) : List UInt8 :=
  let r := diddleField key direction p
  if r.2 then complement r.1 else r.1

theorem length_change (key : sort_key_def) (direction : Bool) (p : List UInt8) :
    (change key direction p).length = p.length := by
  rw [change]
  split_ifs
  · rw [length_complement, length_diddleField]
  · exact length_diddleField key direction p

/-- Changing the bytes of a field back. -/
theorem change_change (hfloat : key.skd_dtype ≠ .SKD_float ∧ key.skd_dtype ≠ .SKD_double) {k : ℕ}
    (hp : p.length = 4 * k) (height : key.skd_dtype = .SKD_int64 → p.length = 8) :
    change key false (change key true p) = p := by
  have hcomplement (f : List UInt8 → List UInt8) (hf : ∀ p, complement (f p) = f (complement p)) (p : List UInt8) :
      (if key.SKD_descending then complement (f (if key.SKD_descending then complement p else p))
        else f (if key.SKD_descending then complement p else p)) = f p := by
    split_ifs
    · rw [hf, complement_complement]
    · rfl
  unfold change diddleField
  cases hdtype : key.skd_dtype <;> dsimp only
  case SKD_timestamp | SKD_sql_time | SKD_sql_date | SKD_long | SKD_short | SKD_quad =>
    rw [hcomplement _ fun p => complement_flip p _, flip_flip]
  case SKD_ulong | SKD_ushort => exact hcomplement id (fun _ => rfl) p
  case SKD_float => exact absurd hdtype hfloat.1
  case SKD_double => exact absurd hdtype hfloat.2
  case SKD_text | SKD_bytes | SKD_cstring | SKD_varying =>
    rw [hcomplement _ complement_reverseLongs, reverseLongs_reverseLongs hp]
  case SKD_int64 =>
    have hflip : (flip p 7).length = 8 := (length_flip p 7).trans (height hdtype)
    have hswap := hcomplement (fun p => flip (SWAP_LONGS p) 7) (fun p => by
      rw [complement_flip, complement_SWAP_LONGS]) (SWAP_LONGS (flip p 7))
    rw [SWAP_LONGS_SWAP_LONGS hflip, flip_flip] at hswap
    exact hswap

end Field

/-! ## One key of a record -/

/-- Where a field and its stash are. -/
structure sort_key_def.Room (key : sort_key_def) (size : ℕ) : Prop where
  full : key.full.finish ≤ size
  stash : key.stashes → key.stash.finish ≤ size
  apart : key.stashes → key.full.Apart key.stash

/-- A record of which just a field and its stash have been changed, to what is given. -/
structure Changed (key : sort_key_def) (r r' p st : List UInt8) : Prop where
  length_eq : r'.length = r.length
  field : slice r' key.full = p
  stash : key.stashes → slice r' key.stash = st
  apart : ∀ e : Extent, e.Apart key.full → (key.stashes → e.Apart key.stash) → slice r' e = slice r e

namespace Changed
variable {key : sort_key_def} {r r' p st : List UInt8}

theorem refl (key : sort_key_def) (r : List UInt8) :
    Changed key r r (slice r key.full) (slice r key.stash) where
  length_eq := rfl
  field := rfl
  stash := fun _ => rfl
  apart := fun _ _ _ => rfl

/-- Writing inside of the field. -/
theorem write (h : Changed key r r' p st) (hroom : key.Room r.length) (offset : ℕ) (src : List UInt8)
    (hsrc : offset + src.length ≤ key.roundup) :
    Changed key r (blit r' (key.skd_offset + offset) src) (blit p offset src) st := by
  have hfull : key.full.finish ≤ r'.length := h.length_eq ▸ hroom.full
  have hfits : key.skd_offset + offset + src.length ≤ r'.length := by
    simp only [Extent.finish, sort_key_def.full] at hfull
    omega
  constructor
  · exact (blit_length hfits).trans h.length_eq
  · exact (slice_blit_inside hfull hsrc).trans (congrArg (blit · offset src) h.field)
  · intro hstashes
    have hapart := hroom.apart hstashes
    rw [slice_blit_apart hfits, h.stash hstashes]
    simp only [Extent.Apart, Extent.finish, sort_key_def.full] at hapart ⊢
    omega
  · intro e hfield hstash
    rw [slice_blit_apart hfits, h.apart e hfield hstash]
    simp only [Extent.Apart, Extent.finish, sort_key_def.full] at hfield ⊢
    omega

/-- Writing the stash. -/
theorem keep (h : Changed key r r' p st) (hroom : key.Room r.length) (hstashes : key.stashes) {src : List UInt8}
    (hsrc : src.length = 2) : Changed key r (blit r' key.skd_vary_offset src) p src := by
  have hfits : key.skd_vary_offset + src.length ≤ r'.length := by
    rw [hsrc, h.length_eq]
    exact hroom.stash hstashes
  have hstash : key.stash = ⟨key.skd_vary_offset, src.length⟩ := by rw [hsrc, sort_key_def.stash]
  constructor
  · exact (blit_length hfits).trans h.length_eq
  · have hapart := hroom.apart hstashes
    rw [hstash] at hapart
    exact (slice_blit_apart hfits hapart).trans h.field
  · intro _
    rw [hstash]
    exact slice_blit_self _ _ _
  · intro e hfield hkept
    have hapart := hkept hstashes
    rw [hstash] at hapart
    exact (slice_blit_apart hfits hapart).trans (h.apart e hfield hkept)

end Changed

/-- The length that is stashed. -/
def sort_key_def.stringLength (key : sort_key_def) (p : List UInt8) : ℕ :=
  if key.skd_dtype = .SKD_varying then ofBytes (p.take 2) else strlen p

/-- The bytes of a field when the length has been stashed. -/
def prepared (key : sort_key_def) (p : List UInt8) : List UInt8 :=
  match key.skd_dtype with
  | .SKD_varying =>
      0 :: 0 :: padded key.fill_char (key.roundup - 2) ((p.drop 2).take (ofBytes (p.take 2)))
  | .SKD_cstring => blit p (strlen p) (List.replicate ((key.n + (2 ^ 16 - strlen p)) % 2 ^ 16) key.fill_char)
  | _ => p

def restored (key : sort_key_def) (p st : List UInt8) : List UInt8 :=
  match key.skd_dtype with
  | .SKD_varying => blit p 0 st
  | .SKD_cstring => blit p (ofBytes st) [0]
  | _ => p

/-- The bytes that are read as longwords. -/
def changed (key : sort_key_def) (direction : Bool) (p : List UInt8) : List UInt8 :=
  blit p 0 (change key direction (p.take key.n))

section Key
variable {key : sort_key_def} {r r' p st : List UInt8}

theorem slice_take (r : List UInt8) {start size m : ℕ} (h : m ≤ size) :
    slice r ⟨start, m⟩ = (slice r ⟨start, size⟩).take m := by
  rw [slice, slice, List.take_take, Nat.min_eq_left h]

/-- What is done between the two steps that are for strings. -/
theorem Changed.change (h : Changed key r r' p st) (hroom : key.Room r.length) (direction : Bool) :
    Changed key r (blit r' (key.skd_offset + 0) (if (diddleField key direction (slice r' ⟨key.skd_offset, key.n⟩)).2
      then complement (diddleField key direction (slice r' ⟨key.skd_offset, key.n⟩)).1
      else (diddleField key direction (slice r' ⟨key.skd_offset, key.n⟩)).1)) (changed key direction p) st := by
  have hslice : slice r' ⟨key.skd_offset, key.n⟩ = p.take key.n := by
    rw [slice_take r' (n_le key)]
    exact congrArg (List.take key.n) h.field
  rw [hslice]
  apply h.write hroom 0 (FirebirdCore.Sort.change key direction (p.take key.n))
  rw [length_change, List.length_take]
  have hle := n_le key
  omega

theorem strlen_lt_of_take {p : List UInt8} {m : ℕ} (h : strlen (p.take m) < m) :
    strlen p = strlen (p.take m) := by
  induction p generalizing m with
  | nil => rw [List.take_nil]
  | cons c p ih =>
    cases m with
    | zero => omega
    | succ m =>
      rw [List.take_succ_cons] at h ⊢
      by_cases hzero : c = 0
      · simp [strlen, hzero]
      · have hcons (q : List UInt8) : strlen (c :: q) = strlen q + 1 := by simp [strlen, hzero]
        rw [hcons] at h
        rw [hcons, hcons, ih (Nat.lt_of_succ_lt_succ h)]

theorem blit_replicate_end {p : List UInt8} {l : ℕ} (hl : l ≤ p.length) (c : UInt8) :
    blit p l (List.replicate (p.length - l) c) = p.take l ++ List.replicate (p.length - l) c := by
  rw [blit, List.takeD_eq_take _ hl, List.drop_eq_nil_of_le (by rw [List.length_replicate]; omega),
    List.append_nil]

/-- The bytes of a string of counted length when it has been filled up and its count is zero. -/
theorem blit_prepared {vlen : ℕ} (hvlen : 2 + vlen ≤ p.length) (c : UInt8) :
    blit (blit p (2 + vlen) (List.replicate (p.length - (2 + vlen)) c)) 0 [0, 0] =
      0 :: 0 :: padded c (p.length - 2) ((p.drop 2).take vlen) := by
  have hlen : ((p.drop 2).take vlen).length = vlen := by
    rw [List.length_take, List.length_drop]
    omega
  have htwo : (p.take 2).length = 2 := List.length_take_of_le (by omega)
  rw [blit_replicate_end hvlen, List.take_add, blit, List.takeD_zero, List.nil_append, List.append_assoc,
    List.length_cons, List.length_singleton, List.drop_left' htwo, padded, hlen, Nat.sub_sub]
  rfl

theorem prepareKey_spec (hroom : key.Room r.length)
    (hfloat : key.skd_dtype ≠ .SKD_float ∧ key.skd_dtype ≠ .SKD_double) (hvalid : key.Valid (slice r key.full)) :
    Changed key r (prepareKey key false r) (prepared key (slice r key.full))
      (if key.stashes then toBytes 2 (key.stringLength (slice r key.full)) else slice r key.stash) := by
  have hlen := hvalid.length_eq
  have hle := le_roundup key
  have hmax := roundup_le key
  have hsmall := key.skd_length.toNat_lt
  unfold prepareKey prepared
  cases hdtype : key.skd_dtype <;> dsimp only
  case SKD_float => exact absurd hdtype hfloat.1
  case SKD_double => exact absurd hdtype hfloat.2
  case SKD_varying =>
    have hstashes : key.stashes := .inl hdtype
    have hvlen := hvalid.varying hdtype
    have htwo : slice r ⟨key.skd_offset, 2⟩ = (slice r key.full).take 2 := slice_take r (by omega)
    have hfill : (key.n + (2 ^ 17 - 2 - ofBytes ((slice r key.full).take 2))) % 2 ^ 16 =
        (slice r key.full).length - (2 + ofBytes ((slice r key.full).take 2)) := by
      rw [hlen]
      rcases n_cases key with ⟨hn, hlt⟩ | ⟨hn, hwrapped⟩ <;> omega
    rw [if_pos hstashes, sort_key_def.stringLength, if_pos hdtype, htwo, hfill]
    have hstash := (Changed.refl key r).keep hroom hstashes
      (length_toBytes 2 (ofBytes ((slice r key.full).take 2)))
    have hfilled := hstash.write hroom (2 + ofBytes ((slice r key.full).take 2))
      (List.replicate ((slice r key.full).length - (2 + ofBytes ((slice r key.full).take 2))) key.fill_char) (by
        rw [List.length_replicate]
        omega)
    have hzeroed := hfilled.write hroom 0 [0, 0] (by
      rw [List.length_cons, List.length_singleton]
      omega)
    rw [blit_prepared (by omega), hlen] at hzeroed
    rw [hlen]
    exact hzeroed
  case SKD_cstring =>
    have hstashes : key.stashes := .inr hdtype
    have hl := hvalid.cstring hdtype
    have hstrlen : strlen (r.drop key.skd_offset) % 2 ^ 16 = strlen (slice r key.full) := by
      have hsame : strlen (r.drop key.skd_offset) = strlen (slice r key.full) :=
        strlen_lt_of_take (hl.trans_le hle)
      rw [hsame]
      exact Nat.mod_eq_of_lt (hl.trans hsmall)
    have hstash := (Changed.refl key r).keep hroom hstashes (length_toBytes 2 (strlen (slice r key.full)))
    rw [if_neg Bool.false_ne_true, if_pos hstashes, sort_key_def.stringLength, if_neg (by rw [hdtype]; decide),
      hstrlen]
    apply hstash.write hroom
    rw [List.length_replicate]
    rcases n_cases key with ⟨hn, hlt⟩ | ⟨hn, hwrapped⟩ <;> omega
  all_goals
    rw [if_neg]
    · exact .refl key r
    · intro hstashes
      rcases hstashes with h | h <;> rw [hdtype] at h <;> cases h

theorem diddleOne_put (hroom : key.Room r.length)
    (hfloat : key.skd_dtype ≠ .SKD_float ∧ key.skd_dtype ≠ .SKD_double) (hvalid : key.Valid (slice r key.full)) :
    Changed key r (diddleOne false true r key) (changed key true (prepared key (slice r key.full)))
      (if key.stashes then toBytes 2 (key.stringLength (slice r key.full)) else slice r key.stash) :=
  (prepareKey_spec hroom hfloat hvalid).change hroom true

theorem diddleOne_get (scb_sorted : Bool) (hroom : key.Room r.length)
    (hstash : key.skd_dtype = .SKD_cstring → ofBytes (slice r key.stash) < key.roundup)
    (hvarying : key.skd_dtype = .SKD_varying → 2 ≤ key.roundup) :
    Changed key r (diddleOne scb_sorted false r key)
      (restored key (changed key false (slice r key.full)) (slice r key.stash)) (slice r key.stash) := by
  have hchanged := (Changed.refl key r).change hroom false
  unfold diddleOne
  rw [if_neg Bool.false_ne_true, if_neg Bool.false_ne_true]
  unfold restoreKey restored
  cases hdtype : key.skd_dtype <;> dsimp only
  case SKD_varying =>
    have hsame := hchanged.stash (.inl hdtype)
    rw [hsame]
    apply hchanged.write hroom
    have hlen := slice_length (hroom.stash (.inl hdtype))
    rw [sort_key_def.stash] at hlen ⊢
    rw [hlen]
    exact (hvarying hdtype)
  case SKD_cstring =>
    have hsame := hchanged.stash (.inr hdtype)
    rw [hsame]
    apply hchanged.write hroom
    exact hstash hdtype
  all_goals exact hchanged

end Key

/-! ## Back to what it was -/

section Restored
variable {key : sort_key_def} {p : List UInt8}

theorem changed_of_n (hlen : p.length = key.roundup) (hn : key.n = key.roundup) (direction : Bool) :
    changed key direction p = change key direction p := by
  have hsame : (change key direction p).length = p.length := length_change key direction p
  rw [changed, hn, List.take_of_length_le hlen.le, blit, List.takeD_zero, List.nil_append, Nat.zero_add,
    List.drop_eq_nil_of_le hsame.ge, List.append_nil]

/-- The longest strings are left as they are. -/
theorem changed_of_wrapped (hn : key.n = 0) (direction : Bool) : changed key direction p = p := by
  have hnil : change key direction (p.take key.n) = [] := by
    apply List.length_eq_zero_iff.1
    rw [length_change, hn]
    rfl
  rw [changed, hnil]
  exact blit_nil (Nat.zero_le _)

theorem roundup_of_int64 (hfits : key.Fits) (hdtype : key.skd_dtype = .SKD_int64) : key.roundup = 8 := by
  unfold sort_key_def.Fits at hfits
  rw [hdtype] at hfits
  rw [sort_key_def.roundup, hfits]
  rfl

theorem changed_changed (hfits : key.Fits) (hfloat : key.skd_dtype ≠ .SKD_float ∧ key.skd_dtype ≠ .SKD_double)
    (hlen : p.length = key.roundup) : changed key false (changed key true p) = p := by
  rcases n_cases key with ⟨hn, -⟩ | ⟨hn, -⟩
  · obtain ⟨k, hk⟩ := roundup_dvd key
    rw [changed_of_n hlen hn, changed_of_n ((length_change key true p).trans hlen) hn]
    exact change_change hfloat (hlen.trans hk) fun hdtype => hlen.trans (roundup_of_int64 hfits hdtype)
  · rw [changed_of_wrapped hn, changed_of_wrapped hn]

theorem toBytes_ofBytes_two (h : p.length = 2) : toBytes 2 (ofBytes p) = p := by
  match p, h with
  | [a, b], _ =>
    have ha := a.toNat_lt
    have hb := b.toNat_lt
    have hlow : a.toNat + 256 * (b.toNat + 256 * 0) = a.toNat + 256 * b.toNat := by omega
    have hupper : (a.toNat + 256 * b.toNat) / 256 = b.toNat := by omega
    have hfirst : UInt8.ofNat (a.toNat + 256 * b.toNat) = a := by
      apply UInt8.toNat_inj.1
      rw [UInt8.toNat_ofNat']
      omega
    simp only [ofBytes, toBytes, hlow, hupper, hfirst, UInt8.ofNat_toNat]

theorem length_prepared (hvalid : key.Valid p) : (prepared key p).length = key.roundup := by
  have hlen := hvalid.length_eq
  have hle := le_roundup key
  unfold prepared
  cases hdtype : key.skd_dtype <;> dsimp only
  case SKD_varying =>
    have hvlen := hvalid.varying hdtype
    simp only [padded, List.length_cons, List.length_append, List.length_replicate, List.length_take,
      List.length_drop]
    omega
  case SKD_cstring =>
    have hl := hvalid.cstring hdtype
    rw [blit_length, hlen]
    rw [List.length_replicate, hlen]
    rcases n_cases key with ⟨hn, hlt⟩ | ⟨hn, hwrapped⟩ <;> omega
  all_goals exact hlen

/-- The byte behind a string is zero. -/
theorem take_strlen {p : List UInt8} (h : strlen p < p.length) : p.take (strlen p + 1) = p.take (strlen p) ++ [0] := by
  induction p with
  | nil => cases h
  | cons c p ih =>
    by_cases hzero : c = 0
    · simp [strlen, hzero]
    · have hcons : strlen (c :: p) = strlen p + 1 := by simp [strlen, hzero]
      rw [hcons, List.length_cons] at h
      rw [hcons, List.take_succ_cons, List.take_succ_cons, ih (by omega), List.cons_append]

theorem restored_of_not_stashes (h : ¬ key.stashes) (p st : List UInt8) : restored key p st = p := by
  unfold restored
  cases hdtype : key.skd_dtype <;> dsimp only
  case SKD_varying => exact absurd (.inl hdtype) h
  case SKD_cstring => exact absurd (.inr hdtype) h

theorem sort_key_def.Valid.stringLength_lt (hvalid : key.Valid p) (hstashes : key.stashes) :
    key.stringLength p < 2 ^ 16 := by
  have hsmall := key.skd_length.toNat_lt
  rw [sort_key_def.stringLength]
  split_ifs with hdtype
  · have hvlen := hvalid.varying hdtype
    omega
  · have hl := hvalid.cstring (hstashes.resolve_left hdtype)
    omega

/-- What means something is there again. -/
theorem take_restored (hvalid : key.Valid p) :
    (restored key (prepared key p) (toBytes 2 (key.stringLength p))).take (key.meant p) = p.take (key.meant p) := by
  have hlen := hvalid.length_eq
  have hle := le_roundup key
  unfold restored prepared sort_key_def.meant
  cases hdtype : key.skd_dtype <;> dsimp only
  case SKD_varying =>
    have hvlen := hvalid.varying hdtype
    have htwo : (p.take 2).length = 2 := List.length_take_of_le (by omega)
    have hchars : ((p.drop 2).take (ofBytes (p.take 2))).length = ofBytes (p.take 2) := by
      rw [List.length_take, List.length_drop]
      omega
    rw [sort_key_def.stringLength, if_pos hdtype, toBytes_ofBytes_two htwo, blit, List.takeD_zero, List.nil_append,
      Nat.zero_add, htwo, List.drop_succ_cons, List.drop_succ_cons, List.drop_zero, padded, List.take_add,
      List.take_left' htwo, List.drop_left' htwo, List.take_left' hchars, List.take_add]
  case SKD_cstring =>
    have hl := hvalid.cstring hdtype
    have hlp : strlen p < p.length := by omega
    have hstring := hvalid.stringLength_lt (.inr hdtype)
    rw [sort_key_def.stringLength, if_neg (by rw [hdtype]; decide)] at hstring ⊢
    rw [ofBytes_toBytes (by omega), take_strlen hlp]
    have hfront : p.take (strlen p) ++ [0] <+:
        blit (blit p (strlen p) (List.replicate ((key.n + (2 ^ 16 - strlen p)) % 2 ^ 16) key.fill_char)) (strlen p)
          [0] := by
      have hsrc : p.take (strlen p) ++ List.replicate ((key.n + (2 ^ 16 - strlen p)) % 2 ^ 16) key.fill_char <+:
          blit p (strlen p) (List.replicate ((key.n + (2 ^ 16 - strlen p)) % 2 ^ 16) key.fill_char) :=
        blit_front List.prefix_rfl hlp.le _
      have htake : (p.take (strlen p)).length = strlen p := List.length_take_of_le hlp.le
      have hboth := blit_front hsrc (by rw [List.length_append, htake]; exact Nat.le_add_right _ _ :
        strlen p ≤ (p.take (strlen p) ++ List.replicate _ key.fill_char).length) [0]
      rwa [List.take_left' htake] at hboth
    have hsucc : (p.take (strlen p) ++ [0]).length = strlen p + 1 := by
      rw [List.length_append, List.length_take_of_le hlp.le, List.length_singleton]
    rw [← hsucc]
    exact take_of_front hfront

end Restored

/-! ## All keys of a record -/

/-- Two keys that have nothing in common. -/
structure Separate (a b : sort_key_def) : Prop where
  full : b.full.Apart a.full
  left : a.stashes → b.full.Apart a.stash
  right : b.stashes → b.stash.Apart a.full
  stash : a.stashes → b.stashes → b.stash.Apart a.stash

theorem Separate.symm {a b : sort_key_def} (h : Separate a b) : Separate b a where
  full := h.full.symm
  left := fun hb => (h.right hb).symm
  right := fun ha => (h.left ha).symm
  stash := fun hb ha => (h.stash ha hb).symm

/-- A range that no key has. -/
def Outside (keys : List sort_key_def) (e : Extent) : Prop :=
  ∀ key ∈ keys, e.Apart key.full ∧ (key.stashes → e.Apart key.stash)

section Keys
variable {keys : List sort_key_def} {f : List UInt8 → sort_key_def → List UInt8} {r : List UInt8}
  {P S : sort_key_def → List UInt8}

/-- Keys are dealt with one after the other, each as if it were alone. -/
theorem foldl_changed (hsep : keys.Pairwise Separate)
    (hstep : ∀ key ∈ keys, ∀ r', r'.length = r.length → slice r' key.full = slice r key.full →
      (key.stashes → slice r' key.stash = slice r key.stash) → Changed key r' (f r' key) (P key) (S key)) :
    (keys.foldl f r).length = r.length ∧
      (∀ key ∈ keys, slice (keys.foldl f r) key.full = P key ∧
        (key.stashes → slice (keys.foldl f r) key.stash = S key)) ∧
      ∀ e, Outside keys e → slice (keys.foldl f r) e = slice r e := by
  induction keys generalizing r with
  | nil => exact ⟨rfl, fun _ hmem => absurd hmem List.not_mem_nil, fun _ _ => rfl⟩
  | cons key keys ih =>
    obtain ⟨hkey, hkeys⟩ := List.pairwise_cons.1 hsep
    have hfirst := hstep key List.mem_cons_self r rfl rfl fun _ => rfl
    have hnext : ∀ other ∈ keys, ∀ r', r'.length = (f r key).length →
        slice r' other.full = slice (f r key) other.full →
        (other.stashes → slice r' other.stash = slice (f r key) other.stash) →
          Changed other r' (f r' other) (P other) (S other) := by
      intro other hother r' hlen hfield hstash
      have hapart := hkey other hother
      apply hstep other (List.mem_cons_of_mem key hother) r' (hlen.trans hfirst.length_eq)
      · rw [hfield, hfirst.apart _ hapart.full hapart.left]
      · intro hstashes
        rw [hstash hstashes, hfirst.apart _ (hapart.right hstashes) fun hkey => hapart.stash hkey hstashes]
    obtain ⟨hlen, hdone, hframe⟩ := ih hkeys hnext
    rw [List.foldl_cons]
    refine ⟨hlen.trans hfirst.length_eq, ?_, ?_⟩
    · intro other hother
      rcases List.mem_cons.1 hother with rfl | hother
      · constructor
        · rw [hframe, hfirst.field]
          exact fun later hlater => ⟨(hkey later hlater).full.symm, fun h => ((hkey later hlater).right h).symm⟩
        · intro hstashes
          rw [hframe, hfirst.stash hstashes]
          exact fun later hlater =>
            ⟨((hkey later hlater).left hstashes).symm, fun h => ((hkey later hlater).stash hstashes h).symm⟩
      · exact hdone other hother
    · intro e houtside
      have hapart := houtside key List.mem_cons_self
      rw [hframe e fun later hlater => houtside later (List.mem_cons_of_mem key hlater),
        hfirst.apart e hapart.1 hapart.2]

end Keys

/-- Keys in the order of their fields, which begin at longwords. Their part of a record ends with whole longwords,
and lengths are stashed behind it. -/
structure Description where
  m_description : List sort_key_def
  m_key_length : ℕ
  size : ℕ
  fits : ∀ key ∈ m_description, key.Fits
  nonfloating : ∀ key ∈ m_description, key.skd_dtype ≠ .SKD_float ∧ key.skd_dtype ≠ .SKD_double
  aligned : ∀ key ∈ m_description, 4 ∣ key.skd_offset
  ascending : m_description.Pairwise fun a b => a.full.finish ≤ b.skd_offset
  inside : ∀ key ∈ m_description, key.full.finish ≤ 4 * m_key_length
  key_length_le : 4 * m_key_length ≤ size
  behind : ∀ key ∈ m_description, key.stashes → 4 * m_key_length ≤ key.skd_vary_offset
  stash_le : ∀ key ∈ m_description, key.stashes → key.stash.finish ≤ size
  stash_apart : m_description.Pairwise fun a b => a.stashes → b.stashes → b.stash.Apart a.stash

namespace Description
variable (d : Description)

/-- The keys' part of a record. -/
def area : Extent := ⟨0, 4 * d.m_key_length⟩

/-- Records with valid fields and zeros between them. -/
structure Record (r : List UInt8) : Prop where
  length_eq : r.length = d.size
  valid : ∀ key ∈ d.m_description, key.Valid (slice r key.full)
  zeros : ∀ i < 4 * d.m_key_length, (∀ key ∈ d.m_description, ¬ (key.skd_offset ≤ i ∧ i < key.full.finish)) →
    r[i]? = some 0

theorem room {key : sort_key_def} (hkey : key ∈ d.m_description) : key.Room d.size where
  full := (d.inside key hkey).trans d.key_length_le
  stash := d.stash_le key hkey
  apart := fun hstashes => .inl ((d.inside key hkey).trans (d.behind key hkey hstashes))

theorem separate : d.m_description.Pairwise Separate := by
  have hboth := d.ascending.and d.stash_apart
  apply hboth.imp_of_mem
  intro a b ha hb h
  constructor
  · exact .inr h.1
  · exact fun hstashes => .inl ((d.inside b hb).trans (d.behind a ha hstashes))
  · exact fun hstashes => .inr ((d.inside a ha).trans (d.behind b hb hstashes))
  · exact h.2

/-- What a key's field and stash are changed to when a record is put. -/
def encoded (key : sort_key_def) (p : List UInt8) : List UInt8 := changed key true (prepared key p)

variable {d} {r : List UInt8}

theorem put_spec (hr : d.Record r) :
    (diddleKey d.m_description false r true).length = r.length ∧
      (∀ key ∈ d.m_description,
        slice (diddleKey d.m_description false r true) key.full = encoded key (slice r key.full) ∧
          (key.stashes → slice (diddleKey d.m_description false r true) key.stash =
            toBytes 2 (key.stringLength (slice r key.full)))) ∧
      ∀ e, Outside d.m_description e → slice (diddleKey d.m_description false r true) e = slice r e := by
  apply foldl_changed d.separate
  intro key hkey r' hlen hfield hstash
  have hvalid := hr.valid key hkey
  rw [← hfield] at hvalid
  have hroom := d.room hkey
  rw [← hr.length_eq, ← hlen] at hroom
  have hput := diddleOne_put hroom (d.nonfloating key hkey) hvalid
  rw [hfield] at hput
  exact ⟨hput.length_eq, hput.field, fun hstashes => (hput.stash hstashes).trans (if_pos hstashes), hput.apart⟩

/-- Everything that means something is got back. -/
theorem get_spec (hr : d.Record r) (scb_sorted : Bool) {r' : List UInt8}
    (hr' : r' = diddleKey d.m_description scb_sorted (diddleKey d.m_description false r true) false) :
    r'.length = r.length ∧
      (∀ key ∈ d.m_description, (slice r' key.full).take (key.meant (slice r key.full)) =
        (slice r key.full).take (key.meant (slice r key.full))) ∧
      ∀ e, Outside d.m_description e → slice r' e = slice r e := by
  obtain ⟨hlen, hfields, hframe⟩ := put_spec hr
  have hget : ∀ key ∈ d.m_description, ∀ r₁, r₁.length = (diddleKey d.m_description false r true).length →
      slice r₁ key.full = slice (diddleKey d.m_description false r true) key.full →
      (key.stashes → slice r₁ key.stash = slice (diddleKey d.m_description false r true) key.stash) →
        Changed key r₁ (diddleOne scb_sorted false r₁ key)
          (restored key (prepared key (slice r key.full)) (toBytes 2 (key.stringLength (slice r key.full))))
          (toBytes 2 (key.stringLength (slice r key.full))) := by
    intro key hkey r₁ hlen₁ hfield₁ hstash₁
    obtain ⟨hfield, hstash⟩ := hfields key hkey
    have hvalid := hr.valid key hkey
    have hroom := d.room hkey
    have hprepared := length_prepared hvalid
    have hback : changed key false (slice r₁ key.full) = prepared key (slice r key.full) := by
      rw [hfield₁, hfield, encoded, changed_changed (d.fits key hkey) (d.nonfloating key hkey) hprepared]
    rw [← hr.length_eq, ← hlen, ← hlen₁] at hroom
    have hone := diddleOne_get scb_sorted hroom (fun hdtype => ?_) fun hdtype => ?_
    · rw [hback] at hone
      by_cases hstashes : key.stashes
      · rw [hstash₁ hstashes, hstash hstashes] at hone
        exact hone
      · rw [restored_of_not_stashes hstashes] at hone
        rw [restored_of_not_stashes hstashes]
        exact ⟨hone.length_eq, hone.field, fun h => absurd h hstashes, hone.apart⟩
    · have hstrlen := hvalid.stringLength_lt (.inr hdtype)
      rw [hstash₁ (.inr hdtype), hstash (.inr hdtype), ofBytes_toBytes (by omega), sort_key_def.stringLength,
        if_neg (by rw [hdtype]; decide)]
      exact (hvalid.cstring hdtype).trans_le (le_roundup key)
    · have hlength := hvalid.varying hdtype
      have hle := le_roundup key
      omega
  obtain ⟨hlen', hfields', hframe'⟩ := foldl_changed d.separate hget
  rw [hr']
  refine ⟨hlen'.trans hlen, fun key hkey => ?_, fun e he => (hframe' e he).trans (hframe e he)⟩
  have hvalid := hr.valid key hkey
  exact (congrArg (List.take _) (hfields' key hkey).1).trans (take_restored hvalid)

end Description

end FirebirdCore.Sort
