import FirebirdCore.Intl.UnicodeUtil
import FirebirdCore.Lib.Transcode

/-!
# UTF-8, UTF-16 and UTF-32

The encodings as the conversions read and write them. They read more than the checks let pass:
`utf16ToUtf32` takes a trail unit that stands alone for a character, and `utf32ToUtf16` any number up to
the last character.
-/
namespace FirebirdCore.Intl
open FirebirdCore.Transcode

/-! ## UTF-16 -/

theorem lead_bounds {c : ℕ} (h : UTF_IS_LEAD c) : 0xD800 ≤ c ∧ c ≤ 0xDBFF := h

theorem trail_bounds {c : ℕ} (h : UTF_IS_TRAIL c) : 0xDC00 ≤ c ∧ c ≤ 0xDFFF := h

theorem surrogate_iff (c : ℕ) : UTF_IS_SURROGATE c ↔ UTF_IS_LEAD c ∨ UTF_IS_TRAIL c := by
  rw [UTF_IS_SURROGATE, UTF_IS_LEAD, UTF_IS_TRAIL]
  omega

/-- A supplementary character is a pair of units. -/
theorem pair_spec {c : ℕ} (hlow : 0x10000 ≤ c) (hhigh : c ≤ 0x10FFFF) :
    UTF_IS_LEAD (UTF16_LEAD c).toNat ∧ UTF_IS_TRAIL (UTF16_TRAIL c).toNat ∧
      UTF16_GET_PAIR_VALUE (UTF16_LEAD c).toNat (UTF16_TRAIL c).toNat = c := by
  have hlead : (UTF16_LEAD c).toNat = 0xD800 + (c - 0x10000) / 0x400 := by
    rw [UTF16_LEAD, UInt16.toNat_ofNat', Nat.mod_eq_of_lt (by omega)]
  have htrail : (UTF16_TRAIL c).toNat = 0xDC00 + c % 0x400 := by
    rw [UTF16_TRAIL, UInt16.toNat_ofNat', Nat.mod_eq_of_lt (by omega)]
  rw [hlead, htrail]
  unfold UTF_IS_LEAD UTF_IS_TRAIL UTF16_GET_PAIR_VALUE
  omega

/-- The pair of a lead and a trail unit is a supplementary character. -/
theorem pair_value {first second : UInt16} (hfirst : UTF_IS_LEAD first.toNat)
    (hsecond : UTF_IS_TRAIL second.toNat) :
    0x10000 ≤ UTF16_GET_PAIR_VALUE first.toNat second.toNat ∧
      UTF16_GET_PAIR_VALUE first.toNat second.toNat ≤ 0x10FFFF ∧
      UTF16_LEAD (UTF16_GET_PAIR_VALUE first.toNat second.toNat) = first ∧
      UTF16_TRAIL (UTF16_GET_PAIR_VALUE first.toNat second.toNat) = second := by
  obtain ⟨hlow, hhigh⟩ := lead_bounds hfirst
  obtain ⟨hlow', hhigh'⟩ := trail_bounds hsecond
  have hlead : 0xD800 + (UTF16_GET_PAIR_VALUE first.toNat second.toNat - 0x10000) / 0x400 = first.toNat := by
    unfold UTF16_GET_PAIR_VALUE
    omega
  have htrail : 0xDC00 + UTF16_GET_PAIR_VALUE first.toNat second.toNat % 0x400 = second.toNat := by
    unfold UTF16_GET_PAIR_VALUE
    omega
  refine ⟨?_, ?_, ?_, ?_⟩
  · unfold UTF16_GET_PAIR_VALUE
    omega
  · unfold UTF16_GET_PAIR_VALUE
    omega
  · rw [UTF16_LEAD, hlead, UInt16.ofNat_toNat]
  · rw [UTF16_TRAIL, htrail, UInt16.ofNat_toNat]

def utf16Encode (c : ℕ) : List UInt16 := if c ≤ 0xFFFF then [.ofNat c] else [UTF16_LEAD c, UTF16_TRAIL c]

/-- Characters of which no unit is a surrogate that stands alone, but for trail units if `loneTrails`. -/
def Utf16Char (loneTrails : Bool) (c : ℕ) : Prop :=
  c ≤ 0x10FFFF ∧ ¬ UTF_IS_LEAD c ∧ (UTF_IS_TRAIL c → loneTrails = true)

def utf16Decode (loneTrails : Bool) : List UInt16 → Option (ℕ × List UInt16)
  | [] => none
  | c :: s =>
      if UTF_IS_LEAD c.toNat then
        match s with
        | c2 :: s => if UTF_IS_TRAIL c2.toNat then some (UTF16_GET_PAIR_VALUE c.toNat c2.toNat, s) else none
        | [] => none
      else if UTF_IS_TRAIL c.toNat → loneTrails = true then some (c.toNat, s)
      else none

theorem utf16Decode_cons (loneTrails : Bool) (c : UInt16) (s : List UInt16) :
    utf16Decode loneTrails (c :: s) =
      if UTF_IS_LEAD c.toNat then
        match s with
        | c2 :: s => if UTF_IS_TRAIL c2.toNat then some (UTF16_GET_PAIR_VALUE c.toNat c2.toNat, s) else none
        | [] => none
      else if UTF_IS_TRAIL c.toNat → loneTrails = true then some (c.toNat, s)
      else none := by
  cases s <;> rfl

theorem utf16Decode_encode {loneTrails : Bool} {c : ℕ} (hc : Utf16Char loneTrails c) (s : List UInt16) :
    utf16Decode loneTrails (utf16Encode c ++ s) = some (c, s) := by
  obtain ⟨hhigh, hlead, htrail⟩ := hc
  rw [utf16Encode]
  by_cases hlow : c ≤ 0xFFFF
  · have hunit : (UInt16.ofNat c).toNat = c := by
      rw [UInt16.toNat_ofNat', Nat.mod_eq_of_lt (by omega)]
    rw [if_pos hlow, List.singleton_append, utf16Decode_cons, hunit, if_neg hlead, if_pos htrail]
  · obtain ⟨hfirst, hsecond, hvalue⟩ := pair_spec (Nat.lt_of_not_le hlow) hhigh
    rw [if_neg hlow, List.cons_append, List.singleton_append]
    rw [utf16Decode_cons, if_pos hfirst]
    dsimp only
    rw [if_pos hsecond, hvalue]

theorem utf16Decode_some {loneTrails : Bool} {c : ℕ} {s rest : List UInt16}
    (h : utf16Decode loneTrails s = some (c, rest)) : Utf16Char loneTrails c ∧ s = utf16Encode c ++ rest := by
  cases s with
  | nil => cases h
  | cons first s =>
    rw [utf16Decode_cons] at h
    by_cases hfirst : UTF_IS_LEAD first.toNat
    · rw [if_pos hfirst] at h
      cases s with
      | nil => cases h
      | cons second s =>
        dsimp only at h
        by_cases hsecond : UTF_IS_TRAIL second.toNat
        · rw [if_pos hsecond] at h
          obtain ⟨rfl, rfl⟩ := Prod.mk.inj (Option.some.inj h)
          obtain ⟨hlow, hhigh, hlead, htrail⟩ := pair_value hfirst hsecond
          refine ⟨⟨hhigh, fun hl => ?_, fun ht => ?_⟩, ?_⟩
          · have hbounds := lead_bounds hl
            omega
          · have hbounds := trail_bounds ht
            omega
          · have hpair : ¬ UTF16_GET_PAIR_VALUE first.toNat second.toNat ≤ 0xFFFF := by omega
            rw [utf16Encode, if_neg hpair, hlead, htrail]
            rfl
        · rw [if_neg hsecond] at h
          cases h
    · rw [if_neg hfirst] at h
      by_cases hlone : UTF_IS_TRAIL first.toNat → loneTrails = true
      · rw [if_pos hlone] at h
        cases h
        have hlt := first.toNat_lt
        refine ⟨⟨by omega, hfirst, hlone⟩, ?_⟩
        rw [utf16Encode, if_pos (by omega), UInt16.ofNat_toNat]
        rfl
      · rw [if_neg hlone] at h
        cases h

theorem utf16Encode_ne_nil (c : ℕ) : utf16Encode c ≠ [] := by
  rw [utf16Encode]
  split_ifs <;> exact List.cons_ne_nil _ _

def utf16 (loneTrails : Bool) : Encoding UInt16 where
  Valid := Utf16Char loneTrails
  encode := utf16Encode
  decode := utf16Decode loneTrails
  encode_ne_nil := utf16Encode_ne_nil
  decode_iff _ _ rest := ⟨utf16Decode_some, fun ⟨hc, hs⟩ => hs ▸ utf16Decode_encode hc rest⟩

/-! ## UTF-32 -/

def utf32Encode (c : ℕ) : List UInt32 := [.ofNat c]

def utf32Decode (P : ℕ → Prop) [DecidablePred P] : List UInt32 → Option (ℕ × List UInt32)
  | [] => none
  | c :: s => if P c.toNat then some (c.toNat, s) else none

/-- The numbers with the property are characters. -/
def utf32 (P : ℕ → Prop) [DecidablePred P] (hP : ∀ c, P c → c ≤ 0x10FFFF) : Encoding UInt32 where
  Valid := P
  encode := utf32Encode
  decode := utf32Decode P
  encode_ne_nil _ := List.cons_ne_nil _ _
  decode_iff s c rest := by
    constructor
    · intro h
      cases s with
      | nil => cases h
      | cons first s =>
        rw [utf32Decode] at h
        by_cases hfirst : P first.toNat
        · rw [if_pos hfirst] at h
          cases h
          refine ⟨hfirst, ?_⟩
          rw [utf32Encode, UInt32.ofNat_toNat]
          rfl
        · rw [if_neg hfirst] at h
          cases h
    · rintro ⟨hc, rfl⟩
      have hhigh := hP c hc
      have hunit : (UInt32.ofNat c).toNat = c := by
        rw [UInt32.toNat_ofNat', Nat.mod_eq_of_lt (by omega)]
      rw [utf32Encode, List.singleton_append, utf32Decode, hunit, if_pos hc]

/-! ## UTF-8 -/

def utf8Decode : List UInt8 → Option (ℕ × List UInt8)
  | [] => none
  | c :: s => if c.toNat ≤ 0x7F then some (c.toNat, s) else utf8_nextCharSafeBody c s

def Utf8Char (c : ℕ) : Prop := c ≤ 0x10FFFF ∧ ¬ UTF_IS_SURROGATE c

theorem byte_toNat {n : ℕ} (h : n < 256) : (UInt8.ofNat n).toNat = n := by
  rw [UInt8.toNat_ofNat', Nat.mod_eq_of_lt h]

/-- A byte whose value is known. -/
theorem ofNat_byte {n : ℕ} {b : UInt8} (h : n = b.toNat) : UInt8.ofNat n = b := by
  rw [h, UInt8.ofNat_toNat]

theorem trailByte_iff {n : ℕ} (h : n < 256) : U8_IS_TRAIL (.ofNat n) ↔ 0x80 ≤ n ∧ n ≤ 0xBF := by
  rw [U8_IS_TRAIL, byte_toNat h]

theorem utf8Decode_encode {c : ℕ} (hc : Utf8Char c) (s : List UInt8) :
    utf8Decode (U8_APPEND_UNSAFE c ++ s) = some (c, s) := by
  obtain ⟨hhigh, hsurrogate⟩ := hc
  have htrail : ∀ n, U8_IS_TRAIL (.ofNat (0x80 + n % 0x40)) := fun n =>
    (trailByte_iff (by omega)).2 (by omega)
  have hbits : ∀ n, (UInt8.ofNat (0x80 + n % 0x40)).toNat = 0x80 + n % 0x40 := fun n =>
    byte_toNat (by omega)
  rw [U8_APPEND_UNSAFE]
  by_cases hone : c ≤ 0x7F
  · rw [if_pos hone, List.singleton_append, utf8Decode, byte_toNat (by omega), if_pos hone]
  by_cases htwo : c ≤ 0x7FF
  · have hlead : (UInt8.ofNat (0xC0 + c / 0x40)).toNat = 0xC0 + c / 0x40 := byte_toNat (by omega)
    have hvalue : (0xC0 + c / 0x40 - 0xC0) * 0x40 + (0x80 + c % 0x40 - 0x80) = c := by omega
    rw [if_neg hone, if_pos htwo, List.cons_append, List.singleton_append, utf8Decode, hlead,
      if_neg (by omega), utf8_nextCharSafeBody, hlead, if_pos (by omega)]
    dsimp only
    rw [hbits, hvalue, if_pos ⟨htrail _, by omega⟩]
  by_cases hthree : c ≤ 0xFFFF
  · have hlead : (UInt8.ofNat (0xE0 + c / 0x1000)).toNat = 0xE0 + c / 0x1000 := byte_toNat (by omega)
    have hvalue : (0xE0 + c / 0x1000 - 0xE0) * 0x1000 + (0x80 + c / 0x40 % 0x40 - 0x80) * 0x40 +
        (0x80 + c % 0x40 - 0x80) = c := by omega
    rw [if_neg hone, if_neg htwo, if_pos hthree]
    simp only [List.cons_append, List.nil_append]
    rw [utf8Decode, hlead, if_neg (by omega), utf8_nextCharSafeBody, hlead, if_neg (by omega),
      if_pos (by omega)]
    dsimp only
    rw [hbits, hbits, hvalue, if_pos ⟨htrail _, htrail _, by omega, hsurrogate⟩]
  · have hlead : (UInt8.ofNat (0xF0 + c / 0x40000)).toNat = 0xF0 + c / 0x40000 := byte_toNat (by omega)
    have hvalue : (0xF0 + c / 0x40000 - 0xF0) * 0x40000 + (0x80 + c / 0x1000 % 0x40 - 0x80) * 0x1000 +
        (0x80 + c / 0x40 % 0x40 - 0x80) * 0x40 + (0x80 + c % 0x40 - 0x80) = c := by omega
    rw [if_neg hone, if_neg htwo, if_neg hthree]
    simp only [List.cons_append, List.nil_append]
    rw [utf8Decode, hlead, if_neg (by omega), utf8_nextCharSafeBody, hlead, if_neg (by omega),
      if_neg (by omega), if_pos (by omega)]
    dsimp only
    rw [hbits, hbits, hbits, hvalue, if_pos ⟨htrail _, htrail _, htrail _, by omega, hhigh⟩]

theorem nextChar_some {c : ℕ} {first : UInt8} {s rest : List UInt8}
    (h : utf8_nextCharSafeBody first s = some (c, rest)) :
    Utf8Char c ∧ first :: s = U8_APPEND_UNSAFE c ++ rest := by
  unfold utf8_nextCharSafeBody at h
  split_ifs at h with htwo hthree hfour
  · cases s with
    | nil => cases h
    | cons b₁ s =>
      dsimp only at h
      split_ifs at h with hvalid
      obtain ⟨⟨hlow₁, hhigh₁⟩, hlow⟩ := hvalid
      obtain ⟨rfl, rfl⟩ := Prod.mk.inj (Option.some.inj h)
      generalize hc : (first.toNat - 0xC0) * 0x40 + (b₁.toNat - 0x80) = c at hlow ⊢
      have hlead : UInt8.ofNat (0xC0 + c / 0x40) = first := ofNat_byte (by omega)
      have hlast : UInt8.ofNat (0x80 + c % 0x40) = b₁ := ofNat_byte (by omega)
      refine ⟨⟨by omega, fun hs => ?_⟩, ?_⟩
      · have hbounds : 0xD800 ≤ c := hs.1
        omega
      · rw [U8_APPEND_UNSAFE, if_neg (by omega), if_pos (by omega), hlead, hlast]
        rfl
  · cases s with
    | nil => cases h
    | cons b₁ s =>
      cases s with
      | nil => cases h
      | cons b₂ s =>
        dsimp only at h
        split_ifs at h with hvalid
        obtain ⟨⟨hlow₁, hhigh₁⟩, ⟨hlow₂, hhigh₂⟩, hlow, hsurrogate⟩ := hvalid
        obtain ⟨rfl, rfl⟩ := Prod.mk.inj (Option.some.inj h)
        generalize hc : (first.toNat - 0xE0) * 0x1000 + (b₁.toNat - 0x80) * 0x40 + (b₂.toNat - 0x80) = c
          at hlow hsurrogate ⊢
        have hlead : UInt8.ofNat (0xE0 + c / 0x1000) = first := ofNat_byte (by omega)
        have hmiddle : UInt8.ofNat (0x80 + c / 0x40 % 0x40) = b₁ := ofNat_byte (by omega)
        have hlast : UInt8.ofNat (0x80 + c % 0x40) = b₂ := ofNat_byte (by omega)
        refine ⟨⟨by omega, hsurrogate⟩, ?_⟩
        rw [U8_APPEND_UNSAFE, if_neg (by omega), if_neg (by omega), if_pos (by omega), hlead, hmiddle, hlast]
        rfl
  · cases s with
    | nil => cases h
    | cons b₁ s =>
      cases s with
      | nil => cases h
      | cons b₂ s =>
        cases s with
        | nil => cases h
        | cons b₃ s =>
          dsimp only at h
          split_ifs at h with hvalid
          obtain ⟨⟨hlow₁, hhigh₁⟩, ⟨hlow₂, hhigh₂⟩, ⟨hlow₃, hhigh₃⟩, hlow, hhigh⟩ := hvalid
          obtain ⟨rfl, rfl⟩ := Prod.mk.inj (Option.some.inj h)
          generalize hc : (first.toNat - 0xF0) * 0x40000 + (b₁.toNat - 0x80) * 0x1000 +
            (b₂.toNat - 0x80) * 0x40 + (b₃.toNat - 0x80) = c at hlow hhigh ⊢
          have hlead : UInt8.ofNat (0xF0 + c / 0x40000) = first := ofNat_byte (by omega)
          have hsecond : UInt8.ofNat (0x80 + c / 0x1000 % 0x40) = b₁ := ofNat_byte (by omega)
          have hthird : UInt8.ofNat (0x80 + c / 0x40 % 0x40) = b₂ := ofNat_byte (by omega)
          have hlast : UInt8.ofNat (0x80 + c % 0x40) = b₃ := ofNat_byte (by omega)
          refine ⟨⟨hhigh, fun hs => ?_⟩, ?_⟩
          · have hbounds : c ≤ 0xDFFF := hs.2
            omega
          · rw [U8_APPEND_UNSAFE, if_neg (by omega), if_neg (by omega), if_neg (by omega), hlead, hsecond,
              hthird, hlast]
            rfl

theorem utf8Decode_some {c : ℕ} {s rest : List UInt8} (h : utf8Decode s = some (c, rest)) :
    Utf8Char c ∧ s = U8_APPEND_UNSAFE c ++ rest := by
  cases s with
  | nil => cases h
  | cons first s =>
    rw [utf8Decode] at h
    by_cases hone : first.toNat ≤ 0x7F
    · rw [if_pos hone] at h
      cases h
      refine ⟨⟨by omega, fun hs => ?_⟩, ?_⟩
      · have hbounds : 0xD800 ≤ first.toNat := hs.1
        omega
      · rw [U8_APPEND_UNSAFE, if_pos hone, UInt8.ofNat_toNat]
        rfl
    · rw [if_neg hone] at h
      exact nextChar_some h

theorem U8_APPEND_UNSAFE_ne_nil (c : ℕ) : U8_APPEND_UNSAFE c ≠ [] := by
  rw [U8_APPEND_UNSAFE]
  split_ifs <;> exact List.cons_ne_nil _ _

def utf8 : Encoding UInt8 where
  Valid := Utf8Char
  encode := U8_APPEND_UNSAFE
  decode := utf8Decode
  encode_ne_nil := U8_APPEND_UNSAFE_ne_nil
  decode_iff _ _ rest := ⟨utf8Decode_some, fun ⟨hc, hs⟩ => hs ▸ utf8Decode_encode hc rest⟩

/-- `U8_LENGTH` is the number of bytes. -/
theorem length_append {c : ℕ} (hc : Utf8Char c) : (U8_APPEND_UNSAFE c).length = U8_LENGTH c := by
  obtain ⟨hhigh, hsurrogate⟩ := hc
  rw [UTF_IS_SURROGATE] at hsurrogate
  rw [U8_APPEND_UNSAFE, U8_LENGTH]
  split_ifs <;> first | rfl | omega

end FirebirdCore.Intl
