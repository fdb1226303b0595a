import FirebirdCore.Intl.Substring
import FirebirdCore.Intl.WellFormed

/-!
# Character sets

The conversions of a character set and `substring`, as the code that works on strings of any character
set calls them.
-/
namespace FirebirdCore.Intl

/-- None stands for an exception. The room is in bytes. -/
structure CharSet where
  /-- `getConvToUnicode().convert`. -/
  toUnicode : List UInt8 → ℕ → Option (List UInt16)
  /-- `getConvFromUnicode().convert`. -/
  fromUnicode : List UInt16 → ℕ → Option (List UInt8)
  /-- Source, room, start and length. -/
  substring : List UInt8 → ℕ → UInt32 → UInt32 → Option (List UInt8)
  space : List UInt8

namespace CharSet

/-- `CsConvert::convert` without a place for the position of bad input. -/
def convert {β : Type*} (r : Conversion β) : Option (List β) :=
  if r.errCode = none then some r.dst else none

/-- `FixedWidthCharSet::substring`. -/
def fixedWidthSubstring (minBytesPerChar : ℕ) (src : List UInt8) (dstLen : ℕ) (startPos len : UInt32) :
    Option (List UInt8) :=
  let result := min (src.length / minBytesPerChar - startPos.toNat) len.toNat * minBytesPerChar
  if dstLen < result then none
  else if startPos.toNat * minBytesPerChar > src.length then some []
  else some ((src.drop (startPos.toNat * minBytesPerChar)).take result)

/-- `MultiByteCharSet::substring`. Bad input in the source is no error: what is in front of it is
taken. -/
def multiByteSubstring (toUnicode : List UInt8 → ℕ → Conversion UInt16) (toUnicodeLength : ℕ → ℕ)
    (fromUnicode : List UInt16 → ℕ → Conversion UInt8) (src : List UInt8) (dstLen : ℕ)
    (startPos len : UInt32) : Option (List UInt8) :=
  if len = 0 ∨ startPos.toNat ≥ src.length then some []
  else
    let str := (toUnicode src (toUnicodeLength src.length)).dst
    -- a length is a `ULONG`
    let unilength := UInt32.ofNat (min (2 * str.length) 0xFFFFFFFE)
    convert (fromUnicode (utf16Substring str unilength startPos len) dstLen)

/-- What `initUtf8Charset` makes. -/
def utf8 : CharSet where
  toUnicode src dstLen := convert (utf8ToUtf16 src dstLen)
  fromUnicode src dstLen := convert (utf16ToUtf8 src dstLen)
  substring := multiByteSubstring utf8ToUtf16 utf8ToUtf16Length utf16ToUtf8
  space := [0x20]

/-! ## What is relied on -/

/-- The first character is a part of the string, it does not depend on what is behind it, and nothing is
no text. -/
structure Lawful (cs : CharSet) : Prop where
  space_ne_nil : cs.space ≠ []
  toUnicode_nil : cs.toUnicode [] 4 = some []
  substring_le : ∀ s c, cs.substring s 4 0 1 = some c → c.length ≤ s.length
  substring_prefix : ∀ s c k, cs.substring s 4 0 1 = some c → c ≠ [] → c.length ≤ k →
    cs.substring (s.take k) 4 0 1 = some c

/-- The conversion to and from Unicode is exact on the characters `P`, among which are the space and those
that have a meaning in attributes. -/
structure Exact (cs : CharSet) (enc : ℕ → List UInt8) (P : ℕ → Prop) : Prop where
  scalar : ∀ c, P c → Utf8Char c
  enc_ne_nil : ∀ c, P c → enc c ≠ []
  toUnicode : ∀ text : List ℕ, (∀ c ∈ text, P c) → 2 * (text.flatMap utf16Encode).length ≤ 4 →
    cs.toUnicode (text.flatMap enc) 4 = some (text.flatMap utf16Encode)
  fromUnicode : ∀ c, P c → cs.fromUnicode (utf16Encode c) 4 = some (enc c)
  substring : ∀ (c : ℕ) (text : List ℕ), P c → (∀ c ∈ text, P c) →
    cs.substring ((c :: text).flatMap enc) 4 0 1 = some (enc c)
  special : ∀ c ∈ [0x20, 0x5C, 0x3D, 0x3B], P c
  space : cs.space = enc 0x20

/-! ## UTF-8 -/

theorem characters_encode {c : ℕ} (hc : Utf8Char c) (src : List UInt16) :
    characters (utf16Encode c ++ src) = utf16Encode c :: characters src := by
  by_cases hlow : c ≤ 0xFFFF
  · have hunit : (UInt16.ofNat c).toNat = c := by
      rw [UInt16.toNat_ofNat', Nat.mod_eq_of_lt (by omega)]
    have hlead : ¬ UTF_IS_LEAD (UInt16.ofNat c).toNat := by
      rw [hunit]
      exact fun hl => hc.2 ((surrogate_iff c).2 (.inl hl))
    rw [utf16Encode_low hlow, List.singleton_append]
    cases src with
    | nil => rfl
    | cons c2 src => rw [characters_unit fun h => hlead h.1]
  · obtain ⟨hlead, htrail, -⟩ := pair_spec (c := c) (by omega) hc.1
    rw [utf16Encode_high hlow]
    exact characters_pair ⟨hlead, htrail⟩

theorem utf16Substring_first {c : ℕ} (hc : Utf8Char c) (src : List UInt16) {dstLen : UInt32}
    (hroom : 0 < dstLen.toNat / 2) :
    utf16Substring (utf16Encode c ++ src) dstLen 0 1 = utf16Encode c := by
  rw [utf16Substring_eq _ _ _ _ (by decide), copied_of_fits _ _ _ (by decide), characters_encode hc]
  change copyChars [utf16Encode c] _ = _
  rw [copyChars, if_pos hroom, copyChars, List.append_nil]

theorem utf8ToUtf16_whole {text : List ℕ} (hvalid : ∀ c ∈ text, Utf8Char c) {dstLen : ℕ}
    (hroom : 2 * (text.flatMap utf16Encode).length ≤ dstLen) :
    (utf8ToUtf16 (text.flatMap U8_APPEND_UNSAFE) dstLen).dst = text.flatMap utf16Encode ∧
      (utf8ToUtf16 (text.flatMap U8_APPEND_UNSAFE) dstLen).errCode = none :=
  (utf8ToUtf16Loop_follows _ (text.flatMap U8_APPEND_UNSAFE) 0 (dstLen / 2) none le_rfl).whole
    (E := Intl.utf8) hvalid utf16Encode_ne_nil (by omega)

theorem utf16ToUtf8_char {c : ℕ} (hc : Utf8Char c) :
    convert (utf16ToUtf8 (utf16Encode c) 4) = some (U8_APPEND_UNSAFE c) := by
  have hfollows : Follows (utf16 false) _ _ _ ((utf16 false).text [c]) 0 4 _ :=
    utf16ToUtf8Loop_follows ([c].flatMap utf16Encode) 0 4 none
  have hlength := length_utf8_le c
  have hfits : ([c].flatMap U8_APPEND_UNSAFE).length ≤ 4 := by
    rw [List.flatMap_singleton, U8_APPEND_UNSAFE]
    split_ifs <;> simp
  obtain ⟨hdst, herr⟩ := hfollows.whole
    (List.forall_mem_singleton.2 ((utf8Char_iff c).1 hc)) U8_APPEND_UNSAFE_ne_nil hfits
  rw [List.flatMap_singleton] at hdst herr
  rw [List.flatMap_singleton] at hdst
  unfold convert utf16ToUtf8
  rw [if_pos herr, hdst]

/-- The first character is read as `utf8Decode` says, and bytes that are no character as nothing. -/
theorem utf8_substring (s : List UInt8) :
    utf8.substring s 4 0 1 =
      some (match utf8Decode s with
        | none => []
        | some (c, _) => U8_APPEND_UNSAFE c) := by
  cases s with
  | nil => rfl
  | cons byte tail =>
    obtain ⟨n, left, -, hconverts, -⟩ := utf8ToUtf16Loop_follows (byte :: tail).length (byte :: tail) 0
      (utf8ToUtf16Length (byte :: tail).length / 2) none le_rfl
    have hlength : utf8ToUtf16Length (byte :: tail).length / 2 = (byte :: tail).length :=
      Nat.mul_div_cancel _ (by decide)
    have hsubstring : ∀ dst, (utf8ToUtf16 (byte :: tail) (utf8ToUtf16Length (byte :: tail).length)).dst =
        dst → utf8.substring (byte :: tail) 4 0 1 =
          convert (utf16ToUtf8 (utf16Substring dst (.ofNat (min (2 * dst.length) 0xFFFFFFFE)) 0 1) 4) := by
      rintro _ rfl
      rfl
    generalize hdst : (utf8ToUtf16Loop (byte :: tail).length (byte :: tail) 0
      (utf8ToUtf16Length (byte :: tail).length / 2) none).dst = dst at hconverts
    generalize (utf8ToUtf16Loop (byte :: tail).length (byte :: tail) 0
      (utf8ToUtf16Length (byte :: tail).length / 2) none).errCode.map ErrCode.stop = stop at hconverts
    rw [hlength] at hconverts
    rw [hsubstring dst hdst]
    generalize hs : byte :: tail = s at hconverts ⊢
    generalize hroom : s.length = room at hconverts
    cases hconverts with
    | done => cases hs
    | full =>
      rw [← hs] at hroom
      cases hroom
    | bad _ _ hread =>
      rw [show utf8Decode _ = none from hread]
      rfl
    | @short _ rest _ c hread _ hshort =>
      obtain ⟨hc, rfl⟩ := utf8Decode_some hread
      have hunits := length_utf16_le c
      rw [List.length_append] at hroom
      omega
    | @char _ rest _ _ c dst _ hread _ _ =>
      obtain ⟨hc, -⟩ := utf8Decode_some hread
      have hpos := List.length_pos_of_ne_nil (utf16Encode_ne_nil c)
      rw [show utf8Decode _ = some (c, rest) from hread, utf16Substring_first hc, utf16ToUtf8_char hc]
      rw [UInt32.toNat_ofNat', List.length_append, Nat.mod_eq_of_lt (by omega)]
      omega

theorem utf8_lawful : utf8.Lawful where
  space_ne_nil := List.cons_ne_nil _ _
  toUnicode_nil := rfl
  substring_le := by
    intro s c h
    rw [utf8_substring] at h
    cases hread : utf8Decode s with
    | none =>
      rw [hread] at h
      cases h
      exact Nat.zero_le _
    | some result =>
      obtain ⟨ch, rest⟩ := result
      rw [hread] at h
      cases h
      obtain ⟨-, rfl⟩ := utf8Decode_some hread
      rw [List.length_append]
      exact Nat.le_add_right _ _
  substring_prefix := by
    intro s c k h hne hk
    rw [utf8_substring] at h ⊢
    cases hread : utf8Decode s with
    | none =>
      rw [hread] at h
      cases h
      exact absurd rfl hne
    | some result =>
      obtain ⟨ch, rest⟩ := result
      rw [hread] at h
      cases h
      obtain ⟨hch, rfl⟩ := utf8Decode_some hread
      rw [List.take_append, List.take_of_length_le hk, utf8Decode_encode hch]

theorem utf8_exact : utf8.Exact U8_APPEND_UNSAFE Utf8Char where
  scalar c hc := hc
  enc_ne_nil c _ := U8_APPEND_UNSAFE_ne_nil c
  toUnicode := by
    intro text hvalid hroom
    obtain ⟨hdst, herr⟩ := utf8ToUtf16_whole hvalid hroom
    change convert _ = _
    unfold convert
    rw [if_pos herr, hdst]
  fromUnicode c hc := utf16ToUtf8_char hc
  substring := by
    intro c text hc _
    rw [utf8_substring, List.flatMap_cons, utf8Decode_encode hc]
  special := by
    intro c hc
    have hascii : c ≤ 0x7F := by
      simp only [List.mem_cons, List.not_mem_nil, or_false] at hc
      omega
    exact ⟨by omega, not_surrogate_of_ascii hascii⟩
  space := rfl

end CharSet

end FirebirdCore.Intl
