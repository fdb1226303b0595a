import FirebirdCore.Intl.Encodings

/-!
# What the conversions do

Each loop follows the rules of a conversion between two encodings.
-/
namespace FirebirdCore.Intl
open FirebirdCore.Transcode

def ErrCode.stop : ErrCode → Stop
  | .truncation => .truncation
  | .badInput => .badInput

section Follows
variable {α β : Type*} {E : Encoding α} {enc : ℕ → List β} {size i k room c : ℕ} {told told' : Prop}
  {s rest : List α} {r : Conversion β}

/-- The loop converts the text `s`, which starts at the unit `i`. `told` is when it tells the position. -/
def Follows (E : Encoding α) (enc : ℕ → List β) (size : ℕ) (told : Prop) (s : List α) (i room : ℕ)
    (r : Conversion β) : Prop :=
  ∃ n left, n + left.length = s.length ∧ Converts E enc s room r.dst (r.errCode.map ErrCode.stop) left ∧
    (told → r.errPosition = some ((i + n) * size))

theorem Follows.done {position : Option ℕ} (htold : told → position = some (i * size)) :
    Follows E enc size told [] i room ⟨[], none, position⟩ :=
  ⟨0, [], rfl, .done room, htold⟩

theorem Follows.stop {errCode : ErrCode} {position : Option ℕ}
    (h : Converts E enc s room [] (some errCode.stop) s) (htold : told → position = some (i * size)) :
    Follows E enc size told s i room ⟨[], some errCode, position⟩ :=
  ⟨0, s, Nat.zero_add _, h, htold⟩

/-- One character is converted. -/
theorem Follows.push {units : List β} (h : Follows E enc size told' rest (i + k) (room - units.length) r)
    (hunits : enc c = units) (hread : E.decode s = some (c, rest)) (hfits : units.length ≤ room)
    (hlength : s.length = k + rest.length) (htold : told → told') :
    Follows E enc size told s i room (r.push units) := by
  obtain ⟨n, left, hn, hconverts, hposition⟩ := h
  subst hunits
  refine ⟨k + n, left, ?_, .char hread hfits hconverts, fun ht => ?_⟩
  · rw [Nat.add_assoc, hn, hlength]
  · rw [← Nat.add_assoc]
    exact hposition (htold ht)

theorem Follows.pushUtf8 {r : Conversion UInt8}
    (h : Follows E U8_APPEND_UNSAFE size (r.errCode ≠ none) rest (i + k) (room - U8_LENGTH c) r)
    (hc : Utf8Char c) (hread : E.decode s = some (c, rest)) (hfits : U8_LENGTH c ≤ room)
    (hlength : s.length = k + rest.length) :
    Follows E U8_APPEND_UNSAFE size ((r.push (U8_APPEND_UNSAFE c)).errCode ≠ none) s i room
      (r.push (U8_APPEND_UNSAFE c)) := by
  rw [← length_append hc] at h hfits
  exact h.push rfl hread hfits hlength id

end Follows

/-! ## Reading -/

section Read
variable {loneTrails : Bool} {c c2 : UInt16} {s : List UInt16}

theorem read_unit (hlead : ¬ UTF_IS_LEAD c.toNat) (htrail : UTF_IS_TRAIL c.toNat → loneTrails = true) :
    (utf16 loneTrails).decode (c :: s) = some (c.toNat, s) :=
  (utf16Decode_cons loneTrails c s).trans (by rw [if_neg hlead, if_pos htrail])

theorem read_pair (hlead : UTF_IS_LEAD c.toNat) (htrail : UTF_IS_TRAIL c2.toNat) :
    (utf16 loneTrails).decode (c :: c2 :: s) = some (UTF16_GET_PAIR_VALUE c.toNat c2.toNat, s) := by
  refine (utf16Decode_cons loneTrails c (c2 :: s)).trans ?_
  rw [if_pos hlead]
  exact if_pos htrail

theorem read_lead (hlead : UTF_IS_LEAD c.toNat) (htrail : ∀ c2 ∈ s.head?, ¬ UTF_IS_TRAIL c2.toNat) :
    (utf16 loneTrails).decode (c :: s) = none := by
  refine (utf16Decode_cons loneTrails c s).trans ?_
  rw [if_pos hlead]
  cases s with
  | nil => rfl
  | cons c2 s => exact if_neg (htrail c2 rfl)

/-- A surrogate that is not followed by its pair. -/
theorem read_surrogate (hsurrogate : UTF_IS_SURROGATE c.toNat)
    (hpair : ∀ c2 ∈ s.head?, ¬ (UTF_IS_LEAD c.toNat ∧ UTF_IS_TRAIL c2.toNat)) :
    (utf16 false).decode (c :: s) = none := by
  by_cases hlead : UTF_IS_LEAD c.toNat
  · exact read_lead hlead fun c2 hc2 htrail => hpair c2 hc2 ⟨hlead, htrail⟩
  · refine (utf16Decode_cons false c s).trans ?_
    have htrail := ((surrogate_iff _).1 hsurrogate).resolve_left hlead
    rw [if_neg hlead, if_neg fun h => Bool.false_ne_true (h htrail)]

theorem not_surrogate {n : ℕ} (h : ¬ UTF_IS_SURROGATE n) : ¬ UTF_IS_LEAD n ∧ ¬ UTF_IS_TRAIL n :=
  not_or.1 (mt (surrogate_iff n).2 h)

theorem read_whole (h : ¬ UTF_IS_SURROGATE c.toNat) :
    (utf16 loneTrails).decode (c :: s) = some (c.toNat, s) :=
  read_unit (not_surrogate h).1 fun htrail => absurd htrail (not_surrogate h).2

theorem utf8Char_unit (h : ¬ UTF_IS_SURROGATE c.toNat) : Utf8Char c.toNat := by
  have hlt := c.toNat_lt
  exact ⟨by omega, h⟩

theorem utf8Char_pair (hlead : UTF_IS_LEAD c.toNat) (htrail : UTF_IS_TRAIL c2.toNat) :
    Utf8Char (UTF16_GET_PAIR_VALUE c.toNat c2.toNat) := by
  obtain ⟨hlow, hhigh, -⟩ := pair_value hlead htrail
  refine ⟨hhigh, fun hs => ?_⟩
  have hbounds := hs.2
  omega

theorem not_surrogate_of_ascii {n : ℕ} (h : n ≤ 0x7F) : ¬ UTF_IS_SURROGATE n := fun hs => by
  have hbounds := hs.1
  omega

end Read

/-! ## The loops -/

theorem utf16ToUtf8Loop_follows (src : List UInt16) (i room : ℕ) (errPosition : Option ℕ) :
    Follows (utf16 false) U8_APPEND_UNSAFE 2 ((utf16ToUtf8Loop src i room errPosition).errCode ≠ none) src i
      room (utf16ToUtf8Loop src i room errPosition) := by
  fun_induction utf16ToUtf8Loop src i room errPosition
  case case1 => exact .done fun h => absurd rfl h
  case case2 => exact .stop (.full (List.cons_ne_nil _ _)) fun _ => rfl
  case case3 c src i room errPosition hroom hascii ih =>
    exact ih.push (if_pos hascii) (read_whole (not_surrogate_of_ascii hascii)) (Nat.pos_of_ne_zero hroom)
      (Nat.add_comm _ _) id
  case case4 c i room _ hroom hascii errPosition hsurrogate c2 src hpair c' hfits ih =>
    exact ih.pushUtf8 (utf8Char_pair hpair.1 hpair.2) (read_pair hpair.1 hpair.2) hfits
      (Nat.add_comm src.length 2)
  case case5 c i room _ hroom hascii errPosition hsurrogate c2 src hpair c' hshort =>
    have hlength := length_append (utf8Char_pair hpair.1 hpair.2)
    refine .stop (.short (read_pair hpair.1 hpair.2) (Nat.pos_of_ne_zero hroom) ?_) fun _ => rfl
    exact hlength ▸ Nat.lt_of_not_le hshort
  case case6 c i room _ hroom hascii errPosition hsurrogate c2 src hpair =>
    refine .stop (.bad (List.cons_ne_nil _ _) (Nat.pos_of_ne_zero hroom) (read_surrogate hsurrogate ?_))
      fun _ => rfl
    rintro _ ⟨⟩
    exact hpair
  case case7 c i room _ hroom hascii errPosition hsurrogate =>
    refine .stop (.bad (List.cons_ne_nil _ _) (Nat.pos_of_ne_zero hroom) (read_surrogate hsurrogate ?_))
      fun _ => rfl
    rintro _ ⟨⟩
  case case8 c src i room _ hroom hascii errPosition hsurrogate hfits ih =>
    exact ih.pushUtf8 (utf8Char_unit hsurrogate) (read_whole hsurrogate) hfits (Nat.add_comm _ _)
  case case9 c src i room _ hroom hascii errPosition hsurrogate hshort =>
    have hlength := length_append (utf8Char_unit hsurrogate)
    refine .stop (.short (read_whole hsurrogate) (Nat.pos_of_ne_zero hroom) ?_) fun _ => rfl
    exact hlength ▸ Nat.lt_of_not_le hshort

theorem utf16Encode_low {n : ℕ} (h : n ≤ 0xFFFF) : utf16Encode n = [.ofNat n] := if_pos h

theorem utf16Encode_high {n : ℕ} (h : ¬ n ≤ 0xFFFF) : utf16Encode n = [UTF16_LEAD n, UTF16_TRAIL n] :=
  if_neg h

theorem utf8ToUtf16Loop_follows (fuel : ℕ) (src : List UInt8) (i room : ℕ) (errPosition : Option ℕ)
    (hfuel : src.length ≤ fuel) :
    Follows utf8 utf16Encode 1 ((utf8ToUtf16Loop fuel src i room errPosition).errCode ≠ none) src i
      room (utf8ToUtf16Loop fuel src i room errPosition) := by
  fun_induction utf8ToUtf16Loop fuel src i room errPosition
  case case1 src i room errPosition =>
    obtain rfl := List.length_eq_zero_iff.1 (Nat.le_zero.1 hfuel)
    exact .done fun h => absurd rfl h
  case case2 => exact .done fun h => absurd rfl h
  case case3 fuel c src i errPosition =>
    exact .stop (.full (List.cons_ne_nil _ _)) fun _ => congrArg some (Nat.mul_one i).symm
  case case4 fuel c src i room errPosition hroom hascii ih =>
    have hunits : utf16Encode c.toNat = [.ofNat c.toNat] := utf16Encode_low (by omega)
    exact (ih (Nat.le_of_succ_le_succ hfuel)).push hunits (if_pos hascii) (Nat.pos_of_ne_zero hroom)
      (Nat.add_comm _ _) id
  case case5 fuel c src i room _ hroom hascii errPosition hnext =>
    refine .stop (.bad (List.cons_ne_nil _ _) (Nat.pos_of_ne_zero hroom) ?_) fun _ =>
      congrArg some (Nat.mul_one i).symm
    exact (if_neg hascii).trans hnext
  case case6 fuel c src i room _ hroom hascii errPosition ch rest hnext next hlow ih =>
    have hread : utf8.decode (c :: src) = some (ch, rest) := (if_neg hascii).trans hnext
    have hshorter := Encoding.decode_length hread
    rw [List.length_cons] at hfuel hshorter
    have hplace : next = i + (1 + (src.length - rest.length)) := Nat.add_assoc ..
    rw [hplace] at ih ⊢
    refine (ih (by omega)).push (utf16Encode_low hlow) hread (Nat.pos_of_ne_zero hroom) ?_ id
    rw [List.length_cons]
    omega
  case case7 fuel c src i room _ hroom hascii errPosition ch rest hnext next hhigh hpair ih =>
    have hread : utf8.decode (c :: src) = some (ch, rest) := (if_neg hascii).trans hnext
    have hshorter := Encoding.decode_length hread
    rw [List.length_cons] at hfuel hshorter
    have hplace : next = i + (1 + (src.length - rest.length)) := Nat.add_assoc ..
    rw [hplace] at ih ⊢
    refine (ih (by omega)).push (utf16Encode_high hhigh) hread hpair ?_ id
    rw [List.length_cons]
    omega
  case case8 fuel c src i room _ hroom hascii errPosition ch rest hnext hhigh hpair =>
    have hread : utf8.decode (c :: src) = some (ch, rest) := (if_neg hascii).trans hnext
    refine .stop (.short hread (Nat.pos_of_ne_zero hroom) ?_) fun _ => congrArg some (Nat.mul_one i).symm
    rw [utf16Encode_high hhigh]
    exact Nat.lt_succ_of_le (Nat.le_of_not_lt hpair)

theorem utf16ToUtf32Loop_follows (src : List UInt16) (i room : ℕ) :
    Follows (utf16 true) utf32Encode 2 True src i room (utf16ToUtf32Loop src i room) := by
  fun_induction utf16ToUtf32Loop src i room
  case case1 => exact .done fun _ => rfl
  case case2 => exact .stop (.full (List.cons_ne_nil _ _)) fun _ => rfl
  case case3 ch i room hroom hlead ch2 src htrail ih =>
    exact ih.push rfl (read_pair hlead htrail) (Nat.pos_of_ne_zero hroom) (Nat.add_comm src.length 2) id
  case case4 ch i room hroom hlead ch2 src htrail =>
    refine .stop (.bad (List.cons_ne_nil _ _) (Nat.pos_of_ne_zero hroom) (read_lead hlead ?_)) fun _ => rfl
    rintro _ ⟨⟩
    exact htrail
  case case5 ch i room hroom hlead =>
    refine .stop (.bad (List.cons_ne_nil _ _) (Nat.pos_of_ne_zero hroom) (read_lead hlead ?_)) fun _ => rfl
    rintro _ ⟨⟩
  case case6 ch src i room hroom hlead ih =>
    exact ih.push rfl (read_unit hlead fun _ => rfl) (Nat.pos_of_ne_zero hroom) (Nat.add_comm _ _) id

/-- Any number up to the last character. -/
def anyChar : Encoding UInt32 := utf32 (· ≤ 0x10FFFF) fun _ h => h

theorem utf32ToUtf16Loop_follows (src : List UInt32) (i room : ℕ) :
    Follows anyChar utf16Encode 4 ((utf32ToUtf16Loop src i room).errCode = some .truncation →
      (utf32ToUtf16Loop src i room).dst.length = room) src i room (utf32ToUtf16Loop src i room) := by
  fun_induction utf32ToUtf16Loop src i room
  case case1 => exact .done fun _ => rfl
  case case2 => exact .stop (.full (List.cons_ne_nil _ _)) fun _ => rfl
  case case3 ch src i room hroom hlow ih =>
    have hread : anyChar.decode (ch :: src) = some (ch.toNat, src) := if_pos (by omega)
    refine ih.push (utf16Encode_low hlow) hread (Nat.pos_of_ne_zero hroom) (Nat.add_comm _ _) fun h herr => ?_
    have hlength := h herr
    rw [Conversion.push, List.length_append, List.length_singleton] at hlength
    omega
  case case4 ch src i room hroom hlow hhigh hpair ih =>
    have hread : anyChar.decode (ch :: src) = some (ch.toNat, src) := if_pos hhigh
    refine ih.push (utf16Encode_high hlow) hread hpair (Nat.add_comm _ _) fun h herr => ?_
    have hlength := h herr
    simp only [Conversion.push, List.length_append, List.length_cons, List.length_nil] at hlength
    omega
  case case5 ch src i room hroom hlow hhigh hpair =>
    have hread : anyChar.decode (ch :: src) = some (ch.toNat, src) := if_pos hhigh
    refine .stop (.short hread (Nat.pos_of_ne_zero hroom) ?_) fun h => absurd (h rfl).symm hroom
    rw [utf16Encode_high hlow]
    exact Nat.lt_succ_of_le (Nat.le_of_not_lt hpair)
  case case6 ch src i room hroom hlow hhigh =>
    exact .stop (.bad (List.cons_ne_nil _ _) (Nat.pos_of_ne_zero hroom) (if_neg hhigh)) fun _ => rfl

end FirebirdCore.Intl
