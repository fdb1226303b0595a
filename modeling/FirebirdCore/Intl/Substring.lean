import FirebirdCore.Intl.UnicodeUtil
import Mathlib.Tactic

/-!
# Substrings of UTF-16 strings

`utf16Substring` is made of two loops over the characters of a string: one that skips those in front of
the start, and one that copies. Positions and lengths are counted in characters, room in code units.
-/
namespace FirebirdCore.Intl

/-! ## The loops -/

/-- The loop up to `startPos`: what is left of the source, and `pos`. -/
def skipLoop (dstLeft : Bool) (startPos : ℕ) : List UInt16 → ℕ → List UInt16 × ℕ
  | [], pos => ([], pos)
  | c :: src, pos =>
      if dstLeft ∧ pos < startPos then
        match src with
        | c2 :: src =>
            if UTF_IS_LEAD c.toNat ∧ UTF_IS_TRAIL c2.toNat then skipLoop dstLeft startPos src (pos + 1)
            else skipLoop dstLeft startPos (c2 :: src) (pos + 1)
        | [] => ([], pos + 1)
      else (c :: src, pos)

/-- The loop that copies, with room for so many units: what is stored. The room is tested once for each
character. -/
def copyLoop (endPos : ℕ) : List UInt16 → ℕ → ℕ → List UInt16
  | [], _, _ => []
  | c :: src, pos, room =>
      if 0 < room ∧ pos < endPos then
        match src with
        | c2 :: src =>
            if UTF_IS_LEAD c.toNat ∧ UTF_IS_TRAIL c2.toNat then
              c :: c2 :: copyLoop endPos src (pos + 1) (room - 2)
            else c :: copyLoop endPos (c2 :: src) (pos + 1) (room - 1)
        | [] => [c]
      else []

/-- What is stored in a destination of `dstLen` bytes. Nothing says that it fits. -/
def utf16Substring (src : List UInt16) (dstLen startPos length : UInt32) : List UInt16 :=
  if length = 0 then []
  else
    let room := dstLen.toNat / 2
    let r := skipLoop (0 < room) startPos.toNat src 0
    -- the sum is a `ULONG`
    copyLoop (startPos + length).toNat r.1 r.2 room

/-! ## Characters -/

/-- The characters of a string. A surrogate without its pair is one. -/
def characters : List UInt16 → List (List UInt16)
  | [] => []
  | [c] => [[c]]
  | c :: c2 :: src =>
      if UTF_IS_LEAD c.toNat ∧ UTF_IS_TRAIL c2.toNat then [c, c2] :: characters src
      else [c] :: characters (c2 :: src)

/-- The characters in front of the first one for which there is no room. -/
def clip : List (List UInt16) → ℕ → List UInt16
  | [], _ => []
  | ch :: chars, room => if ch.length ≤ room then ch ++ clip chars (room - ch.length) else []

/-- The characters `start` to `start + length - 1`, clipped at the end of the string and at the last whole
character that fits. -/
def substring (src : List UInt16) (room start length : ℕ) : List UInt16 :=
  clip (((characters src).drop start).take length) room

section Characters
variable {c c2 : UInt16} {src : List UInt16} {ch : List UInt16} {chars : List (List UInt16)} {room n : ℕ}

theorem characters_pair (h : UTF_IS_LEAD c.toNat ∧ UTF_IS_TRAIL c2.toNat) :
    characters (c :: c2 :: src) = [c, c2] :: characters src := by
  rw [characters, if_pos h]

theorem characters_unit (h : ¬ (UTF_IS_LEAD c.toNat ∧ UTF_IS_TRAIL c2.toNat)) :
    characters (c :: c2 :: src) = [c] :: characters (c2 :: src) := by
  rw [characters, if_neg h]

/-- A character is one unit or two. -/
theorem characters_length (src : List UInt16) : ∀ ch ∈ characters src, ch.length = 1 ∨ ch.length = 2 := by
  induction src using characters.induct with
  | case1 => exact fun _ h => absurd h List.not_mem_nil
  | case2 c => exact List.forall_mem_singleton.2 (.inl rfl)
  | case3 c c2 src hpair ih =>
    rw [characters_pair hpair]
    exact List.forall_mem_cons.2 ⟨.inr rfl, ih⟩
  | case4 c c2 src hunit ih =>
    rw [characters_unit hunit]
    exact List.forall_mem_cons.2 ⟨.inl rfl, ih⟩

theorem characters_flatten (src : List UInt16) : (characters src).flatten = src := by
  induction src using characters.induct with
  | case1 => rfl
  | case2 c => rfl
  | case3 c c2 src hpair ih =>
    rw [characters_pair hpair, List.flatten_cons, ih]
    rfl
  | case4 c c2 src hunit ih =>
    rw [characters_unit hunit, List.flatten_cons, ih]
    rfl

theorem clip_length_le (chars : List (List UInt16)) (room : ℕ) : (clip chars room).length ≤ room := by
  induction chars generalizing room with
  | nil => exact Nat.zero_le _
  | cons ch chars ih =>
    rw [clip]
    split_ifs with hfits
    · have hrest := ih (room - ch.length)
      rw [List.length_append]
      omega
    · exact Nat.zero_le _

/-- With room for all the characters, none is clipped. -/
theorem clip_eq_flatten (h : chars.flatten.length ≤ room) : clip chars room = chars.flatten := by
  induction chars generalizing room with
  | nil => rfl
  | cons ch chars ih =>
    rw [List.flatten_cons, List.length_append] at h
    rw [clip, if_pos (by omega), ih (by omega), List.flatten_cons]

/-- The loop that copies, over characters. -/
def copyChars : List (List UInt16) → ℕ → List UInt16
  | [], _ => []
  | ch :: chars, room => if 0 < room then ch ++ copyChars chars (room - ch.length) else []

theorem copyChars_zero (chars : List (List UInt16)) : copyChars chars 0 = [] := by
  cases chars with
  | nil => rfl
  | cons ch chars => rw [copyChars, if_neg (lt_irrefl 0)]

/-- A character begins in the last unit of the room and does not end there. -/
def Straddles (chars : List (List UInt16)) (room : ℕ) : Prop :=
  ∃ front ch back, chars = front ++ ch :: back ∧ front.flatten.length + 1 = room ∧ ch.length = 2

theorem straddles_cons : Straddles (ch :: chars) room ↔
    room = 1 ∧ ch.length = 2 ∨ ch.length < room ∧ Straddles chars (room - ch.length) := by
  constructor
  · rintro ⟨front, ch', back, hchars, hroom, hpair⟩
    cases front with
    | nil =>
      obtain ⟨rfl, rfl⟩ := List.cons.inj hchars
      exact .inl ⟨hroom.symm, hpair⟩
    | cons _ front =>
      obtain ⟨rfl, rfl⟩ := List.cons.inj hchars
      rw [List.flatten_cons, List.length_append] at hroom
      exact .inr ⟨by omega, front, ch', back, rfl, by omega, hpair⟩
  · rintro (⟨rfl, hpair⟩ | ⟨hlt, front, ch', back, rfl, hroom, hpair⟩)
    · exact ⟨[], ch, chars, rfl, rfl, hpair⟩
    · refine ⟨ch :: front, ch', back, rfl, ?_, hpair⟩
      rw [List.flatten_cons, List.length_append]
      omega

/-- Without a character that straddles the end of the room, the loop stores what it should. -/
theorem copyChars_eq (hlength : ∀ ch ∈ chars, ch.length = 1 ∨ ch.length = 2)
    (hwhole : ¬ Straddles chars room) : copyChars chars room = clip chars room := by
  induction chars generalizing room with
  | nil => rfl
  | cons ch chars ih =>
    obtain ⟨hch, hchars⟩ := List.forall_mem_cons.1 hlength
    rw [straddles_cons, not_or] at hwhole
    rw [copyChars, clip]
    by_cases hroom : 0 < room
    · have hfits : ch.length ≤ room := by omega
      rw [if_pos hroom, if_pos hfits]
      by_cases hlt : ch.length < room
      · rw [ih hchars fun h => hwhole.2 ⟨hlt, h⟩]
      · have hend : room - ch.length = 0 := by omega
        rw [hend]
        refine congrArg (ch ++ ·) ?_
        rw [copyChars_zero]
        exact (List.eq_nil_of_length_eq_zero (Nat.le_zero.1 (clip_length_le chars 0))).symm
    · rw [if_neg hroom, if_neg (by omega)]

/-- With such a character, one unit is stored beyond the room. -/
theorem copyChars_straddles (hlength : ∀ ch ∈ chars, ch.length = 1 ∨ ch.length = 2)
    (hstraddles : Straddles chars room) : (copyChars chars room).length = room + 1 := by
  induction chars generalizing room with
  | nil =>
    obtain ⟨front, ch, back, hnil, -⟩ := hstraddles
    exact absurd hnil.symm (List.append_ne_nil_of_right_ne_nil _ (List.cons_ne_nil _ _))
  | cons ch chars ih =>
    obtain ⟨hch, hchars⟩ := List.forall_mem_cons.1 hlength
    rw [copyChars]
    rcases straddles_cons.1 hstraddles with ⟨rfl, hpair⟩ | ⟨hlt, hrest⟩
    · rw [if_pos Nat.one_pos, hpair, copyChars_zero, List.append_nil, hpair]
    · have hlen := ih hchars hrest
      rw [if_pos (by omega), List.length_append, hlen]
      omega

end Characters

section Loops
/-- The loop leaves the characters from the start on. -/
theorem skipLoop_spec (startPos : ℕ) (src : List UInt16) (pos : ℕ) :
    characters (skipLoop true startPos src pos).1 = (characters src).drop (startPos - pos) ∧
      ((skipLoop true startPos src pos).1 ≠ [] → (skipLoop true startPos src pos).2 = max pos startPos) := by
  induction src using characters.induct generalizing pos with
  | case1 => exact ⟨List.drop_nil.symm, fun h => absurd rfl h⟩
  | case2 c =>
    rw [skipLoop]
    by_cases hpos : pos < startPos
    · rw [if_pos ⟨rfl, hpos⟩, show startPos - pos = startPos - pos - 1 + 1 by omega]
      exact ⟨List.drop_nil.symm, fun h => absurd rfl h⟩
    · rw [if_neg (fun h => hpos h.2), Nat.sub_eq_zero_of_le (not_lt.1 hpos)]
      exact ⟨rfl, fun _ => (max_eq_left (not_lt.1 hpos)).symm⟩
  | case3 c c2 src hpair ih =>
    rw [skipLoop]
    by_cases hpos : pos < startPos
    · obtain ⟨hchars, hend⟩ := ih (pos + 1)
      rw [if_pos ⟨rfl, hpos⟩, if_pos hpair, characters_pair hpair, show startPos - pos = startPos - (pos + 1) + 1 by omega,
        List.drop_succ_cons]
      exact ⟨hchars, fun h => (hend h).trans (by omega)⟩
    · rw [if_neg (fun h => hpos h.2), Nat.sub_eq_zero_of_le (not_lt.1 hpos)]
      exact ⟨rfl, fun _ => (max_eq_left (not_lt.1 hpos)).symm⟩
  | case4 c c2 src hunit ih =>
    rw [skipLoop]
    by_cases hpos : pos < startPos
    · obtain ⟨hchars, hend⟩ := ih (pos + 1)
      rw [if_pos ⟨rfl, hpos⟩, if_neg hunit, characters_unit hunit, show startPos - pos = startPos - (pos + 1) + 1 by omega,
        List.drop_succ_cons]
      exact ⟨hchars, fun h => (hend h).trans (by omega)⟩
    · rw [if_neg (fun h => hpos h.2), Nat.sub_eq_zero_of_le (not_lt.1 hpos)]
      exact ⟨rfl, fun _ => (max_eq_left (not_lt.1 hpos)).symm⟩

theorem copyLoop_eq (endPos : ℕ) (src : List UInt16) (pos room : ℕ) :
    copyLoop endPos src pos room = copyChars ((characters src).take (endPos - pos)) room := by
  induction src using characters.induct generalizing pos room with
  | case1 => rw [copyLoop, characters, List.take_nil, copyChars]
  | case2 c =>
    rw [copyLoop, characters]
    by_cases hpos : pos < endPos
    · rw [show endPos - pos = endPos - pos - 1 + 1 by omega, List.take_succ_cons, List.take_nil, copyChars]
      by_cases hroom : 0 < room
      · rw [if_pos ⟨hroom, hpos⟩, if_pos hroom]
        rfl
      · rw [if_neg (fun h => hroom h.1), if_neg hroom]
    · rw [if_neg (fun h => hpos h.2), Nat.sub_eq_zero_of_le (not_lt.1 hpos)]
      rfl
  | case3 c c2 src hpair ih =>
    rw [copyLoop, characters_pair hpair]
    by_cases hpos : pos < endPos
    · rw [show endPos - pos = endPos - (pos + 1) + 1 by omega, List.take_succ_cons, copyChars]
      by_cases hroom : 0 < room
      · rw [if_pos ⟨hroom, hpos⟩, if_pos hroom, if_pos hpair, ih]
        rfl
      · rw [if_neg (fun h => hroom h.1), if_neg hroom]
    · rw [if_neg (fun h => hpos h.2), Nat.sub_eq_zero_of_le (not_lt.1 hpos)]
      rfl
  | case4 c c2 src hunit ih =>
    rw [copyLoop, characters_unit hunit]
    by_cases hpos : pos < endPos
    · rw [show endPos - pos = endPos - (pos + 1) + 1 by omega, List.take_succ_cons, copyChars]
      by_cases hroom : 0 < room
      · rw [if_pos ⟨hroom, hpos⟩, if_pos hroom, if_neg hunit, ih]
        rfl
      · rw [if_neg (fun h => hroom h.1), if_neg hroom]
    · rw [if_neg (fun h => hpos h.2), Nat.sub_eq_zero_of_le (not_lt.1 hpos)]
      rfl

end Loops

section Substring
variable (src : List UInt16) (dstLen startPos length : UInt32)

/-- The characters from the start on that the sum of start and length leaves to be copied. -/
def copied : List (List UInt16) :=
  ((characters src).drop startPos.toNat).take ((startPos + length).toNat - startPos.toNat)

theorem utf16Substring_eq (hlength : length ≠ 0) :
    utf16Substring src dstLen startPos length = copyChars (copied src startPos length) (dstLen.toNat / 2) := by
  rw [utf16Substring, if_neg hlength, copied]
  dsimp only
  by_cases hroom : 0 < dstLen.toNat / 2
  · obtain ⟨hchars, hend⟩ := skipLoop_spec startPos.toNat src 0
    rw [decide_eq_true hroom, copyLoop_eq, hchars, Nat.sub_zero]
    by_cases hnil : (skipLoop true startPos.toNat src 0).1 = []
    · rw [hnil, characters, Nat.sub_zero] at hchars
      rw [← hchars, List.take_nil, List.take_nil]
    · rw [hend hnil, Nat.zero_max]
  · rw [Nat.eq_zero_of_not_pos hroom, copyChars_zero, copyLoop_eq, copyChars_zero]

theorem copied_of_fits (h : startPos.toNat + length.toNat < 2 ^ 32) :
    copied src startPos length = ((characters src).drop startPos.toNat).take length.toNat := by
  rw [copied, UInt32.toNat_add, Nat.mod_eq_of_lt h, Nat.add_sub_cancel_left]

theorem copied_of_wraps (h : 2 ^ 32 ≤ startPos.toNat + length.toNat) : copied src startPos length = [] := by
  have hstart := startPos.toNat_lt
  have hlength := length.toNat_lt
  rw [copied, UInt32.toNat_add, Nat.mod_eq_sub_mod h, Nat.mod_eq_of_lt (by omega), Nat.sub_eq_zero_of_le
    (by omega), List.take_zero]

/-- No character begins in the last unit of the destination and ends behind it. And if the sum of start
and length wraps, then there is nothing to copy, or no room for it. -/
def SubstringSafe : Prop :=
  let chars := ((characters src).drop startPos.toNat).take length.toNat
  if startPos.toNat + length.toNat < 2 ^ 32 then ¬ Straddles chars (dstLen.toNat / 2)
  else ∀ ch ∈ chars.head?, dstLen.toNat / 2 < ch.length

/-- The characters that are asked for are stored, as far as they fit, and nothing beyond the destination,
exactly if no character straddles the end of the destination and the sum does not wrap. -/
theorem utf16Substring_right_iff :
    utf16Substring src dstLen startPos length =
        substring src (dstLen.toNat / 2) startPos.toNat length.toNat ∧
      (utf16Substring src dstLen startPos length).length ≤ dstLen.toNat / 2 ↔
    SubstringSafe src dstLen startPos length := by
  have hlengths : ∀ ch ∈ ((characters src).drop startPos.toNat).take length.toNat,
      ch.length = 1 ∨ ch.length = 2 := fun ch hch =>
    characters_length src ch (List.mem_of_mem_drop (List.mem_of_mem_take hch))
  have hclip := clip_length_le (((characters src).drop startPos.toNat).take length.toNat) (dstLen.toNat / 2)
  rw [SubstringSafe]
  by_cases hzero : length = 0
  · have hlength : length.toNat = 0 := by
      rw [hzero]
      rfl
    have hfits : startPos.toNat + length.toNat < 2 ^ 32 := by
      rw [hlength]
      exact startPos.toNat_lt
    rw [utf16Substring, if_pos hzero, substring, if_pos hfits, hlength, List.take_zero]
    refine ⟨fun _ => ?_, fun _ => ⟨rfl, Nat.zero_le _⟩⟩
    rintro ⟨front, ch, back, hnil, -⟩
    exact absurd hnil.symm (List.append_ne_nil_of_right_ne_nil _ (List.cons_ne_nil _ _))
  rw [utf16Substring_eq src dstLen startPos length hzero, substring]
  by_cases hfits : startPos.toNat + length.toNat < 2 ^ 32
  · rw [copied_of_fits src startPos length hfits, if_pos hfits]
    constructor
    · rintro ⟨-, hle⟩ hstraddles
      rw [copyChars_straddles hlengths hstraddles] at hle
      omega
    · intro hwhole
      rw [copyChars_eq hlengths hwhole]
      exact ⟨rfl, hclip⟩
  · rw [copied_of_wraps src startPos length (not_lt.1 hfits), if_neg hfits]
    cases hchars : ((characters src).drop startPos.toNat).take length.toNat with
    | nil =>
      refine ⟨fun _ ch hch => ?_, fun _ => ⟨rfl, Nat.zero_le _⟩⟩
      cases hch
    | cons ch chars =>
      rw [hchars] at hlengths
      have hch := hlengths ch List.mem_cons_self
      rw [clip, List.head?_cons]
      constructor
      · rintro ⟨hnil, -⟩ _ ⟨⟩
        by_contra hroom
        rw [if_pos (not_lt.1 hroom)] at hnil
        have hempty := (List.append_eq_nil_iff.1 hnil.symm).1
        rw [hempty] at hch
        exact absurd hch (by decide)
      · intro hroom
        rw [if_neg (not_le.2 (hroom ch rfl))]
        exact ⟨rfl, Nat.zero_le _⟩

/-- A pair is stored in a destination of one unit, and a length up to the end of the string copies nothing
where it makes the sum wrap. -/
theorem utf16Substring_wrong :
    (utf16Substring [0xD83D, 0xDE00] 2 0 1 = [0xD83D, 0xDE00] ∧
      ¬ (utf16Substring [0xD83D, 0xDE00] 2 0 1).length ≤ 1) ∧
    utf16Substring [0x61, 0x62] 4 1 0xFFFFFFFF ≠ substring [0x61, 0x62] 2 1 0xFFFFFFFF := by
  decide +kernel

end Substring

end FirebirdCore.Intl
