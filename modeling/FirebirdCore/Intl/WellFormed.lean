import FirebirdCore.Intl.Conversion
import Mathlib.Data.List.Chain

/-!
# Conversions of well-formed strings

The checks for well-formed strings stop at the first character that the conversions cannot read. A
string that passes the check of its encoding is unchanged by a conversion to another encoding and back.
-/
namespace FirebirdCore.Intl
open FirebirdCore.Transcode

/-! ## The checks -/

section Finds
variable {α : Type*} {E : Encoding α} {size i k c : ℕ} {s rest : List α} {offending : Option ℕ}

/-- The check of the text `s`, which starts at the unit `i`, stops where it cannot be read. -/
def Finds (E : Encoding α) (size : ℕ) (s : List α) (i : ℕ) (offending : Option ℕ) : Prop :=
  ∃ n left, n + left.length = s.length ∧ Checks E s left ∧
    offending = if left = [] then none else some ((i + n) * size)

theorem Finds.done : Finds E size [] i none := ⟨0, [], rfl, .done, rfl⟩

theorem Finds.bad (hs : s ≠ []) (hread : E.decode s = none) : Finds E size s i (some (i * size)) :=
  ⟨0, s, Nat.zero_add _, .bad hs hread, (if_neg hs).symm⟩

theorem Finds.char (h : Finds E size rest (i + k) offending) (hread : E.decode s = some (c, rest))
    (hlength : s.length = k + rest.length) : Finds E size s i offending := by
  obtain ⟨n, left, hn, hchecks, hoffending⟩ := h
  refine ⟨k + n, left, ?_, .char hread hchecks, ?_⟩
  · rw [Nat.add_assoc, hn, hlength]
  · rw [← Nat.add_assoc]
    exact hoffending

theorem Finds.none_iff (h : Finds E size s i offending) :
    offending = none ↔ ∃ cs, (∀ c ∈ cs, E.Valid c) ∧ s = E.text cs := by
  obtain ⟨n, left, -, hchecks, rfl⟩ := h
  constructor
  · intro hnone
    have hleft : left = [] := by
      by_contra hne
      rw [if_neg hne] at hnone
      cases hnone
    obtain ⟨cs, hvalid, hs, -⟩ := hchecks.characters
    refine ⟨cs, hvalid, ?_⟩
    rw [hs, hleft, List.append_nil]
  · rintro ⟨cs, hvalid, rfl⟩
    exact if_pos (hchecks.complete hvalid)

/-- The check of a text stops at once if its first character cannot be read. -/
theorem Finds.zero_iff (h : Finds E size s 0 offending) (hsize : 0 < size) :
    offending = some 0 ↔ s ≠ [] ∧ E.decode s = none := by
  obtain ⟨n, left, hn, hchecks, rfl⟩ := h
  rw [← hchecks.stops_iff]
  constructor
  · intro hzero
    split_ifs at hzero with hleft
    have hn0 := (Nat.mul_eq_zero.1 (Option.some.inj hzero)).resolve_right (Nat.ne_of_gt hsize)
    obtain ⟨cs, -, hs, -⟩ := hchecks.characters
    have hlength := congrArg List.length hs
    rw [List.length_append] at hlength
    have hnil := List.length_eq_zero_iff.1 (by omega : (E.text cs).length = 0)
    rw [hnil, List.nil_append] at hs
    exact ⟨hs ▸ hleft, hs.symm⟩
  · rintro ⟨hne, rfl⟩
    have hn0 : n = 0 := by omega
    rw [if_neg hne, hn0, Nat.add_zero, Nat.zero_mul]

end Finds

/-- `utf32WellFormed` lets these characters pass. -/
def unicodeChar : Encoding UInt32 := utf32 U_IS_UNICODE_CHAR fun c h => by
  rcases h with h | h
  · omega
  · exact h.2.1

theorem utf8WellFormedLoop_finds (fuel : ℕ) (str : List UInt8) (i : ℕ) (hfuel : str.length ≤ fuel) :
    Finds utf8 1 str i (utf8WellFormedLoop fuel str i) := by
  fun_induction utf8WellFormedLoop fuel str i
  case case1 str i =>
    obtain rfl := List.length_eq_zero_iff.1 (Nat.le_zero.1 hfuel)
    exact .done
  case case2 => exact .done
  case case3 fuel c str i hascii ih =>
    exact (ih (Nat.le_of_succ_le_succ hfuel)).char (if_pos hascii) (Nat.add_comm _ _)
  case case4 fuel c str i hascii hnext =>
    have hread : utf8.decode (c :: str) = none := (if_neg hascii).trans hnext
    have hbad : Finds utf8 1 (c :: str) i (some (i * 1)) := .bad (List.cons_ne_nil c str) hread
    rwa [Nat.mul_one] at hbad
  case case5 fuel c str i hascii ch rest hnext ih =>
    have hread : utf8.decode (c :: str) = some (ch, rest) := (if_neg hascii).trans hnext
    have hshorter := Encoding.decode_length hread
    rw [List.length_cons] at hfuel hshorter
    rw [Nat.add_assoc] at ih ⊢
    refine (ih (by omega)).char hread ?_
    rw [List.length_cons]
    omega

theorem utf16WellFormedLoop_finds (str : List UInt16) (i : ℕ) :
    Finds (utf16 false) 2 str i (utf16WellFormedLoop str i) := by
  fun_induction utf16WellFormedLoop str i
  case case1 => exact .done
  case case2 c i hsurrogate =>
    refine .bad (List.cons_ne_nil _ _) (read_surrogate ((surrogate_iff _).2 hsurrogate) ?_)
    rintro _ ⟨⟩
  case case3 c i hwhole =>
    exact Finds.done.char (read_whole (mt (surrogate_iff _).1 hwhole)) rfl
  case case4 c c2 str i hpair ih => exact ih.char (read_pair hpair.1 hpair.2) (Nat.add_comm str.length 2)
  case case5 c c2 str i hpair hsurrogate =>
    refine .bad (List.cons_ne_nil _ _) (read_surrogate ((surrogate_iff _).2 hsurrogate) ?_)
    rintro _ ⟨⟩
    exact hpair
  case case6 c c2 str i hpair hwhole ih =>
    exact ih.char (read_whole (mt (surrogate_iff _).1 hwhole)) (Nat.add_comm _ _)

theorem utf32WellFormedLoop_finds (str : List UInt32) (i : ℕ) :
    Finds unicodeChar 4 str i (utf32WellFormedLoop str i) := by
  fun_induction utf32WellFormedLoop str i
  case case1 => exact .done
  case case2 c str i hchar => exact .bad (List.cons_ne_nil _ _) (if_neg hchar)
  case case3 c str i hchar ih => exact ih.char (if_pos (not_not.1 hchar)) (Nat.add_comm _ _)

/-! ## What is converted -/

section Converted
variable {α β : Type*} {E E' : Encoding α} {F : Encoding β} {enc : ℕ → List β} {check : List α → Option ℕ}
  {size room : ℕ} {told : Prop} {src : List α} {r : Conversion β} {cs : List ℕ}

/-- The destination has the characters `cs` from the front of the source, and `left` is left of it. The
conversion ends at a character that is malformed for the check, unless the destination is full or is too
short for the character. -/
structure Characters (E : Encoding α) (enc : ℕ → List β) (check : List α → Option ℕ) (src : List α)
    (room : ℕ) (r : Conversion β) (cs : List ℕ) (left : List α) : Prop where
  valid : ∀ c ∈ cs, E.Valid c
  text : src = E.text cs ++ left
  dst : r.dst = cs.flatMap enc
  fits : r.dst.length ≤ room
  whole : r.errCode = none ↔ left = []
  badInput : r.errCode = some .badInput ↔ r.dst.length < room ∧ check left = some 0
  truncation : r.errCode = some .truncation ↔ left ≠ [] ∧ (r.dst.length = room ∨
    ∃ c rest, E.Valid c ∧ left = E.encode c ++ rest ∧ room < r.dst.length + (enc c).length)

/-- The conversion of as many characters as possible. `told` is when `errPosition` is their length. -/
def Converted (E : Encoding α) (enc : ℕ → List β) (check : List α → Option ℕ) (size : ℕ) (told : Prop)
    (src : List α) (room : ℕ) (r : Conversion β) : Prop :=
  ∃ cs left, Characters E enc check src room r cs left ∧
    (told → r.errPosition = some ((E.text cs).length * size))

theorem Characters.of_ends {left : List α} (hvalid : ∀ c ∈ cs, E.Valid c) (htext : src = E.text cs ++ left)
    (hdst : r.dst = cs.flatMap enc) (hfits : r.dst.length ≤ room)
    (hends : Ends E enc left (room - r.dst.length) (r.errCode.map ErrCode.stop))
    (hcheck : check left = some 0 ↔ left ≠ [] ∧ E.decode left = none) :
    Characters E enc check src room r cs left := by
  cases herr : r.errCode with
  | none =>
    rw [herr] at hends
    obtain rfl : left = [] := hends
    refine ⟨hvalid, htext, hdst, hfits, iff_of_true herr rfl, ?_, ?_⟩
    · rw [herr, hcheck]
      exact iff_of_false (by decide) fun h => h.2.1 rfl
    · rw [herr]
      exact iff_of_false (by decide) fun h => h.1 rfl
  | some errCode =>
    cases errCode with
    | badInput =>
      rw [herr] at hends
      obtain ⟨hne, hpos, hread⟩ := hends
      refine ⟨hvalid, htext, hdst, hfits, ?_, ?_, ?_⟩
      · rw [herr]
        exact iff_of_false (by decide) hne
      · exact iff_of_true herr ⟨Nat.lt_of_sub_pos hpos, hcheck.2 ⟨hne, hread⟩⟩
      · rw [herr]
        refine iff_of_false (by decide) fun ⟨_, h⟩ => ?_
        rcases h with hfull | ⟨c, rest, hc, rfl, -⟩
        · omega
        · rw [Encoding.decode_encode hc] at hread
          cases hread
    | truncation =>
      rw [herr] at hends
      obtain ⟨hne, hends⟩ := hends
      refine ⟨hvalid, htext, hdst, hfits, ?_, ?_, iff_of_true herr ⟨hne, ?_⟩⟩
      · rw [herr]
        exact iff_of_false (by decide) hne
      · rw [herr, hcheck]
        refine iff_of_false (by decide) fun ⟨hlt, _, hnone⟩ => ?_
        rcases hends with hfull | ⟨c, rest, hread, -⟩
        · omega
        · rw [hread] at hnone
          cases hnone
      · rcases hends with hfull | ⟨c, rest, hread, hshort⟩
        · exact .inl (by omega)
        · obtain ⟨hc, hleft⟩ := (E.decode_iff _ _ _).1 hread
          exact .inr ⟨c, rest, hc, hleft, by omega⟩

/-- A loop that follows the rules of a conversion converts what it can. -/
theorem Follows.converted (h : Follows E enc size told src 0 room r)
    (hcheck : ∀ s, check s = some 0 ↔ s ≠ [] ∧ E.decode s = none) :
    Converted E enc check size told src room r := by
  obtain ⟨n, left, hn, hconverts, hposition⟩ := h
  obtain ⟨cs, hvalid, htext, hdst, hfits, hends⟩ := hconverts.characters
  refine ⟨cs, left, .of_ends hvalid htext hdst hfits hends (hcheck left), fun ht => ?_⟩
  have hlength := congrArg List.length htext
  rw [List.length_append, ← hn, Nat.add_right_cancel_iff] at hlength
  rw [hposition ht, Nat.zero_add, hlength]

/-- The encodings read the source in the same way. -/
theorem Follows.congr {P : List α → Prop} (h : Follows E enc size told src 0 room r)
    (hsame : ∀ s, P s → E'.decode s = E.decode s)
    (hkept : ∀ s c rest, P s → E.decode s = some (c, rest) → P rest) (hsrc : P src) :
    Follows E' enc size told src 0 room r := by
  obtain ⟨n, left, hn, hconverts, hposition⟩ := h
  exact ⟨n, left, hn, hconverts.congr hsame hkept hsrc, hposition⟩

theorem Follows.whole (h : Follows E enc size told (E.text cs) 0 room r) (hvalid : ∀ c ∈ cs, E.Valid c)
    (henc : ∀ c, enc c ≠ []) (hroom : (cs.flatMap enc).length ≤ room) :
    r.dst = cs.flatMap enc ∧ r.errCode = none := by
  obtain ⟨n, left, hn, hconverts, hposition⟩ := h
  obtain ⟨hdst, hstop⟩ := hconverts.complete hvalid (fun c _ => henc c) hroom
  exact ⟨hdst, Option.map_eq_none_iff.1 hstop⟩

end Converted

/-! ## Sources -/

/-- Every trail unit follows a lead unit. -/
def TrailsPaired (src : List UInt16) : Prop :=
  (0 :: src).IsChain fun a b => UTF_IS_TRAIL b.toNat → UTF_IS_LEAD a.toNat

instance (src : List UInt16) : Decidable (TrailsPaired src) := inferInstanceAs (Decidable (List.IsChain ..))

theorem TrailsPaired.same (s : List UInt16) (h : TrailsPaired s) :
    (utf16 false).decode s = (utf16 true).decode s := by
  cases s with
  | nil => rfl
  | cons c s =>
    by_cases hlead : UTF_IS_LEAD c.toNat
    · refine (utf16Decode_cons false c s).trans (Eq.trans ?_ (utf16Decode_cons true c s).symm)
      rw [if_pos hlead, if_pos hlead]
    · have htrail : ¬ UTF_IS_TRAIL c.toNat := fun htrail => by
        have hfirst := (List.isChain_cons_cons.1 h).1 htrail
        exact absurd hfirst (by decide)
      exact (read_unit hlead fun h => absurd h htrail).trans
        (read_unit hlead fun h => absurd h htrail).symm

/-- What is left behind a unit that is not a lead unit has its trail units paired as well. -/
theorem TrailsPaired.tail {a : UInt16} {s : List UInt16} (ha : ¬ UTF_IS_LEAD a.toNat)
    (h : (a :: s).IsChain fun a b => UTF_IS_TRAIL b.toNat → UTF_IS_LEAD a.toNat) : TrailsPaired s := by
  cases s with
  | nil => exact List.isChain_singleton _
  | cons b s =>
    obtain ⟨hab, hs⟩ := List.isChain_cons_cons.1 h
    exact List.isChain_cons_cons.2 ⟨fun hb => absurd (hab hb) ha, hs⟩

theorem TrailsPaired.kept (s : List UInt16) (c : ℕ) (rest : List UInt16) (h : TrailsPaired s)
    (hread : (utf16 true).decode s = some (c, rest)) : TrailsPaired rest := by
  cases s with
  | nil => cases hread
  | cons first s =>
    have htail := (List.isChain_cons_cons.1 h).2
    by_cases hlead : UTF_IS_LEAD first.toNat
    · cases s with
      | nil =>
        rw [read_lead hlead (by rintro _ ⟨⟩)] at hread
        cases hread
      | cons second s =>
        by_cases htrail : UTF_IS_TRAIL second.toNat
        · rw [read_pair hlead htrail] at hread
          obtain ⟨-, rfl⟩ := Prod.mk.inj (Option.some.inj hread)
          refine TrailsPaired.tail (fun hl => ?_) (List.isChain_cons_cons.1 htail).2
          have hbounds := lead_bounds hl
          have hbounds' := trail_bounds htrail
          omega
        · rw [read_lead hlead (by rintro _ ⟨⟩; exact htrail)] at hread
          cases hread
    · rw [read_unit hlead fun _ => rfl] at hread
      obtain ⟨-, rfl⟩ := Prod.mk.inj (Option.some.inj hread)
      exact TrailsPaired.tail hlead htail

/-- Of the numbers up to the last character all are let pass by `utf32WellFormed`. -/
def PlainChars (src : List UInt32) : Prop :=
  ∀ c ∈ src, c.toNat ≤ 0x10FFFF → U_IS_UNICODE_CHAR c.toNat

instance (src : List UInt32) : Decidable (PlainChars src) := inferInstanceAs (Decidable (∀ c ∈ src, _ → _))

theorem PlainChars.same (s : List UInt32) (h : PlainChars s) : unicodeChar.decode s = anyChar.decode s := by
  cases s with
  | nil => rfl
  | cons c s =>
    have hsame : U_IS_UNICODE_CHAR c.toNat ↔ c.toNat ≤ 0x10FFFF := by
      refine ⟨fun hc => ?_, h c List.mem_cons_self⟩
      rcases hc with hc | hc
      · omega
      · exact hc.2.1
    exact if_congr hsame rfl rfl

theorem PlainChars.kept (s : List UInt32) (c : ℕ) (rest : List UInt32) (h : PlainChars s)
    (hread : anyChar.decode s = some (c, rest)) : PlainChars rest := by
  obtain ⟨-, rfl⟩ := (anyChar.decode_iff _ _ _).1 hread
  exact fun c hc => h c (List.mem_append_right _ hc)

/-! ## There and back -/

section RoundTrips
variable {α β : Type*} {E : Encoding α} {G : Encoding β} {size size' : ℕ} {cs : List ℕ}

/-- The whole source is converted, and comes back unchanged. -/
def RoundTrips (there : List α → Conversion β) (back : List β → Conversion α) (src : List α) : Prop :=
  (there src).errCode = none ∧ (back (there src).dst).errCode = none ∧ (back (there src).dst).dst = src

theorem roundTrips_text {there : List α → Conversion β} {back : List β → Conversion α}
    {told : List α → Prop} {told' : List β → Prop} {room : List α → ℕ} {room' : List β → ℕ}
    (hthere : ∀ s, Follows E G.encode size (told s) s 0 (room s) (there s))
    (hback : ∀ s, Follows G E.encode size' (told' s) s 0 (room' s) (back s))
    (hE : ∀ c ∈ cs, E.Valid c) (hG : ∀ c ∈ cs, G.Valid c)
    (hroom : (G.text cs).length ≤ room (E.text cs)) (hroom' : (E.text cs).length ≤ room' (G.text cs)) :
    RoundTrips there back (E.text cs) := by
  obtain ⟨hdst, herr⟩ := (hthere (E.text cs)).whole hE G.encode_ne_nil hroom
  obtain ⟨hdst', herr'⟩ := (hback (G.text cs)).whole hG E.encode_ne_nil hroom'
  refine ⟨herr, ?_, ?_⟩
  · rw [hdst]
    exact herr'
  · rw [hdst]
    exact hdst'

end RoundTrips

theorem utf8Char_iff (c : ℕ) : Utf8Char c ↔ Utf16Char false c := by
  rw [Utf8Char, Utf16Char, surrogate_iff, not_or]
  simp only [Bool.false_eq_true, imp_false]

theorem length_utf16Encode (c : ℕ) : (utf16Encode c).length = if c ≤ 0xFFFF then 1 else 2 := by
  rw [utf16Encode]
  split_ifs <;> rfl

theorem length_utf8_le (c : ℕ) : (U8_APPEND_UNSAFE c).length ≤ 4 * (utf16Encode c).length := by
  have hbytes : (U8_APPEND_UNSAFE c).length ≤ 4 := by
    rw [U8_APPEND_UNSAFE]
    split_ifs <;> simp
  have hunits := List.length_pos_iff.2 (utf16Encode_ne_nil c)
  omega

theorem length_utf16_le (c : ℕ) : (utf16Encode c).length ≤ 1 * (U8_APPEND_UNSAFE c).length := by
  rw [length_utf16Encode]
  split_ifs with hlow
  · have hpos := List.length_pos_iff.2 (U8_APPEND_UNSAFE_ne_nil c)
    omega
  · rw [U8_APPEND_UNSAFE, if_neg (by omega), if_neg (by omega), if_neg hlow]
    simp

theorem length_utf32_le (c : ℕ) : (utf32Encode c).length ≤ 1 * (utf16Encode c).length := by
  have hunits := List.length_pos_iff.2 (utf16Encode_ne_nil c)
  rw [Nat.one_mul]
  exact hunits

theorem length_utf16_le_two (c : ℕ) : (utf16Encode c).length ≤ 2 * (utf32Encode c).length := by
  rw [length_utf16Encode, utf32Encode, List.length_singleton]
  split_ifs <;> decide

theorem utf16_utf8_utf16 {src : List UInt16} (h : utf16WellFormed src = none) :
    RoundTrips (fun s => utf16ToUtf8 s (utf16ToUtf8Length (s.length * 2)))
      (fun s => utf8ToUtf16 s (utf8ToUtf16Length s.length)) src := by
  obtain ⟨cs, hvalid, rfl⟩ := (utf16WellFormedLoop_finds src 0).none_iff.1 h
  have hthere := length_text_le (utf16 false) length_utf8_le cs
  have hback := length_text_le utf8 length_utf16_le cs
  refine roundTrips_text (G := utf8) (fun s => utf16ToUtf8Loop_follows s 0 _ none)
    (fun s => utf8ToUtf16Loop_follows s.length s 0 _ none le_rfl) hvalid
    (fun c hc => (utf8Char_iff c).2 (hvalid c hc)) ?_ ?_
  · rw [utf16ToUtf8Length]
    exact hthere.trans (by omega)
  · rw [utf8ToUtf16Length]
    exact hback.trans (by omega)

theorem utf8_utf16_utf8 {src : List UInt8} (h : utf8WellFormed src = none) :
    RoundTrips (fun s => utf8ToUtf16 s (utf8ToUtf16Length s.length))
      (fun s => utf16ToUtf8 s (utf16ToUtf8Length (s.length * 2))) src := by
  obtain ⟨cs, hvalid, rfl⟩ := (utf8WellFormedLoop_finds src.length src 0 le_rfl).none_iff.1 h
  have hthere := length_text_le utf8 length_utf16_le cs
  have hback := length_text_le (utf16 false) length_utf8_le cs
  refine roundTrips_text (G := utf16 false) (fun s => utf8ToUtf16Loop_follows s.length s 0 _ none le_rfl)
    (fun s => utf16ToUtf8Loop_follows s 0 _ none) hvalid (fun c hc => (utf8Char_iff c).1 (hvalid c hc)) ?_ ?_
  · rw [utf8ToUtf16Length]
    exact hthere.trans (by omega)
  · rw [utf16ToUtf8Length]
    exact hback.trans (by omega)

theorem utf16_utf32_utf16 {src : List UInt16} (h : utf16WellFormed src = none) :
    RoundTrips (fun s => utf16ToUtf32 s (utf16ToUtf32Length (s.length * 2)))
      (fun s => utf32ToUtf16 s (utf32ToUtf16Length (s.length * 4))) src := by
  obtain ⟨cs, hvalid, rfl⟩ := (utf16WellFormedLoop_finds src 0).none_iff.1 h
  have hthere := length_text_le (utf16 true) length_utf32_le cs
  have hback := length_text_le anyChar length_utf16_le_two cs
  refine roundTrips_text (E := utf16 true) (G := anyChar) (fun s => utf16ToUtf32Loop_follows s 0 _)
    (fun s => utf32ToUtf16Loop_follows s 0 _) (fun c hc => ?_) (fun c hc => (hvalid c hc).1) ?_ ?_
  · obtain ⟨hhigh, hlead, -⟩ := hvalid c hc
    exact ⟨hhigh, hlead, fun _ => rfl⟩
  · rw [utf16ToUtf32Length]
    exact hthere.trans (by omega)
  · rw [utf32ToUtf16Length]
    exact hback.trans (by omega)

theorem utf32_utf16_utf32 {src : List UInt32} (h : utf32WellFormed src = none) :
    RoundTrips (fun s => utf32ToUtf16 s (utf32ToUtf16Length (s.length * 4)))
      (fun s => utf16ToUtf32 s (utf16ToUtf32Length (s.length * 2))) src := by
  obtain ⟨cs, hvalid, rfl⟩ := (utf32WellFormedLoop_finds src 0).none_iff.1 h
  have hthere := length_text_le anyChar length_utf16_le_two cs
  have hback := length_text_le (utf16 true) length_utf32_le cs
  have hchar : ∀ c ∈ cs, c ≤ 0x10FFFF ∧ ¬ UTF_IS_LEAD c := by
    intro c hc
    rw [UTF_IS_LEAD]
    rcases hvalid c hc with hlow | ⟨hlow, hhigh, -⟩ <;> omega
  refine roundTrips_text (E := anyChar) (G := utf16 true) (fun s => utf32ToUtf16Loop_follows s 0 _)
    (fun s => utf16ToUtf32Loop_follows s 0 _) (fun c hc => (hchar c hc).1)
    (fun c hc => ⟨(hchar c hc).1, (hchar c hc).2, fun _ => rfl⟩) ?_ ?_
  · rw [utf32ToUtf16Length]
    exact hthere.trans (by omega)
  · rw [utf16ToUtf32Length]
    exact hback.trans (by omega)

/-! ## The conversions -/

theorem utf16WellFormed_zero_iff (s : List UInt16) :
    utf16WellFormed s = some 0 ↔ s ≠ [] ∧ (utf16 false).decode s = none :=
  (utf16WellFormedLoop_finds s 0).zero_iff Nat.two_pos

theorem utf8WellFormed_zero_iff (s : List UInt8) :
    utf8WellFormed s = some 0 ↔ s ≠ [] ∧ utf8.decode s = none :=
  (utf8WellFormedLoop_finds s.length s 0 le_rfl).zero_iff Nat.one_pos

theorem utf32WellFormed_zero_iff (s : List UInt32) :
    utf32WellFormed s = some 0 ↔ s ≠ [] ∧ unicodeChar.decode s = none :=
  (utf32WellFormedLoop_finds s 0).zero_iff (by decide)

/-- Each conversion converts as many characters as possible, and a well-formed string comes back
unchanged from another encoding. -/
theorem conversions_convert :
    (∀ src dstLen, let r := utf16ToUtf8 src dstLen
      Converted (utf16 false) U8_APPEND_UNSAFE utf16WellFormed 2 (r.errCode ≠ none) src dstLen r) ∧
    (∀ src dstLen, let r := utf8ToUtf16 src dstLen
      Converted utf8 utf16Encode utf8WellFormed 1 (r.errCode ≠ none) src (dstLen / 2) r) ∧
    (∀ src dstLen, TrailsPaired src → let r := utf16ToUtf32 src dstLen
      Converted (utf16 false) utf32Encode utf16WellFormed 2 True src (dstLen / 4) r) ∧
    (∀ src dstLen, PlainChars src → let r := utf32ToUtf16 src dstLen
      Converted unicodeChar utf16Encode utf32WellFormed 4
        (r.errCode = some .truncation → r.dst.length = dstLen / 2) src (dstLen / 2) r) ∧
    (∀ src, utf16WellFormed src = none →
      RoundTrips (fun s => utf16ToUtf8 s (utf16ToUtf8Length (s.length * 2)))
        (fun s => utf8ToUtf16 s (utf8ToUtf16Length s.length)) src ∧
      RoundTrips (fun s => utf16ToUtf32 s (utf16ToUtf32Length (s.length * 2)))
        (fun s => utf32ToUtf16 s (utf32ToUtf16Length (s.length * 4))) src) ∧
    (∀ src, utf8WellFormed src = none →
      RoundTrips (fun s => utf8ToUtf16 s (utf8ToUtf16Length s.length))
        (fun s => utf16ToUtf8 s (utf16ToUtf8Length (s.length * 2))) src) ∧
    ∀ src, utf32WellFormed src = none →
      RoundTrips (fun s => utf32ToUtf16 s (utf32ToUtf16Length (s.length * 4)))
        (fun s => utf16ToUtf32 s (utf16ToUtf32Length (s.length * 2))) src := by
  refine ⟨fun src dstLen => ?_, fun src dstLen => ?_, fun src dstLen hsrc => ?_, fun src dstLen hsrc => ?_,
    fun src h => ⟨utf16_utf8_utf16 h, utf16_utf32_utf16 h⟩, fun src h => utf8_utf16_utf8 h,
    fun src h => utf32_utf16_utf32 h⟩
  · exact (utf16ToUtf8Loop_follows src 0 dstLen none).converted utf16WellFormed_zero_iff
  · exact (utf8ToUtf16Loop_follows src.length src 0 (dstLen / 2) none le_rfl).converted
      utf8WellFormed_zero_iff
  · have hfollows := (utf16ToUtf32Loop_follows src 0 (dstLen / 4)).congr TrailsPaired.same TrailsPaired.kept
      hsrc
    exact hfollows.converted utf16WellFormed_zero_iff
  · have hfollows := (utf32ToUtf16Loop_follows src 0 (dstLen / 2)).congr PlainChars.same PlainChars.kept hsrc
    exact hfollows.converted utf32WellFormed_zero_iff

/-- A pair of units, for which there is room. -/
theorem conversions_convert_pair : TrailsPaired [0xD83D, 0xDE00] ∧
    Converted (utf16 false) utf32Encode utf16WellFormed 2 True [0xD83D, 0xDE00] (4 / 4)
      (utf16ToUtf32 [0xD83D, 0xDE00] 4) := by
  have hsrc : TrailsPaired [0xD83D, 0xDE00] := by decide
  exact ⟨hsrc, conversions_convert.2.2.1 _ 4 hsrc⟩

/-- A malformed character is not seen if the destination is full, and the end of a source that was
converted is not told. -/
theorem utf16ToUtf8_full_and_whole : (utf16ToUtf8 [0xD800] 0).errCode = some .truncation ∧
    utf16WellFormed [0xD800] = some 0 ∧ utf16ToUtf8 [0x41] 4 = ⟨[0x41], none, none⟩ := by
  decide +kernel

end FirebirdCore.Intl
