import Mathlib.Data.List.Basic

/-!
# Character encodings

An encoding writes each character as some code units and can read the first character of a text.
`Converts` says how a text is rewritten, character by character, as long as there is room for the
characters and they can be read; what a conversion does as a whole follows from it by induction.
-/
namespace FirebirdCore.Transcode

/-- Characters are numbers. `decode` reads the first one of a text and leaves the rest. -/
structure Encoding (α : Type*) where
  Valid : ℕ → Prop
  encode : ℕ → List α
  decode : List α → Option (ℕ × List α)
  encode_ne_nil : ∀ c, encode c ≠ []
  decode_iff : ∀ s c rest, decode s = some (c, rest) ↔ Valid c ∧ s = encode c ++ rest

/-- Why a conversion ends before the end of the text. -/
inductive Stop where
  | truncation
  | badInput
  deriving DecidableEq, Repr

variable {α β : Type*} {E E' : Encoding α} {enc : ℕ → List β} {s rest left : List α} {c room : ℕ}
  {dst : List β} {stop : Option Stop} {cs : List ℕ}

namespace Encoding

def text (E : Encoding α) (cs : List ℕ) : List α := cs.flatMap E.encode

theorem text_cons (E : Encoding α) (c : ℕ) (cs : List ℕ) : E.text (c :: cs) = E.encode c ++ E.text cs :=
  List.flatMap_cons

theorem decode_encode (hc : E.Valid c) (rest : List α) : E.decode (E.encode c ++ rest) = some (c, rest) :=
  (E.decode_iff _ _ _).2 ⟨hc, rfl⟩

theorem decode_nil (E : Encoding α) : E.decode [] = none := by
  rw [Option.eq_none_iff_forall_ne_some]
  intro r hr
  obtain ⟨-, hnil⟩ := (E.decode_iff _ _ _).1 hr
  exact E.encode_ne_nil _ (List.append_eq_nil_iff.1 hnil.symm).1

/-- What is read is shorter, so a loop over the text ends. -/
theorem decode_length (h : E.decode s = some (c, rest)) : rest.length < s.length := by
  obtain ⟨-, rfl⟩ := (E.decode_iff _ _ _).1 h
  have hpos := List.length_pos_iff.2 (E.encode_ne_nil c)
  rw [List.length_append]
  omega

theorem ne_nil_of_decode (h : E.decode s = some (c, rest)) : s ≠ [] := by
  rintro rfl
  rw [decode_nil] at h
  cases h

theorem text_eq_nil (h : E.text cs = []) : cs = [] := by
  cases cs with
  | nil => rfl
  | cons c cs =>
    rw [text_cons] at h
    exact absurd (List.append_eq_nil_iff.1 h).1 (E.encode_ne_nil c)

end Encoding

/-- The text `s` is converted for a destination with this room: what is written, why it stopped, and
what of the text is left. -/
inductive Converts (E : Encoding α) (enc : ℕ → List β) :
    List α → ℕ → List β → Option Stop → List α → Prop
  | done (room : ℕ) : Converts E enc [] room [] none []
  | full {s : List α} (hs : s ≠ []) : Converts E enc s 0 [] (some .truncation) s
  | bad {s : List α} {room : ℕ} (hs : s ≠ []) (hroom : 0 < room) (hread : E.decode s = none) :
      Converts E enc s room [] (some .badInput) s
  | short {s rest : List α} {room c : ℕ} (hread : E.decode s = some (c, rest)) (hroom : 0 < room)
      (hshort : room < (enc c).length) : Converts E enc s room [] (some .truncation) s
  | char {s rest left : List α} {room c : ℕ} {dst : List β} {stop : Option Stop}
      (hread : E.decode s = some (c, rest)) (hfits : (enc c).length ≤ room)
      (hrest : Converts E enc rest (room - (enc c).length) dst stop left) :
      Converts E enc s room (enc c ++ dst) stop left

/-- The next character is the reason for the end. -/
def Ends (E : Encoding α) (enc : ℕ → List β) (left : List α) (room : ℕ) : Option Stop → Prop
  | none => left = []
  | some .badInput => left ≠ [] ∧ 0 < room ∧ E.decode left = none
  | some .truncation =>
      left ≠ [] ∧ (room = 0 ∨ ∃ c rest, E.decode left = some (c, rest) ∧ room < (enc c).length)

namespace Converts

/-- What was written are the characters in front of what is left. -/
theorem characters (h : Converts E enc s room dst stop left) :
    ∃ cs, (∀ c ∈ cs, E.Valid c) ∧ s = E.text cs ++ left ∧ dst = cs.flatMap enc ∧ dst.length ≤ room ∧
      Ends E enc left (room - dst.length) stop := by
  induction h with
  | done room => exact ⟨[], List.forall_mem_nil _, rfl, rfl, Nat.zero_le _, rfl⟩
  | full hs => exact ⟨[], List.forall_mem_nil _, rfl, rfl, Nat.le_refl _, hs, .inl rfl⟩
  | bad hs hroom hread => exact ⟨[], List.forall_mem_nil _, rfl, rfl, Nat.zero_le _, hs, hroom, hread⟩
  | short hread hroom hshort =>
    exact ⟨[], List.forall_mem_nil _, rfl, rfl, Nat.zero_le _, Encoding.ne_nil_of_decode hread,
      .inr ⟨_, _, hread, hshort⟩⟩
  | @char s rest left room c dst stop hread hfits hrest ih =>
    obtain ⟨cs, hvalid, rfl, rfl, hroom, hends⟩ := ih
    obtain ⟨hc, rfl⟩ := (E.decode_iff _ _ _).1 hread
    refine ⟨c :: cs, List.forall_mem_cons.2 ⟨hc, hvalid⟩, ?_, List.flatMap_cons.symm, ?_, ?_⟩
    · rw [Encoding.text_cons, List.append_assoc]
    · rw [List.length_append]
      omega
    · rwa [List.length_append, ← Nat.sub_sub]

/-- If there is room for all the characters then all of them are converted. -/
theorem complete (h : Converts E enc (E.text cs) room dst stop left) (hvalid : ∀ c ∈ cs, E.Valid c)
    (henc : ∀ c ∈ cs, enc c ≠ []) (hroom : (cs.flatMap enc).length ≤ room) :
    dst = cs.flatMap enc ∧ stop = none := by
  generalize hs : E.text cs = s at h
  induction h generalizing cs with
  | done room =>
    obtain rfl := Encoding.text_eq_nil hs
    exact ⟨rfl, rfl⟩
  | full hne =>
    obtain ⟨c, cs, rfl⟩ := List.exists_cons_of_ne_nil fun hnil : cs = [] => hne (hs ▸ hnil ▸ rfl)
    have hpos := List.length_pos_iff.2 (henc c List.mem_cons_self)
    rw [List.flatMap_cons, List.length_append] at hroom
    omega
  | bad hne hpos hread =>
    obtain ⟨c, cs, rfl⟩ := List.exists_cons_of_ne_nil fun hnil : cs = [] => hne (hs ▸ hnil ▸ rfl)
    rw [← hs, Encoding.text_cons, Encoding.decode_encode (hvalid c List.mem_cons_self)] at hread
    cases hread
  | short hread hpos hshort =>
    cases cs with
    | nil =>
      rw [← hs] at hread
      exact absurd rfl (Encoding.ne_nil_of_decode hread)
    | cons c cs =>
      rw [← hs, Encoding.text_cons, Encoding.decode_encode (hvalid c List.mem_cons_self)] at hread
      cases hread
      rw [List.flatMap_cons, List.length_append] at hroom
      omega
  | char hread hfits hrest ih =>
    cases cs with
    | nil =>
      rw [← hs] at hread
      exact absurd rfl (Encoding.ne_nil_of_decode hread)
    | cons c cs =>
      rw [← hs, Encoding.text_cons, Encoding.decode_encode (hvalid c List.mem_cons_self)] at hread
      cases hread
      rw [List.flatMap_cons, List.length_append] at hroom
      obtain ⟨rfl, hstop⟩ := ih (List.forall_mem_cons.1 hvalid).2 (List.forall_mem_cons.1 henc).2
        (by omega) rfl
      exact ⟨List.flatMap_cons.symm, hstop⟩

/-- Two encodings that read a text in the same way. -/
theorem congr {P : List α → Prop} (h : Converts E enc s room dst stop left)
    (hsame : ∀ s, P s → E'.decode s = E.decode s)
    (hkept : ∀ s c rest, P s → E.decode s = some (c, rest) → P rest) (hs : P s) :
    Converts E' enc s room dst stop left := by
  induction h with
  | done room => exact .done room
  | full hne => exact .full hne
  | bad hne hroom hread => exact .bad hne hroom ((hsame _ hs).trans hread)
  | short hread hroom hshort => exact .short ((hsame _ hs).trans hread) hroom hshort
  | char hread hfits hrest ih => exact .char ((hsame _ hs).trans hread) hfits (ih (hkept _ _ _ hs hread))

end Converts

/-! ## Checking a text -/

/-- The text is read to its end, or to a character that cannot be read. -/
inductive Checks (E : Encoding α) : List α → List α → Prop
  | done : Checks E [] []
  | bad {s : List α} (hs : s ≠ []) (hread : E.decode s = none) : Checks E s s
  | char {s rest left : List α} {c : ℕ} (hread : E.decode s = some (c, rest))
      (hrest : Checks E rest left) : Checks E s left

theorem Checks.characters (h : Checks E s left) : ∃ cs, (∀ c ∈ cs, E.Valid c) ∧ s = E.text cs ++ left ∧
    E.decode left = none := by
  induction h with
  | done => exact ⟨[], List.forall_mem_nil _, rfl, E.decode_nil⟩
  | bad hs hread => exact ⟨[], List.forall_mem_nil _, rfl, hread⟩
  | @char s rest left c hread hrest ih =>
    obtain ⟨cs, hvalid, rfl, hleft⟩ := ih
    obtain ⟨hc, rfl⟩ := (E.decode_iff _ _ _).1 hread
    refine ⟨c :: cs, List.forall_mem_cons.2 ⟨hc, hvalid⟩, ?_, hleft⟩
    rw [Encoding.text_cons, List.append_assoc]

theorem Checks.complete (h : Checks E (E.text cs) left) (hvalid : ∀ c ∈ cs, E.Valid c) : left = [] := by
  generalize hs : E.text cs = s at h
  induction h generalizing cs with
  | done => rfl
  | bad hne hread =>
    obtain ⟨c, cs, rfl⟩ := List.exists_cons_of_ne_nil fun hnil : cs = [] => hne (hs ▸ hnil ▸ rfl)
    rw [← hs, Encoding.text_cons, Encoding.decode_encode (hvalid c List.mem_cons_self)] at hread
    cases hread
  | char hread hrest ih =>
    cases cs with
    | nil =>
      rw [← hs] at hread
      exact absurd rfl (Encoding.ne_nil_of_decode hread)
    | cons c cs =>
      rw [← hs, Encoding.text_cons, Encoding.decode_encode (hvalid c List.mem_cons_self)] at hread
      cases hread
      exact ih (List.forall_mem_cons.1 hvalid).2 rfl

/-- The check stops at once if and only if the first character cannot be read. -/
theorem Checks.stops_iff (h : Checks E s left) : left = s ↔ E.decode s = none := by
  cases h with
  | done => exact ⟨fun _ => E.decode_nil, fun _ => rfl⟩
  | bad hs hread => exact ⟨fun _ => hread, fun _ => rfl⟩
  | char hread hrest =>
    refine ⟨?_, fun hnone => absurd (hnone.symm.trans hread) (Option.some_ne_none _).symm⟩
    rintro rfl
    obtain ⟨cs, -, hrest, -⟩ := hrest.characters
    have hlength := Encoding.decode_length hread
    rw [hrest, List.length_append] at hlength
    omega

/-! ## Lengths -/

theorem length_text_le (E : Encoding α) {k : ℕ} (h : ∀ c, (enc c).length ≤ k * (E.encode c).length)
    (cs : List ℕ) : (cs.flatMap enc).length ≤ k * (E.text cs).length := by
  induction cs with
  | nil => exact Nat.zero_le _
  | cons c cs ih =>
    rw [List.flatMap_cons, Encoding.text_cons, List.length_append, List.length_append, Nat.mul_add]
    exact Nat.add_le_add (h c) ih

end FirebirdCore.Transcode
