import FirebirdCore.Intl.AttributeText

/-!
# Generated attributes

What is generated for a map is read back as the map, if no name is empty.
-/
namespace FirebirdCore.Intl
open Lib.Machine

namespace CharSet

variable {cs : CharSet} {enc : ℕ → List UInt8} {P : ℕ → Prop}

/-! ## Characters -/

/-- The characters that are escaped. -/
def NeedsEscape (c : ℕ) : Prop := c = 0x5C ∨ c = 0x3D ∨ c = 0x3B

instance decidableNeedsEscape (c : ℕ) : Decidable (NeedsEscape c) := inferInstanceAs (Decidable (_ ∨ _))

/-- The text with its escapes. -/
def escaped (text : List ℕ) : List ℕ := text.flatMap fun c => if NeedsEscape c then [0x5C, c] else [c]

theorem escaped_cons (c : ℕ) (text : List ℕ) :
    escaped (c :: text) = (if NeedsEscape c then [0x5C, c] else [c]) ++ escaped text := List.flatMap_cons

theorem P_escaped (h : cs.Exact enc P) {text : List ℕ} (htext : ∀ c ∈ text, P c) :
    ∀ c ∈ escaped text, P c := by
  intro c hc
  unfold escaped at hc
  obtain ⟨c', hc', hmem⟩ := List.mem_flatMap.1 hc
  split_ifs at hmem with hspecial
  · rcases List.mem_cons.1 hmem with rfl | hmem
    · exact h.special _ (by simp)
    · rw [List.mem_singleton.1 hmem]
      exact htext c' hc'
  · rw [List.mem_singleton.1 hmem]
    exact htext c' hc'

/-- A character of 16 bits is told from its Unicode text. -/
theorem utf16Encode_eq_unit {c n : ℕ} (hc : Utf8Char c) (hn : n ≤ 0x7F) :
    utf16Encode c = [UInt16.ofNat n] ↔ c = n := by
  constructor
  · intro h
    have hdecode : utf16Decode false _ = _ := utf16Decode_encode ((utf8Char_iff c).1 hc) []
    have hdecode' : utf16Decode false _ = _ :=
      utf16Decode_encode ((utf8Char_iff n).1 ⟨by omega, not_surrogate_of_ascii hn⟩) []
    rw [h] at hdecode
    rw [utf16Encode_low (by omega)] at hdecode'
    rw [hdecode] at hdecode'
    cases hdecode'
    rfl
  · rintro rfl
    exact utf16Encode_low (by omega)

/-- The reader is at the character `c` of a text. -/
structure At (cs : CharSet) (enc : ℕ → List UInt8) (c : ℕ) (rest : List ℕ) (r : Reader) : Prop where
  char : r.char = enc c
  rest : r.rest = rest.flatMap enc

theorem At.p {c : ℕ} {rest : List ℕ} {r : Reader} (h : At cs enc c rest r) :
    r.p = (c :: rest).flatMap enc := by
  rw [List.flatMap_cons, ← h.char, ← h.rest]
  exact (List.take_append_drop _ _).symm

theorem readOneChar_at (h : cs.Exact enc P) {c : ℕ} {text : List ℕ} (hc : P c)
    (htext : ∀ c ∈ text, P c) {r : Reader} (hr : r.rest = (c :: text).flatMap enc) :
    ∃ r', cs.readOneChar r = .ok (some r') ∧ At cs enc c text r' := by
  have hsubstring : cs.substring r.rest 4 0 1 = some (enc c) := by
    rw [hr]
    exact h.substring c text hc htext
  have hle : (enc c).length ≤ r.rest.length := by
    rw [hr, List.flatMap_cons, List.length_append]
    exact Nat.le_add_right _ _
  have hne : r.rest ≠ [] := by
    rw [hr, List.flatMap_cons]
    exact List.append_ne_nil_of_left_ne_nil (h.enc_ne_nil c hc) _
  refine ⟨⟨r.rest, (enc c).length, hle⟩, ?_, ?_, ?_⟩
  · unfold readOneChar
    simp only [if_neg hne, hsubstring, dif_pos hle]
  · change r.rest.take (enc c).length = _
    rw [hr, List.flatMap_cons, List.take_left]
  · change r.rest.drop (enc c).length = _
    rw [hr, List.flatMap_cons, List.drop_left]

theorem readOneChar_nil {r : Reader} (hr : r.rest = []) : cs.readOneChar r = .ok none := by
  unfold readOneChar
  rw [if_pos hr]

theorem units_at (h : cs.Exact enc P) {text : List ℕ} (htext : ∀ c ∈ text, P c)
    (hroom : 2 * (text.flatMap utf16Encode).length ≤ 4) {r : Reader}
    (hr : r.char = text.flatMap enc) : cs.units r = .ok (text.flatMap utf16Encode) := by
  unfold units
  rw [hr, h.toUnicode text htext hroom]

theorem units_char (h : cs.Exact enc P) {c : ℕ} {rest : List ℕ} (hc : P c) {r : Reader}
    (hr : At cs enc c rest r) : cs.units r = .ok (utf16Encode c) := by
  have hP : ∀ x ∈ [c], P x := List.forall_mem_singleton.2 hc
  have hroom : 2 * ([c].flatMap utf16Encode).length ≤ 4 := by
    rw [List.flatMap_singleton, length_utf16Encode]
    split_ifs <;> decide
  have hchar : r.char = [c].flatMap enc := by
    rw [List.flatMap_singleton]
    exact hr.char
  have hunits := units_at h hP hroom hchar
  rwa [List.flatMap_singleton] at hunits

theorem isAttributeEscape_at (h : cs.Exact enc P) {c : ℕ} {rest : List ℕ} (hc : P c) {r : Reader}
    (hr : At cs enc c rest r) : cs.isAttributeEscape r = .ok (decide (c = 0x5C)) := by
  have heq := utf16Encode_eq_unit (h.scalar c hc) (n := 0x5C) (by decide)
  unfold isAttributeEscape
  rw [units_char h hc hr]
  simp only [escapeChar]
  congr 2
  exact propext heq

/-- A character that is not an escape is read alone. -/
theorem readAttributeChar_at (h : cs.Exact enc P) {c : ℕ} {text : List ℕ} (hc : P c)
    (hescape : c ≠ 0x5C) (htext : ∀ c ∈ text, P c) {r : Reader} (hr : r.rest = (c :: text).flatMap enc)
    (returnEscape : Bool) :
    ∃ r', cs.readAttributeChar r returnEscape = .ok (some r') ∧ At cs enc c text r' := by
  obtain ⟨r', hread, hat⟩ := readOneChar_at h hc htext hr
  refine ⟨r', ?_, hat⟩
  unfold readAttributeChar
  simp only [hread, isAttributeEscape_at h hc hat, hescape, decide_false]

theorem readAttributeChar_nil {r : Reader} (hr : r.rest = []) (returnEscape : Bool) :
    cs.readAttributeChar r returnEscape = .ok none := by
  unfold readAttributeChar
  simp only [readOneChar_nil hr]

/-- Behind an escape the next character is read, with the escape or alone. -/
theorem readAttributeChar_escaped (h : cs.Exact enc P) {c : ℕ} {text : List ℕ} (hc : P c)
    (htext : ∀ c ∈ text, P c) {r : Reader} (hr : r.rest = (0x5C :: c :: text).flatMap enc) :
    (∃ r', cs.readAttributeChar r false = .ok (some r') ∧ At cs enc c text r') ∧
      ∃ r', cs.readAttributeChar r true = .ok (some r') ∧ r'.char = enc 0x5C ++ enc c ∧
        r'.rest = text.flatMap enc := by
  have hbackslash : P 0x5C := h.special _ (by simp)
  obtain ⟨first, hfirst, hat⟩ := readOneChar_at h hbackslash (List.forall_mem_cons.2 ⟨hc, htext⟩) hr
  have hescape := isAttributeEscape_at h hbackslash hat
  obtain ⟨second, hsecond, hat'⟩ := readOneChar_at h hc htext hat.rest
  have hp : second.p = first.rest := (readOneChar_some hsecond).2.1
  have hle : first.size + second.size ≤ first.p.length := by
    have hfirst_le := first.size_le
    have hsecond_le := second.size_le
    rw [hp, Reader.rest, List.length_drop] at hsecond_le
    omega
  constructor
  · refine ⟨second, ?_, hat'⟩
    unfold readAttributeChar
    simp only [hfirst, hescape, hsecond, decide_true, Bool.false_eq_true, if_false]
  · refine ⟨⟨first.p, first.size + second.size, hle⟩, ?_, ?_, ?_⟩
    · unfold readAttributeChar
      simp only [hfirst, hescape, hsecond, decide_true, if_true, dif_pos hle]
    · change first.p.take (first.size + second.size) = _
      rw [List.take_add, ← hat.char, ← hat'.char, Reader.char, Reader.char, hp]
      rfl
    · change first.p.drop (first.size + second.size) = _
      rw [← List.drop_drop, ← hat'.rest, Reader.rest, hp]
      rfl

/-! ## Escapes -/

theorem length_flatMap_ge (h : cs.Exact enc P) {text : List ℕ} (htext : ∀ c ∈ text, P c) :
    text.length ≤ (text.flatMap enc).length := by
  induction text with
  | nil => exact Nat.zero_le _
  | cons c text ih =>
    obtain ⟨hc, htext⟩ := List.forall_mem_cons.1 htext
    have hpos := List.length_pos_of_ne_nil (h.enc_ne_nil c hc)
    have hle := ih htext
    rw [List.flatMap_cons, List.length_append, List.length_cons]
    omega

theorem needsEscape_iff (h : cs.Exact enc P) {c : ℕ} (hc : P c) :
    (utf16Encode c = [escapeChar] ∨ utf16Encode c = [equalChar] ∨ utf16Encode c = [semiColonChar]) ↔
      NeedsEscape c := by
  have hescape := utf16Encode_eq_unit (h.scalar c hc) (n := 0x5C) (by decide)
  have hequal := utf16Encode_eq_unit (h.scalar c hc) (n := 0x3D) (by decide)
  have hsemi := utf16Encode_eq_unit (h.scalar c hc) (n := 0x3B) (by decide)
  exact or_congr hescape (or_congr hequal hsemi)

theorem fromUnicode_ascii (h : cs.Exact enc P) {c : ℕ} (hc : P c) (hascii : c ≤ 0x7F) :
    cs.fromUnicode [UInt16.ofNat c] 4 = some (enc c) := by
  rw [← utf16Encode_low (by omega)]
  exact h.fromUnicode c hc

theorem escapeLoop_eq (h : cs.Exact enc P) {text : List ℕ} (htext : ∀ c ∈ text, P c) (fuel : ℕ)
    (hfuel : text.length < fuel) (r : Reader) (hr : r.rest = text.flatMap enc) :
    cs.escapeLoop fuel r = .ok ((escaped text).flatMap enc) := by
  induction text generalizing fuel r with
  | nil =>
    obtain ⟨fuel, rfl⟩ := Nat.exists_eq_succ_of_ne_zero (Nat.ne_of_gt (Nat.zero_lt_of_lt hfuel))
    unfold escapeLoop
    simp only [readOneChar_nil hr]
    rfl
  | cons c text ih =>
    obtain ⟨fuel, rfl⟩ := Nat.exists_eq_succ_of_ne_zero (Nat.ne_of_gt (Nat.zero_lt_of_lt hfuel))
    obtain ⟨hc, htext⟩ := List.forall_mem_cons.1 htext
    obtain ⟨r', hread, hat⟩ := readOneChar_at h hc htext hr
    have hrest := ih htext fuel (Nat.lt_of_succ_lt_succ hfuel) r' hat.rest
    have hfrom : cs.fromUnicode [escapeChar] 4 = some (enc 0x5C) :=
      fromUnicode_ascii h (h.special _ (by simp)) (by decide)
    unfold escapeLoop
    simp only [hread, units_char h hc hat, hrest, needsEscape_iff h hc, hfrom, escaped_cons]
    split_ifs with hspecial
    · simp [hat.char]
    · simp [hat.char]

theorem escapeAttribute_eq (h : cs.Exact enc P) {text : List ℕ} (htext : ∀ c ∈ text, P c) :
    cs.escapeAttribute (text.flatMap enc) = .ok ((escaped text).flatMap enc) :=
  escapeLoop_eq h htext _ (Nat.lt_succ_of_le (length_flatMap_ge h htext)) _ (Reader_start_rest _)

theorem unescapeLoop_eq (h : cs.Exact enc P) {text : List ℕ} (htext : ∀ c ∈ text, P c) (fuel : ℕ)
    (hfuel : text.length < fuel) (r : Reader) (hr : r.rest = (escaped text).flatMap enc) :
    cs.unescapeLoop fuel r = .ok (text.flatMap enc) := by
  induction text generalizing fuel r with
  | nil =>
    obtain ⟨fuel, rfl⟩ := Nat.exists_eq_succ_of_ne_zero (Nat.ne_of_gt (Nat.zero_lt_of_lt hfuel))
    unfold unescapeLoop
    simp only [readAttributeChar_nil hr]
    rfl
  | cons c text ih =>
    obtain ⟨fuel, rfl⟩ := Nat.exists_eq_succ_of_ne_zero (Nat.ne_of_gt (Nat.zero_lt_of_lt hfuel))
    obtain ⟨hc, htext⟩ := List.forall_mem_cons.1 htext
    have hread : ∃ r', cs.readAttributeChar r false = .ok (some r') ∧ At cs enc c (escaped text) r' := by
      rw [escaped_cons] at hr
      split_ifs at hr with hspecial
      · exact (readAttributeChar_escaped h hc (P_escaped h htext) hr).1
      · exact readAttributeChar_at h hc (fun hescape => hspecial (.inl hescape)) (P_escaped h htext) hr
          false
    obtain ⟨r', hread, hat⟩ := hread
    have hrest := ih htext fuel (Nat.lt_of_succ_lt_succ hfuel) r' hat.rest
    unfold unescapeLoop
    simp only [hread, hrest, hat.char, List.flatMap_cons]

/-- Escapes are taken away again. -/
theorem unescapeAttribute_eq (h : cs.Exact enc P) {text : List ℕ} (htext : ∀ c ∈ text, P c) :
    cs.unescapeAttribute ((escaped text).flatMap enc) = .ok (text.flatMap enc) := by
  have hlength : text.length ≤ (escaped text).length := by
    unfold escaped
    rw [List.length_flatMap]
    refine le_trans (by simp) (List.sum_le_sum (f := fun _ => 1) ?_)
    intro c _
    split_ifs <;> simp
  have hle := length_flatMap_ge h (P_escaped h htext)
  exact unescapeLoop_eq h htext _ (by omega) _ (Reader_start_rest _)

/-! ## The parser on generated text -/

/-- A character of a value as it is generated. -/
def token' (c : ℕ) : List ℕ := if NeedsEscape c then [0x5C, c] else [c]

/-- The reader is at a character of a value. -/
structure TokenAt (cs : CharSet) (enc : ℕ → List UInt8) (c : ℕ) (rest : List ℕ) (r : Reader) : Prop where
  char : r.char = (token' c).flatMap enc
  rest : r.rest = rest.flatMap enc

theorem P_token (h : cs.Exact enc P) {c : ℕ} (hc : P c) : ∀ c' ∈ token' c, P c' := by
  have hescaped := P_escaped h (List.forall_mem_singleton.2 hc)
  simpa [escaped, token'] using hescaped

theorem read_token (h : cs.Exact enc P) {c : ℕ} {text : List ℕ} (hc : P c) (htext : ∀ c ∈ text, P c)
    {r : Reader} (hr : r.rest = (token' c ++ text).flatMap enc) :
    ∃ r', cs.readAttributeChar r true = .ok (some r') ∧ TokenAt cs enc c text r' := by
  by_cases hspecial : NeedsEscape c
  · have htoken : token' c = [0x5C, c] := if_pos hspecial
    rw [htoken] at hr
    obtain ⟨-, r', hread, hchar, hrest⟩ := readAttributeChar_escaped h hc htext hr
    exact ⟨r', hread, by rw [hchar, htoken]; simp, hrest⟩
  · have htoken : token' c = [c] := if_neg hspecial
    rw [htoken] at hr
    obtain ⟨r', hread, hat⟩ :=
      readAttributeChar_at h hc (fun hescape => hspecial (.inl hescape)) htext hr true
    exact ⟨r', hread, by rw [hat.char, htoken]; simp, hat.rest⟩

theorem length_utf16_token (c : ℕ) : 2 * ((token' c).flatMap utf16Encode).length ≤ 4 := by
  unfold token'
  split_ifs with hspecial
  · rcases hspecial with rfl | rfl | rfl <;> decide
  · rw [List.flatMap_singleton, length_utf16Encode]
    split_ifs <;> decide

theorem units_token (h : cs.Exact enc P) {c : ℕ} {rest : List ℕ} (hc : P c) {r : Reader}
    (hr : TokenAt cs enc c rest r) : cs.units r = .ok ((token' c).flatMap utf16Encode) :=
  units_at h (P_token h hc) (length_utf16_token c) hr.char

/-- A semicolon is not read as one if it is escaped. -/
theorem token_ne_semiColon (h : cs.Exact enc P) {c : ℕ} (hc : P c) :
    (token' c).flatMap utf16Encode ≠ [semiColonChar] := by
  unfold token'
  split_ifs with hspecial
  · rcases hspecial with rfl | rfl | rfl <;> decide
  · rw [List.flatMap_singleton]
    intro heq
    have hsemi := (utf16Encode_eq_unit (h.scalar c hc) (n := 0x3B) (by decide)).1 heq
    exact hspecial (.inr (.inr hsemi))

theorem isSpace_token (h : cs.Exact enc P) {c : ℕ} {rest : List ℕ} (hc : P c) {r : Reader}
    (hr : TokenAt cs enc c rest r) (hspace : c ≠ 0x20) : cs.isSpace r = false := by
  unfold isSpace
  simp only [decide_eq_false_iff_not]
  rintro ⟨-, -, heq⟩
  have hP : P 0x20 := h.special _ (by simp)
  rw [hr.char, h.space] at heq
  have hunits := h.toUnicode _ (P_token h hc) (length_utf16_token c)
  have hunits' := h.toUnicode [0x20] (List.forall_mem_singleton.2 hP) (by decide)
  rw [List.flatMap_singleton] at hunits'
  rw [heq, hunits'] at hunits
  have hsame : (token' c).flatMap utf16Encode = [UInt16.ofNat 0x20] := (Option.some.inj hunits).symm
  unfold token' at hsame
  split_ifs at hsame with hspecial
  · rcases hspecial with rfl | rfl | rfl <;> exact absurd hsame (by decide)
  · rw [List.flatMap_singleton] at hsame
    exact hspace ((utf16Encode_eq_unit (h.scalar c hc) (by decide)).1 hsame)

/-- A character that is not escaped. -/
theorem TokenAt.of_at {c : ℕ} {rest : List ℕ} {r : Reader} (hr : At cs enc c rest r)
    (hspecial : ¬ NeedsEscape c) : TokenAt cs enc c rest r where
  char := by
    unfold token'
    rw [if_neg hspecial, List.flatMap_singleton]
    exact hr.char
  rest := hr.rest

theorem p_ne_nil_of_char {r : Reader} (h : r.char ≠ []) : r.p ≠ [] := by
  intro hnil
  apply h
  unfold Reader.char
  rw [hnil, List.take_nil]

theorem TokenAt.p_ne_nil (h : cs.Exact enc P) {c : ℕ} {rest : List ℕ} (hc : P c) {r : Reader}
    (hr : TokenAt cs enc c rest r) : r.p ≠ [] := by
  apply p_ne_nil_of_char
  rw [hr.char]
  unfold token'
  have hne := h.enc_ne_nil c hc
  split_ifs <;> simp [hne]

/-- The reader is at the first character of a text, or at the end if there is none. -/
def Stands (cs : CharSet) (enc : ℕ → List UInt8) (r : Reader) : List ℕ → Prop
  | [] => r = .atEnd
  | c :: rest => At cs enc c rest r

theorem escaped_eq (c : ℕ) (text : List ℕ) : escaped (c :: text) = token' c ++ escaped text :=
  escaped_cons c text

/-- The loop over a value comes to its end, behind the last character, which is no space. -/
theorem goes_value (h : cs.Exact enc P) {tail : List ℕ} (htail : ∀ c ∈ tail, P c)
    (hsemi : ∀ c ∈ tail.head?, c = 0x3B) {value : List ℕ} {c : ℕ} (hvalue : ∀ x ∈ c :: value, P x)
    (hlast : (c :: value).getLast (List.cons_ne_nil _ _) ≠ 0x20) {s : Parser} (hlabel : s.label = .value)
    (hat : TokenAt cs enc c (escaped value ++ tail) s.reader) :
    ∃ s' r, Goes cs.turn 0 s s' ∧ cs.turn s' = cs.endValue s' r (tail.flatMap enc) ∧
      s'.start = s.start ∧ s'.name = s.name ∧ s'.map = s.map ∧ Stands cs enc r tail := by
  induction value generalizing c s with
  | nil =>
    have hc : P c := hvalue c List.mem_cons_self
    have hspace := isSpace_token h hc hat hlast
    have hrest : s.reader.rest = tail.flatMap enc := hat.rest
    cases tail with
    | nil =>
      refine ⟨s, .atEnd, .refl s, ?_, rfl, rfl, rfl, rfl⟩
      unfold turn
      simp only [hlabel, hat.p_ne_nil h hc, units_token h hc hat, token_ne_semiColon h hc, hspace,
        readAttributeChar_nil hrest, hrest, if_false, ne_eq, not_false_eq_true, if_true,
        Bool.false_eq_true]
    | cons d tail =>
      obtain rfl : d = 0x3B := hsemi d rfl
      obtain ⟨hd, htail⟩ := List.forall_mem_cons.1 htail
      obtain ⟨r, hread, hat'⟩ := readAttributeChar_at h hd (by decide) htail hrest true
      have hstep : cs.turn s = .ok { s with reader := r, endNoSpace := s.reader.rest } := by
        unfold turn
        simp only [hlabel, hat.p_ne_nil h hc, units_token h hc hat, token_ne_semiColon h hc, hspace,
          hread, if_false, ne_eq, not_false_eq_true, if_true, Bool.false_eq_true]
      have hp : r.p ≠ [] := by
        apply p_ne_nil_of_char
        rw [hat'.char]
        exact h.enc_ne_nil _ hd
      refine ⟨_, r, (Goes.of_step hstep).mono (Nat.zero_le 1), ?_, rfl, rfl, rfl, hat'⟩
      unfold turn
      simp only [hlabel, hp, units_char h hd hat', hrest, if_false]
      rfl
  | cons d value ih =>
    obtain ⟨hc, hvalue⟩ := List.forall_mem_cons.1 hvalue
    have hd : P d := hvalue d List.mem_cons_self
    have hrest : s.reader.rest = (token' d ++ (escaped value ++ tail)).flatMap enc := by
      rw [hat.rest, escaped_eq, List.append_assoc]
    have hbehind : ∀ x ∈ escaped value ++ tail, P x := by
      intro x hx
      rcases List.mem_append.1 hx with hx | hx
      · exact P_escaped h (fun y hy => hvalue y (List.mem_cons_of_mem _ hy)) x hx
      · exact htail x hx
    obtain ⟨r, hread, hat'⟩ := read_token h hd hbehind hrest
    have hstep : cs.turn s = .ok { s with
        reader := r
        endNoSpace := if cs.isSpace s.reader then s.endNoSpace else s.reader.rest } := by
      unfold turn
      simp only [hlabel, hat.p_ne_nil h hc, units_token h hc hat, token_ne_semiColon h hc, hread,
        if_false, ne_eq, not_false_eq_true, if_true]
    obtain ⟨s', r', hgoes, hturn, hstart, hname, hmap, hbehind'⟩ := ih hvalue hlast
      (s := { s with
        reader := r
        endNoSpace := if cs.isSpace s.reader then s.endNoSpace else s.reader.rest }) hlabel hat'
    exact ⟨s', r', ((Goes.of_step hstep).mono (Nat.zero_le 1)).trans hgoes, hturn, hstart, hname, hmap,
      hbehind'⟩

/-! ## The text of a map -/

/-- A letter, a minus sign or an underscore. -/
def NameChar (c : ℕ) : Prop := 0x41 ≤ c ∧ c ≤ 0x5A ∨ 0x61 ≤ c ∧ c ≤ 0x7A ∨ c = 0x2D ∨ c = 0x5F

theorem isNameChar_letter {c : ℕ} (hc : NameChar c) : isNameChar (utf16Encode c) = true := by
  have hle : c ≤ 0x7F := by
    unfold NameChar at hc
    omega
  have hunit : (UInt16.ofNat c).toNat = c := by
    rw [UInt16.toNat_ofNat', Nat.mod_eq_of_lt (by omega)]
  rw [utf16Encode_low (by omega)]
  simp only [isNameChar, Bool.or_eq_true, Bool.and_eq_true, decide_eq_true_eq, UInt16.le_iff_toNat_le,
    ← UInt16.toNat_inj, hunit, or_assoc]
  exact hc

theorem not_needsEscape_of_nameChar {c : ℕ} (hc : NameChar c) : ¬ NeedsEscape c := by
  unfold NameChar at hc
  unfold NeedsEscape
  omega

theorem ne_space_of_nameChar {c : ℕ} (hc : NameChar c) : c ≠ 0x20 := by
  unfold NameChar at hc
  omega

theorem escaped_name {name : List ℕ} (h : ∀ c ∈ name, NameChar c) : escaped name = name := by
  induction name with
  | nil => rfl
  | cons c name ih =>
    obtain ⟨hc, hname⟩ := List.forall_mem_cons.1 h
    rw [escaped_cons, if_neg (not_needsEscape_of_nameChar hc), ih hname, List.singleton_append]

/-- A name of letters, minus signs and underscores, and a value that is not empty and has no space at
its ends. -/
structure Attribute (P : ℕ → Prop) (a : List ℕ × List ℕ) : Prop where
  name : ∀ c ∈ a.1, P c ∧ NameChar c
  value : ∀ c ∈ a.2, P c
  ne_nil : a.2 ≠ []
  first : a.2.head ne_nil ≠ 0x20
  last : a.2.getLast ne_nil ≠ 0x20

/-- The attribute in the character set. -/
def encoded (enc : ℕ → List UInt8) (a : List ℕ × List ℕ) : List UInt8 × List UInt8 :=
  (a.1.flatMap enc, a.2.flatMap enc)

/-- What is generated. -/
def attributesText : List (List ℕ × List ℕ) → List ℕ
  | [] => []
  | (name, value) :: attributes =>
      name ++ 0x3D :: (escaped value ++ if attributes = [] then [] else 0x3B :: attributesText attributes)

theorem P_attributesText (h : cs.Exact enc P) {attributes : List (List ℕ × List ℕ)}
    (hall : ∀ a ∈ attributes, Attribute P a) : ∀ c ∈ attributesText attributes, P c := by
  induction attributes with
  | nil => exact List.forall_mem_nil _
  | cons a attributes ih =>
    obtain ⟨name, value⟩ := a
    obtain ⟨ha, hall⟩ := List.forall_mem_cons.1 hall
    have htail : ∀ c ∈ (if attributes = [] then [] else 0x3B :: attributesText attributes), P c := by
      split_ifs
      · exact List.forall_mem_nil _
      · exact List.forall_mem_cons.2 ⟨h.special _ (by simp), ih hall⟩
    intro c hc
    rw [attributesText, List.mem_append, List.mem_cons, List.mem_append] at hc
    rcases hc with hc | rfl | hc | hc
    · exact (ha.name c hc).1
    · exact h.special _ (by simp)
    · exact P_escaped h ha.value c hc
    · exact htail c hc

theorem generateEntries_eq (h : cs.Exact enc P) {attributes : List (List ℕ × List ℕ)}
    (hall : ∀ a ∈ attributes, Attribute P a) :
    cs.generateEntries (attributes.map (encoded enc)) = .ok ((attributesText attributes).flatMap enc) := by
  induction attributes with
  | nil => rfl
  | cons a attributes ih =>
    obtain ⟨name, value⟩ := a
    obtain ⟨ha, hall⟩ := List.forall_mem_cons.1 hall
    have hP : ∀ c ∈ name, P c := fun c hc => (ha.name c hc).1
    have hname := escapeAttribute_eq h hP
    rw [escaped_name fun c hc => (ha.name c hc).2] at hname
    have hvalue := escapeAttribute_eq h ha.value
    have hequal : cs.fromUnicode [equalChar] 4 = some (enc 0x3D) :=
      fromUnicode_ascii h (h.special _ (by simp)) (by decide)
    have hsemi : cs.fromUnicode [semiColonChar] 4 = some (enc 0x3B) :=
      fromUnicode_ascii h (h.special _ (by simp)) (by decide)
    have hrest := ih hall
    rw [List.map_cons, encoded, generateEntries]
    simp only [hname, hequal, hvalue, List.map_eq_nil_iff]
    by_cases hnil : attributes = []
    · simp [hnil, attributesText]
    · simp only [hnil, if_false, hsemi, hrest, attributesText]
      simp

/-! ## The parser on an attribute -/

theorem between_flatMap (front back : List ℕ) :
    between ((front ++ back).flatMap enc) (back.flatMap enc) = front.flatMap enc := by
  rw [List.flatMap_append, between, List.length_append, Nat.add_sub_cancel, List.take_left]

theorem At.p_ne_nil (h : cs.Exact enc P) {c : ℕ} {rest : List ℕ} (hc : P c) {r : Reader}
    (hr : At cs enc c rest r) : r.p ≠ [] := by
  apply p_ne_nil_of_char
  rw [hr.char]
  exact h.enc_ne_nil c hc

theorem isSpace_at (h : cs.Exact enc P) {c : ℕ} {rest : List ℕ} (hc : P c) {r : Reader}
    (hr : At cs enc c rest r) (hspecial : ¬ NeedsEscape c) (hspace : c ≠ 0x20) : cs.isSpace r = false :=
  isSpace_token h hc (.of_at hr hspecial) hspace

/-- The loop over a name comes to the equals sign. -/
theorem goes_name (h : cs.Exact enc P) {tail : List ℕ} (htail : ∀ c ∈ tail, P c) {name : List ℕ} {c : ℕ}
    (hname : ∀ x ∈ c :: name, P x ∧ NameChar x) {s : Parser} (hlabel : s.label = .name)
    (hat : At cs enc c (name ++ 0x3D :: tail) s.reader) :
    ∃ r, Goes cs.turn 0 s { s with reader := r } ∧ At cs enc 0x3D tail r := by
  have hequal : P 0x3D := h.special _ (by simp)
  induction name generalizing c s with
  | nil =>
    obtain ⟨hc, hletter⟩ := hname c List.mem_cons_self
    obtain ⟨r, hread, hat'⟩ := readAttributeChar_at h hequal (by decide) htail hat.rest true
    refine ⟨r, (Goes.of_step ?_).mono (Nat.zero_le 1), hat'⟩
    unfold turn
    simp only [hlabel, hat.p_ne_nil h hc, units_char h hc hat, isNameChar_letter hletter, hread, if_false,
      if_true]
  | cons d name ih =>
    obtain ⟨⟨hc, hletter⟩, hname⟩ := List.forall_mem_cons.1 hname
    obtain ⟨hd, hletter'⟩ := hname d List.mem_cons_self
    have hbehind : ∀ x ∈ name ++ 0x3D :: tail, P x := by
      intro x hx
      rcases List.mem_append.1 hx with hx | hx
      · exact (hname x (List.mem_cons_of_mem _ hx)).1
      · exact List.forall_mem_cons.2 ⟨hequal, htail⟩ x hx
    have hescape : d ≠ 0x5C := fun heq => not_needsEscape_of_nameChar hletter' (.inl heq)
    obtain ⟨r, hread, hat'⟩ := readAttributeChar_at h hd hescape hbehind hat.rest true
    have hstep : cs.turn s = .ok { s with reader := r } := by
      unfold turn
      simp only [hlabel, hat.p_ne_nil h hc, units_char h hc hat, isNameChar_letter hletter, hread,
        if_false, if_true]
    obtain ⟨r', hgoes, hat''⟩ := ih hname (s := { s with reader := r }) hlabel hat'
    exact ⟨r', ((Goes.of_step hstep).mono (Nat.zero_le 1)).trans hgoes, hat''⟩

/-- The loops in front of a name are left at once. -/
theorem goes_start (h : cs.Exact enc P) {c : ℕ} {rest : List ℕ} (hc : P c) {s : Parser}
    (hlabel : s.label = .attribute) (hat : At cs enc c rest s.reader) (hspace : cs.isSpace s.reader = false) :
    Goes cs.turn 0 s { s with label := .name, start := s.reader.p } := by
  have hattribute : cs.turn s = .ok { s with label := .leading } := by
    unfold turn
    simp only [hlabel, hat.p_ne_nil h hc, if_false]
  have hleading : cs.turn { s with label := .leading } =
      .ok { s with label := .name, start := s.reader.p } := by
    unfold turn
    simp only [hspace, Bool.false_eq_true, if_false]
  exact ((Goes.of_step hattribute).trans (Goes.of_step hleading)).mono (Nat.zero_le _)

theorem isSpace_equal (h : cs.Exact enc P) {rest : List ℕ} {r : Reader} (hr : At cs enc 0x3D rest r) :
    cs.isSpace r = false := by
  have hspace : P 0x20 := h.special _ (by simp)
  have hequal : P 0x3D := h.special _ (by simp)
  unfold isSpace
  simp only [decide_eq_false_iff_not]
  rintro ⟨-, -, heq⟩
  have hunits := units_char h hequal hr
  have hunits' := units_char h hspace ⟨heq.trans h.space, hr.rest⟩
  rw [hunits] at hunits'
  exact absurd (Except.ok.inj hunits') (by decide)

/-- From the equals sign to the first character of the value. -/
theorem goes_equal (h : cs.Exact enc P) {c : ℕ} {value tail : List ℕ} (hvalue : ∀ x ∈ c :: value, P x)
    (htail : ∀ x ∈ tail, P x) (hfirst : c ≠ 0x20) {s : Parser} (hlabel : s.label = .gap)
    (hat : At cs enc 0x3D (escaped (c :: value) ++ tail) s.reader) :
    ∃ r, Goes cs.turn 0 s { s with label := .value, reader := r, start := r.p, endNoSpace := r.p } ∧
      TokenAt cs enc c (escaped value ++ tail) r := by
  have hequal : P 0x3D := h.special _ (by simp)
  have hc : P c := hvalue c List.mem_cons_self
  have hbehind : ∀ x ∈ escaped value ++ tail, P x := by
    intro x hx
    rcases List.mem_append.1 hx with hx | hx
    · exact P_escaped h (fun y hy => hvalue y (List.mem_cons_of_mem _ hy)) x hx
    · exact htail x hx
  have hrest := hat.rest
  rw [escaped_eq, List.append_assoc] at hrest
  obtain ⟨r, hread, hat'⟩ := read_token h hc hbehind hrest
  have hspace := isSpace_equal h hat
  have hgap : cs.turn s = .ok { s with label := .spaces, reader := r } := by
    have hunits : cs.units s.reader = .ok [equalChar] := units_char h hequal hat
    unfold turn
    simp only [hlabel, hspace, hunits, hread, Bool.false_eq_true, if_false, ne_eq, not_true_eq_false]
  have hspaces : cs.turn { s with label := .spaces, reader := r } =
      .ok { s with label := .value, reader := r, start := r.p, endNoSpace := r.p } := by
    unfold turn
    simp only [isSpace_token h hc hat' hfirst, Bool.false_eq_true, if_false]
  exact ⟨r, ((Goes.of_step hgap).trans (Goes.of_step hspaces)).mono (Nat.zero_le _), hat'⟩

/-- Behind the loop over a name that is not empty. -/
theorem endName_eq (h : cs.Exact enc P) {c : ℕ} {name back : List ℕ}
    (hname : ∀ x ∈ c :: name, P x ∧ NameChar x) {s : Parser}
    (hstart : s.start = (c :: name ++ back).flatMap enc) (hp : s.reader.p = back.flatMap enc) :
    cs.endName s = .ok { s with label := .gap, name := (c :: name).flatMap enc } := by
  have hP : ∀ x ∈ c :: name, P x := fun x hx => (hname x hx).1
  have hlength : s.start.length - s.reader.p.length ≠ 0 := by
    have hpos := List.length_pos_of_ne_nil (h.enc_ne_nil c (hP c List.mem_cons_self))
    rw [hstart, hp, List.cons_append, List.flatMap_cons, List.flatMap_append, List.length_append,
      List.length_append]
    omega
  have hunescape := unescapeAttribute_eq h hP
  rw [escaped_name fun x hx => (hname x hx).2] at hunescape
  unfold endName
  rw [if_neg hlength, hstart, hp, between_flatMap, hunescape]

/-- What follows an attribute. -/
def attributeTail (attributes : List (List ℕ × List ℕ)) : List ℕ :=
  if attributes = [] then [] else 0x3B :: attributesText attributes

theorem P_attributeTail (h : cs.Exact enc P) {attributes : List (List ℕ × List ℕ)}
    (hall : ∀ a ∈ attributes, Attribute P a) : ∀ c ∈ attributeTail attributes, P c := by
  unfold attributeTail
  split_ifs
  · exact List.forall_mem_nil _
  · exact List.forall_mem_cons.2 ⟨h.special _ (by simp), P_attributesText h hall⟩

/-- The text of an attribute begins with a letter of its name or with the equals sign. -/
theorem attributesText_cons {a : List ℕ × List ℕ} (ha : Attribute P a) (attributes : List (List ℕ × List ℕ)) :
    ∃ c rest, attributesText (a :: attributes) = c :: rest ∧ c ≠ 0x5C := by
  obtain ⟨name, value⟩ := a
  cases name with
  | nil => exact ⟨0x3D, _, rfl, by decide⟩
  | cons c name =>
    have hletter := (ha.name c List.mem_cons_self).2
    exact ⟨c, _, rfl, fun heq => not_needsEscape_of_nameChar hletter (.inl heq)⟩

/-- The first character of the text is read. -/
theorem read_attributesText (h : cs.Exact enc P) {attributes : List (List ℕ × List ℕ)}
    (hall : ∀ a ∈ attributes, Attribute P a) (hne : attributes ≠ []) {r : Reader}
    (hr : r.rest = (attributesText attributes).flatMap enc) :
    ∃ r', cs.readAttributeChar r true = .ok (some r') ∧ Stands cs enc r' (attributesText attributes) := by
  obtain ⟨a, attributes, rfl⟩ := List.exists_cons_of_ne_nil hne
  have hP := P_attributesText h hall
  obtain ⟨c, rest, htext, hescape⟩ := attributesText_cons (hall a List.mem_cons_self) attributes
  rw [htext] at hr hP ⊢
  obtain ⟨hc, hrest⟩ := List.forall_mem_cons.1 hP
  exact readAttributeChar_at h hc hescape hrest hr true

/-- Behind the loop over a value. -/
theorem endValue_eq (h : cs.Exact enc P) {value : List ℕ} (hvalue : ∀ c ∈ value, P c)
    {attributes : List (List ℕ × List ℕ)} (hall : ∀ a ∈ attributes, Attribute P a) {s : Parser} {r : Reader}
    (hstart : s.start = (escaped value ++ attributeTail attributes).flatMap enc)
    (hr : Stands cs enc r (attributeTail attributes)) :
    ∃ r', cs.endValue s r ((attributeTail attributes).flatMap enc) = .ok (store s r' (value.flatMap enc)) ∧
      Stands cs enc r' (attributesText attributes) := by
  have hunescape := unescapeAttribute_eq h hvalue
  unfold endValue
  rw [hstart, between_flatMap]
  simp only [hunescape]
  by_cases hnil : attributes = []
  · subst hnil
    obtain rfl : r = .atEnd := hr
    exact ⟨.atEnd, rfl, rfl⟩
  · rw [attributeTail, if_neg hnil] at hr
    have hat : At cs enc 0x3B (attributesText attributes) r := hr
    obtain ⟨r', hread, hstands⟩ := read_attributesText h hall hnil hat.rest
    have hp := hat.p_ne_nil h (h.special _ (by simp))
    exact ⟨r', by simp only [if_neg hp, hread], hstands⟩

/-- An attribute whose name is not empty is stored. -/
theorem goes_attribute (h : cs.Exact enc P) {a : List ℕ × List ℕ} {attributes : List (List ℕ × List ℕ)}
    (hall : ∀ b ∈ a :: attributes, Attribute P b) (hne : a.1 ≠ []) {s : Parser} (hlabel : s.label = .attribute)
    (hstands : Stands cs enc s.reader (attributesText (a :: attributes))) :
    ∃ s', Goes cs.turn 0 s s' ∧ s'.label = .attribute ∧
      s'.map = s.map.put (encoded enc a).1 (encoded enc a).2 ∧
      Stands cs enc s'.reader (attributesText attributes) := by
  obtain ⟨name, value⟩ := a
  obtain ⟨ha, hrest⟩ := List.forall_mem_cons.1 hall
  obtain ⟨c, name, rfl⟩ := List.exists_cons_of_ne_nil hne
  obtain ⟨v, value, rfl⟩ := List.exists_cons_of_ne_nil ha.ne_nil
  have htail := P_attributeTail h hrest
  have hbehind : ∀ x ∈ escaped (v :: value) ++ attributeTail attributes, P x := by
    intro x hx
    rcases List.mem_append.1 hx with hx | hx
    · exact P_escaped h ha.value x hx
    · exact htail x hx
  obtain ⟨hc, hletter⟩ := ha.name c List.mem_cons_self
  have hat : At cs enc c (name ++ 0x3D :: (escaped (v :: value) ++ attributeTail attributes)) s.reader :=
    hstands
  -- up to the name and through it
  have hspace := isSpace_at h hc hat (not_needsEscape_of_nameChar hletter) (ne_space_of_nameChar hletter)
  have hgoes_start := goes_start h hc hlabel hat hspace
  obtain ⟨equal, hgoes_name, hequal⟩ := goes_name h hbehind ha.name
    (s := { s with label := .name, start := s.reader.p }) rfl hat
  have hturn : cs.turn { s with label := .name, reader := equal, start := s.reader.p } =
      .ok { s with
        label := .gap
        reader := equal
        start := s.reader.p
        name := (c :: name).flatMap enc } := by
    have hP : P 0x3D := h.special _ (by simp)
    have hunits : cs.units equal = .ok [equalChar] := units_char h hP hequal
    unfold turn
    simp only [hequal.p_ne_nil h hP, hunits, if_false]
    exact endName_eq h ha.name (s := { s with label := .name, reader := equal, start := s.reader.p })
      hat.p hequal.p
  -- from the equals sign through the value
  obtain ⟨r, hgoes_equal, hvalue⟩ := goes_equal h ha.value htail ha.first rfl hequal
    (s := { s with
      label := .gap
      reader := equal
      start := s.reader.p
      name := (c :: name).flatMap enc })
  have hsemi : ∀ x ∈ (attributeTail attributes).head?, x = 0x3B := by
    unfold attributeTail
    split_ifs <;> simp
  obtain ⟨s', r', hgoes_value, hturn_value, hstart, hname, hmap, hbehind'⟩ := goes_value h htail hsemi
    ha.value ha.last
    (s := { s with
      label := .value
      reader := r
      start := r.p
      name := (c :: name).flatMap enc
      endNoSpace := r.p }) rfl hvalue
  have hp : r.p = (escaped (v :: value) ++ attributeTail attributes).flatMap enc := by
    have hwhole : r.char ++ r.rest = r.p := List.take_append_drop _ _
    rw [← hwhole, hvalue.char, hvalue.rest, ← List.flatMap_append, escaped_eq, List.append_assoc]
  obtain ⟨r'', hend, hstands'⟩ := endValue_eq h ha.value hrest (hstart.trans hp) hbehind'
  have hgoes := ((hgoes_start.trans hgoes_name).trans ((Goes.of_step hturn).trans hgoes_equal)).trans
    (hgoes_value.trans (Goes.of_step (hturn_value.trans hend)))
  refine ⟨_, hgoes.mono (Nat.zero_le _), rfl, ?_, hstands'⟩
  have hvalue_ne : (v :: value).flatMap enc ≠ [] := by
    rw [List.flatMap_cons]
    exact List.append_ne_nil_of_left_ne_nil (h.enc_ne_nil v (ha.value v List.mem_cons_self)) _
  rw [store, if_neg hvalue_ne, hname, hmap]
  rfl

/-- Without a name the parser returns false. -/
theorem halts_unnamed (h : cs.Exact enc P) {value : List ℕ} {attributes : List (List ℕ × List ℕ)}
    {s : Parser} (hlabel : s.label = .attribute)
    (hstands : Stands cs enc s.reader (attributesText (([], value) :: attributes))) :
    Halts cs.turn s (.returns false s.map) := by
  have hP : P 0x3D := h.special _ (by simp)
  have hat : At cs enc 0x3D (escaped value ++ attributeTail attributes) s.reader := hstands
  have hspace := isSpace_equal h hat
  have hgoes := goes_start h hP hlabel hat hspace
  have hunits : cs.units s.reader = .ok [equalChar] := units_char h hP hat
  refine hgoes.halts (.of_step ?_)
  unfold turn endName
  simp only [hat.p_ne_nil h hP, hunits, if_false, Nat.sub_self, if_true]
  rfl

/-! ## The map -/

theorem put_above {map : SpecificAttributesMap} {name : List UInt8} (value : List UInt8)
    (h : ∀ entry ∈ map.entries, entry.1 < name) :
    (map.put name value).entries = map.entries ++ [(name, value)] := by
  have hbelow : map.entries.filter (fun entry => entry.1 < name) = map.entries :=
    List.filter_eq_self.2 fun entry hentry => decide_eq_true (h entry hentry)
  have habove : map.entries.filter (fun entry => name < entry.1) = [] := by
    rw [List.filter_eq_nil_iff]
    intro entry hentry
    simpa using (List.lt_asymm (h entry hentry))
  change _ ++ _ :: _ = _
  rw [hbelow, habove]

/-- The attributes are put into the map one behind the other. -/
theorem halts_attributes (h : cs.Exact enc P) {attributes : List (List ℕ × List ℕ)}
    (hall : ∀ a ∈ attributes, Attribute P a) (hnames : ∀ a ∈ attributes, a.1 ≠ []) {s : Parser}
    (hlabel : s.label = .attribute) (hstands : Stands cs enc s.reader (attributesText attributes))
    {map : SpecificAttributesMap} (hmap : map.entries = s.map.entries ++ attributes.map (encoded enc)) :
    Halts cs.turn s (.returns true map) := by
  induction attributes generalizing s with
  | nil =>
    have hreader : s.reader = .atEnd := hstands
    obtain rfl : map = s.map := SpecificAttributesMap.ext (by simpa using hmap)
    refine .of_step ?_
    unfold turn
    simp only [hlabel, hreader]
    rfl
  | cons a attributes ih =>
    obtain ⟨s', hgoes, hlabel', hmap', hstands'⟩ :=
      goes_attribute h hall (hnames a List.mem_cons_self) hlabel hstands
    have hsorted := map.sorted
    rw [hmap, List.map_cons, List.pairwise_append] at hsorted
    have hput := put_above (encoded enc a).2 fun entry hentry =>
      hsorted.2.2 entry hentry (encoded enc a) List.mem_cons_self
    refine hgoes.halts (ih (fun b hb => hall b (List.mem_cons_of_mem _ hb))
      (fun b hb => hnames b (List.mem_cons_of_mem _ hb)) hlabel' hstands' ?_)
    rw [hmap', hput, hmap, List.map_cons, List.append_assoc, List.singleton_append]

theorem flatMap_eq_nil (h : cs.Exact enc P) {text : List ℕ} (htext : ∀ c ∈ text, P c) :
    text.flatMap enc = [] ↔ text = [] := by
  cases text with
  | nil => simp
  | cons c text =>
    have hne := h.enc_ne_nil c (htext c List.mem_cons_self)
    simp [hne]

/-- The map comes back if its names are not empty. Else the parser rejects what was generated. -/
theorem parses_generated (h : cs.Exact enc P) {attributes : List (List ℕ × List ℕ)}
    (hall : ∀ a ∈ attributes, Attribute P a) {map : SpecificAttributesMap}
    (hmap : map.entries = attributes.map (encoded enc)) :
    cs.Parses ((attributesText attributes).flatMap enc) .empty (.returns true map) ↔
      ∀ entry ∈ map.entries, entry.1 ≠ [] := by
  have hnames : (∀ entry ∈ map.entries, entry.1 ≠ []) ↔ ∀ a ∈ attributes, a.1 ≠ [] := by
    rw [hmap, List.forall_mem_map]
    refine forall₂_congr fun a ha => not_congr ?_
    exact flatMap_eq_nil h fun c hc => ((hall a ha).name c hc).1
  rw [hnames]
  by_cases hnil : attributes = []
  · subst hnil
    obtain rfl : map = .empty := SpecificAttributesMap.ext hmap
    refine iff_of_true ?_ (List.forall_mem_nil _)
    exact .of_step rfl
  · obtain ⟨r, hread, hstands⟩ :=
      read_attributesText h hall hnil (r := .start ((attributesText attributes).flatMap enc))
        (Reader_start_rest _)
    have hparses : ∀ answer, cs.Parses ((attributesText attributes).flatMap enc) .empty answer ↔
        Halts cs.turn (initial .empty r) answer := by
      intro answer
      unfold Parses
      simp only [hread]
    rw [hparses]
    constructor
    · intro hhalts a ha hname
      -- the empty name is the first
      obtain ⟨b, attributes, rfl⟩ := List.exists_cons_of_ne_nil hnil
      have hfirst : b.1 = [] := by
        have hsorted := map.sorted
        rw [hmap, List.map_cons, List.pairwise_cons] at hsorted
        rcases List.mem_cons.1 ha with rfl | ha
        · exact hname
        · have hlt := hsorted.1 _ (List.mem_map_of_mem ha)
          rw [encoded, encoded, hname] at hlt
          exact absurd hlt (List.not_lt_nil _)
      obtain ⟨name, value⟩ := b
      obtain rfl : name = [] := hfirst
      have hrejects := halts_unnamed h (s := initial .empty r) rfl hstands
      cases hhalts.unique hrejects
    · intro hnames
      exact halts_attributes h hall hnames rfl hstands hmap

/-! ## Both together -/

/-- What is generated is read back unless a name is empty, and every string is read to an end that is
proper unless the parser is blocked in a value. -/
theorem parseSpecificAttributes_iff (hcs : cs.Lawful) (hexact : cs.Exact enc P) :
    (∀ (attributes : List (List ℕ × List ℕ)) (map : SpecificAttributesMap),
      (∀ a ∈ attributes, Attribute P a) → map.entries = attributes.map (encoded enc) →
        ∃ s, cs.generateSpecificAttributes map = .ok s ∧
          (cs.Parses s .empty (.returns true map) ↔ ∀ entry ∈ map.entries, entry.1 ≠ [])) ∧
      ∀ s map, (∃ answer, cs.Parses s map answer ∧ answer.Proper) ↔ ¬ cs.Blocked .start s := by
  refine ⟨fun attributes map hall hmap => ?_, parses_iff hcs⟩
  refine ⟨(attributesText attributes).flatMap enc, ?_, parses_generated hexact hall hmap⟩
  unfold generateSpecificAttributes
  rw [hmap, generateEntries_eq hexact hall]

theorem parseSpecificAttributes_iff_utf8 : ∃ s map,
    CharSet.utf8.generateSpecificAttributes map = .ok s ∧ map.entries = [([0x41], [0x3D])] ∧
      CharSet.utf8.Parses s .empty (.returns true map) := by
  obtain ⟨hwrites, -⟩ := parseSpecificAttributes_iff utf8_lawful utf8_exact
  have hattribute : Attribute Utf8Char ([0x41], [0x3D]) :=
    { name := List.forall_mem_singleton.2 ⟨⟨by decide, not_surrogate_of_ascii (by decide)⟩, .inl (by decide)⟩
      value := List.forall_mem_singleton.2 ⟨by decide, not_surrogate_of_ascii (by decide)⟩
      ne_nil := List.cons_ne_nil _ _
      first := by decide
      last := by decide }
  obtain ⟨s, hs, hparses⟩ := hwrites [([0x41], [0x3D])] (SpecificAttributesMap.empty.put [0x41] [0x3D])
    (List.forall_mem_singleton.2 hattribute) rfl
  exact ⟨s, _, hs, rfl, hparses.2 (List.forall_mem_singleton.2 (List.cons_ne_nil _ _))⟩

/-- The parser has no answer on `A=` and a byte that begins no character. -/
theorem not_parses_badValue : ¬ ∃ answer, CharSet.utf8.Parses [0x41, 0x3D, 0xFF] .empty answer := by
  rintro ⟨answer, hanswer⟩
  have hletter : CharSet.utf8.token [0x41, 0x3D, 0xFF] = .ok (some ⟨[0x41, 0x3D, 0xFF], 1, by decide⟩) := by
    decide +kernel
  have hequal : CharSet.utf8.token [0x3D, 0xFF] = .ok (some ⟨[0x3D, 0xFF], 1, by decide⟩) := by
    decide +kernel
  have hbad : CharSet.utf8.token [0xFF] = .ok (some ⟨[0xFF], 0, by decide⟩) := by
    decide +kernel
  have hblocked : CharSet.utf8.Blocked .spaces [0xFF] := .here hbad rfl trivial
  have hname : CharSet.utf8.Blocked .name [0x3D, 0xFF] :=
    .next hequal (by decide) (by decide +kernel : CharSet.utf8.next _ .name = some .spaces) hblocked
  exact not_parses_of_blocked utf8_lawful
    (.next hletter (by decide) (by decide +kernel : CharSet.utf8.next _ .start = some .name) hname) answer hanswer

end CharSet

end FirebirdCore.Intl
