import FirebirdCore.Like.Evaluator
import Mathlib.Computability.Language

/-!
# What a LIKE pattern means

A pattern stands for a list of tokens, the languages of which follow each other. The items that the
constructor makes of it stand for the same language.
-/
namespace FirebirdCore.Like

variable {γ : Type}

/-! ## Languages of tokens -/

/-- The words of one character. -/
def oneChar (γ : Type) : Language γ := {w | ∃ c, w = [c]}

inductive Token (γ : Type) where
  | any
  | one
  | char (c : γ)
  deriving DecidableEq, Repr

def Token.language : Token γ → Language γ
  | any => ⊤
  | one => oneChar γ
  | char c => {[c]}

/-- The strings that a list of tokens matches. -/
def language (tokens : List (Token γ)) : Language γ := (tokens.map Token.language).prod

theorem language_append (ts us : List (Token γ)) :
    language (ts ++ us) = language ts * language us := by
  simp [language]

@[simp] theorem language_nil : language ([] : List (Token γ)) = 1 := rfl

@[simp] theorem language_cons (t : Token γ) (ts : List (Token γ)) :
    language (t :: ts) = t.language * language ts := by
  simp [language]

theorem mem_top (w : List γ) : w ∈ (⊤ : Language γ) := trivial

theorem language_replicate_one (n : ℕ) :
    language (List.replicate n (Token.one : Token γ)) = oneChar γ ^ n := by
  simp [language, Token.language]

theorem language_chars (str : List γ) : language (str.map Token.char) = ({str} : Language γ) := by
  induction str with
  | nil => rfl
  | cons c str ih =>
    rw [List.map_cons, language_cons, ih]
    ext w
    rw [Language.mem_mul]
    constructor
    · rintro ⟨u, rfl, v, rfl, rfl⟩
      rfl
    · rintro rfl
      exact ⟨[c], rfl, str, rfl, rfl⟩

theorem top_mul_top : (⊤ : Language γ) * ⊤ = ⊤ := by
  ext w
  exact ⟨fun _ => trivial, fun _ => ⟨[], trivial, w, trivial, rfl⟩⟩

/-- Both are the words that are not empty. -/
theorem commute_top_oneChar : Commute (⊤ : Language γ) (oneChar γ) := by
  ext w
  rw [Language.mem_mul, Language.mem_mul]
  constructor
  · rintro ⟨u, -, v, ⟨c, rfl⟩, rfl⟩
    cases u with
    | nil => exact ⟨[c], ⟨c, rfl⟩, [], trivial, rfl⟩
    | cons d u => exact ⟨[d], ⟨d, rfl⟩, u ++ [c], trivial, rfl⟩
  · rintro ⟨u, ⟨c, rfl⟩, v, -, rfl⟩
    rcases List.eq_nil_or_concat v with rfl | ⟨v, d, rfl⟩
    · exact ⟨[], trivial, [c], ⟨c, rfl⟩, rfl⟩
    · exact ⟨c :: v, trivial, [d], ⟨d, rfl⟩, by simp⟩

theorem top_mul_oneChar_pow (n : ℕ) : (⊤ : Language γ) * oneChar γ ^ n = oneChar γ ^ n * ⊤ :=
  (commute_top_oneChar.pow_right n).eq

theorem mem_oneChar_pow {n : ℕ} {w : List γ} : w ∈ oneChar γ ^ n ↔ w.length = n := by
  induction n generalizing w with
  | zero => simp
  | succ n ih =>
    rw [pow_succ', Language.mem_mul]
    constructor
    · rintro ⟨u, ⟨c, rfl⟩, v, hv, rfl⟩
      rw [List.length_append, ih.1 hv, List.length_singleton, add_comm]
    · intro hw
      cases w with
      | nil => cases hw
      | cons c w => exact ⟨[c], ⟨c, rfl⟩, w, ih.2 (Nat.succ_injective hw), rfl⟩

namespace LikePattern

variable [DecidableEq γ] (P : LikePattern γ)

section

variable [Zero γ]

/-- The tokens of a pattern, if each escape character stands in front of one that may be escaped. -/
def tokens : List γ → Option (List (Token γ))
  | [] => some []
  | c :: rest =>
      if P.isEscape c then
        match rest with
        | [] => none
        | next :: rest =>
            if next = P.escapeChar || P.isAny next || P.isOne next then
              (tokens rest).map (.char next :: ·)
            else none
      else if P.isAny c then (tokens rest).map (.any :: ·)
      else if P.isOne c then (tokens rest).map (.one :: ·)
      else (tokens rest).map (.char c :: ·)

end

/-! ## The first pass -/

/-- The tokens that an item of the first pass stands for. -/
def itemTokens (item : PatternItem γ) : List (Token γ) :=
  match item.type with
  | .piNone => []
  | .piSearch | .piDirectMatch => item.str.map .char
  | .piEscapedString => (P.unescape item.length item.data).map .char
  | .piSkipFixed => List.replicate item.length .one
  | .piSkipMore => .any :: List.replicate item.length .one

/-- The text `data` begins with the characters of `str`, some of them escaped, and `rest` follows. -/
inductive Escapes (P : LikePattern γ) : List γ → List γ → List γ → Prop where
  | nil (rest : List γ) : Escapes P rest [] rest
  | plain {c : γ} {data str rest : List γ} (hc : P.isEscape c = false) (h : Escapes P data str rest) :
      Escapes P (c :: data) (c :: str) rest
  | escaped {e c : γ} {data str rest : List γ} (he : P.isEscape e = true)
      (h : Escapes P data str rest) : Escapes P (e :: c :: data) (c :: str) rest

variable {P}

theorem Escapes.append {data str rest str' rest' : List γ} (h : Escapes P data str rest)
    (h' : Escapes P rest str' rest') : Escapes P data (str ++ str') rest' := by
  induction h with
  | nil rest => exact h'
  | plain hc _ ih => exact .plain hc (ih h')
  | escaped he _ ih => exact .escaped he (ih h')

theorem Escapes.unescape {data str rest : List γ} (h : Escapes P data str rest) :
    P.unescape str.length data = str := by
  induction h with
  | nil rest => rfl
  | plain hc _ ih =>
    rw [List.length_cons, LikePattern.unescape.eq_def]
    simp [hc, ih]
  | escaped he _ ih =>
    rw [List.length_cons, LikePattern.unescape.eq_def]
    simp [he, ih]

theorem escapes_of_plain {str : List γ} (h : ∀ c ∈ str, P.isEscape c = false) (rest : List γ) :
    Escapes P (str ++ rest) str rest := by
  induction str with
  | nil => exact .nil rest
  | cons c str ih =>
    rw [List.forall_mem_cons] at h
    exact .plain h.1 (ih h.2)

/-- An item of the first pass that is complete. -/
def RawValid (P : LikePattern γ) (item : PatternItem γ) : Prop :=
  item.matchAny = false ∧
    match item.type with
    | .piSearch => 0 < item.length ∧ item.length ≤ item.data.length
    | .piEscapedString => 0 < item.length ∧ (P.unescape item.length item.data).length = item.length
    | .piSkipFixed => 0 < item.length
    | .piSkipMore => True
    | _ => False

/-- The last item, when `rest` is still to be read. -/
def Current (P : LikePattern γ) (item : PatternItem γ) (rest : List γ) : Prop :=
  item.matchAny = false ∧
    match item.type with
    | .piNone => item.length = 0
    | .piSearch => ∃ str, str ≠ [] ∧ item.data = str ++ rest ∧ item.length = str.length ∧
        ∀ c ∈ str, P.isEscape c = false
    | .piEscapedString => ∃ str, str ≠ [] ∧ Escapes P item.data str rest ∧ item.length = str.length
    | .piSkipFixed => 0 < item.length
    | .piSkipMore => True
    | .piDirectMatch => False

/-- The item is a number of characters to skip. -/
def IsSkip (item : PatternItem γ) : Prop := item.type = .piSkipFixed ∨ item.type = .piSkipMore

/-- The items that the first pass has made. Strings and skips alternate. -/
structure Parsed (P : LikePattern γ) (state : List (PatternItem γ) × PatternItem γ)
    (rest : List γ) : Prop where
  finished : ∀ item ∈ state.1, RawValid P item
  current : Current P state.2 rest
  chain : (state.1 ++ [state.2]).IsChain fun a b => IsSkip a ↔ ¬ IsSkip b
  first : state.2.type = .piNone → state.1 = []

/-- The tokens of the items. -/
def stateTokens (P : LikePattern γ) (state : List (PatternItem γ) × PatternItem γ) :
    List (Token γ) := (state.1 ++ [state.2]).flatMap P.itemTokens

theorem stateTokens_eq (items : List (PatternItem γ)) (item : PatternItem γ) :
    stateTokens P (items, item) = items.flatMap P.itemTokens ++ P.itemTokens item := by
  simp [stateTokens]

/-- The next item is behind the one at hand. -/
theorem Parsed.push {items : List (PatternItem γ)} {item new : PatternItem γ} {rest rest' : List γ}
    (h : Parsed P (items, item) rest) (hitem : RawValid P item) (hnew : Current P new rest')
    (hskip : IsSkip item ↔ ¬ IsSkip new) (hnone : new.type ≠ .piNone) :
    Parsed P (items ++ [item], new) rest' where
  finished := by
    intro x hx
    rcases List.mem_append.1 hx with hx | hx
    · exact h.finished x hx
    · rw [List.mem_singleton.1 hx]
      exact hitem
  current := hnew
  chain := by
    rw [List.isChain_append]
    refine ⟨h.chain, List.isChain_singleton _, ?_⟩
    simp [hskip]
  first hfirst := absurd hfirst hnone

/-- The item at hand changes. -/
theorem Parsed.replace {items : List (PatternItem γ)} {item new : PatternItem γ}
    {rest rest' : List γ} (h : Parsed P (items, item) rest) (hnew : Current P new rest')
    (hskip : items ≠ [] → (IsSkip new ↔ IsSkip item)) (hnone : new.type ≠ .piNone) :
    Parsed P (items, new) rest' where
  finished := h.finished
  current := hnew
  chain := by
    have hchain := h.chain
    rw [List.isChain_append] at hchain ⊢
    refine ⟨hchain.1, List.isChain_singleton _, fun x hx y hy => ?_⟩
    have hne : items ≠ [] := by
      rintro rfl
      simp at hx
    have hlast := hchain.2.2 x hx item (by simp)
    have hy : y = new := by simpa using hy.symm
    rw [hy, hskip hne]
    exact hlast
  first hfirst := absurd hfirst hnone

/-- What has been said of the item at hand is enough when the next one begins. -/
theorem Current.valid {item : PatternItem γ} {rest : List γ} (h : Current P item rest)
    (hnone : item.type ≠ .piNone) : RawValid P item := by
  obtain ⟨hany, h⟩ := h
  refine ⟨hany, ?_⟩
  cases htype : item.type <;> simp only [htype] at h hnone ⊢
  · exact absurd rfl hnone
  · obtain ⟨str, hne, hdata, hlength, -⟩ := h
    rw [hlength, hdata, List.length_append]
    exact ⟨List.length_pos_of_ne_nil hne, Nat.le_add_right ..⟩
  · exact h
  · obtain ⟨str, hne, hescapes, hlength⟩ := h
    rw [hlength, hescapes.unescape]
    exact ⟨List.length_pos_of_ne_nil hne, rfl⟩

variable {items : List (PatternItem γ)} {item : PatternItem γ} {c : γ} {rest : List γ}

theorem pushAny_spec (h : Parsed P (items, item) (c :: rest)) :
    Parsed P (pushAny items item) rest ∧
      language (stateTokens P (pushAny items item)) =
        language (stateTokens P (items, item) ++ [.any]) := by
  have hcurrent := h.current
  obtain ⟨type, length, data, kmpNext, matchAny⟩ := item
  obtain ⟨hany, hitem⟩ := hcurrent
  have hpush (htype : type = .piSearch ∨ type = .piEscapedString) :
      Parsed P (items ++ [⟨type, length, data, kmpNext, matchAny⟩], newItem .piSkipMore 0 []) rest := by
    refine h.push (h.current.valid ?_) ⟨rfl, trivial⟩ ?_ (by simp [newItem])
    · rcases htype with rfl | rfl <;> simp
    · rcases htype with rfl | rfl <;> simp [IsSkip, newItem]
  cases type with
  | piNone =>
    have hfirst := h.first rfl
    refine ⟨h.replace ⟨hany, trivial⟩ (fun hne => absurd hfirst hne) (by simp), ?_⟩
    have hlength : length = 0 := hitem
    simp [pushAny, stateTokens_eq, itemTokens, hlength]
  | piSearch =>
    refine ⟨hpush (.inl rfl), ?_⟩
    simp [pushAny, stateTokens, itemTokens, newItem]
  | piSkipFixed =>
    refine ⟨h.replace ⟨hany, trivial⟩ (fun _ => by simp [IsSkip]) (by simp), ?_⟩
    simp only [pushAny, stateTokens_eq, itemTokens, language_append, language_cons, language_nil,
      language_replicate_one, Token.language, top_mul_oneChar_pow, mul_one, mul_assoc]
  | piDirectMatch => exact hitem.elim
  | piEscapedString =>
    refine ⟨hpush (.inr rfl), ?_⟩
    simp [pushAny, stateTokens, itemTokens, newItem]
  | piSkipMore =>
    refine ⟨h.replace ⟨hany, trivial⟩ (fun _ => Iff.rfl) (by simp), ?_⟩
    simp only [pushAny, stateTokens_eq, itemTokens, language_append, language_cons, language_nil,
      language_replicate_one, Token.language, top_mul_oneChar_pow, mul_one, mul_assoc, top_mul_top]

theorem pushOne_spec (h : Parsed P (items, item) (c :: rest)) :
    Parsed P (pushOne items item) rest ∧
      language (stateTokens P (pushOne items item)) =
        language (stateTokens P (items, item) ++ [.one]) := by
  have hcurrent := h.current
  obtain ⟨type, length, data, kmpNext, matchAny⟩ := item
  obtain ⟨hany, hitem⟩ := hcurrent
  have hpush (htype : type = .piSearch ∨ type = .piEscapedString) :
      Parsed P (items ++ [⟨type, length, data, kmpNext, matchAny⟩], newItem .piSkipFixed 1 []) rest := by
    refine h.push (h.current.valid ?_) ⟨rfl, Nat.one_pos⟩ ?_ (by simp [newItem])
    · rcases htype with rfl | rfl <;> simp
    · rcases htype with rfl | rfl <;> simp [IsSkip, newItem]
  cases type with
  | piNone =>
    have hfirst := h.first rfl
    refine ⟨h.replace ⟨hany, Nat.one_pos⟩ (fun hne => absurd hfirst hne) (by simp), ?_⟩
    simp [pushOne, stateTokens_eq, itemTokens]
  | piSearch =>
    refine ⟨hpush (.inl rfl), ?_⟩
    simp [pushOne, stateTokens, itemTokens, newItem]
  | piSkipFixed =>
    refine ⟨h.replace ⟨hany, Nat.succ_pos _⟩ (fun _ => Iff.rfl) (by simp), ?_⟩
    simp [pushOne, stateTokens_eq, itemTokens, List.replicate_succ']
  | piDirectMatch => exact hitem.elim
  | piEscapedString =>
    refine ⟨hpush (.inr rfl), ?_⟩
    simp [pushOne, stateTokens, itemTokens, newItem]
  | piSkipMore =>
    refine ⟨h.replace ⟨hany, trivial⟩ (fun _ => Iff.rfl) (by simp), ?_⟩
    simp [pushOne, stateTokens_eq, itemTokens, List.replicate_succ']

theorem pushChar_spec (hc : P.isEscape c = false) (h : Parsed P (items, item) (c :: rest)) :
    Parsed P (pushChar items item (c :: rest)) rest ∧
      language (stateTokens P (pushChar items item (c :: rest))) =
        language (stateTokens P (items, item) ++ [.char c]) := by
  have hcurrent := h.current
  obtain ⟨type, length, data, kmpNext, matchAny⟩ := item
  obtain ⟨hany, hitem⟩ := hcurrent
  have hsingle : Current P (newItem .piSearch 1 (c :: rest)) rest :=
    ⟨rfl, [c], by simp, rfl, rfl, by simpa using hc⟩
  have hpush (htype : type = .piSkipFixed ∨ type = .piSkipMore) :
      Parsed P (items ++ [⟨type, length, data, kmpNext, matchAny⟩],
        newItem .piSearch 1 (c :: rest)) rest := by
    refine h.push (h.current.valid ?_) hsingle ?_ (by simp [newItem])
    · rcases htype with rfl | rfl <;> simp
    · rcases htype with rfl | rfl <;> simp [IsSkip, newItem]
  cases type with
  | piNone =>
    have hfirst := h.first rfl
    refine ⟨h.replace ⟨hany, hsingle.2⟩ (fun hne => absurd hfirst hne) (by simp), ?_⟩
    simp [pushChar, stateTokens_eq, itemTokens, PatternItem.str]
  | piSearch =>
    obtain ⟨str, hne, hdata, hlength, hplain⟩ := hitem
    simp only at hdata hlength
    refine ⟨h.replace ⟨hany, str ++ [c], by simp, by simp [hdata], by simp [hlength], ?_⟩
      (fun _ => Iff.rfl) (by simp), ?_⟩
    · intro x hx
      rcases List.mem_append.1 hx with hx | hx
      · exact hplain x hx
      · rw [List.mem_singleton.1 hx]
        exact hc
    · have htake : data.take (length + 1) = data.take length ++ [c] := by
        rw [hdata, hlength, List.take_left, List.append_cons, List.take_left' (by simp)]
      simp [pushChar, stateTokens_eq, itemTokens, PatternItem.str, htake]
  | piSkipFixed =>
    refine ⟨hpush (.inl rfl), ?_⟩
    simp [pushChar, stateTokens, itemTokens, newItem, PatternItem.str]
  | piDirectMatch => exact hitem.elim
  | piEscapedString =>
    obtain ⟨str, hne, hescapes, hlength⟩ := hitem
    simp only at hescapes hlength
    have hmore := hescapes.append (.plain hc (.nil rest))
    refine ⟨h.replace ⟨hany, str ++ [c], by simp, hmore, by simp [hlength]⟩
      (fun _ => Iff.rfl) (by simp), ?_⟩
    have hread := hmore.unescape
    rw [List.length_append, List.length_singleton, ← hlength] at hread
    have hread' := hescapes.unescape
    rw [← hlength] at hread'
    simp [pushChar, stateTokens_eq, itemTokens, hread, hread']
  | piSkipMore =>
    refine ⟨hpush (.inr rfl), ?_⟩
    simp [pushChar, stateTokens, itemTokens, newItem, PatternItem.str]

theorem pushEscaped_spec {e : γ} (he : P.isEscape e = true)
    (h : Parsed P (items, item) (e :: c :: rest)) :
    Parsed P (pushEscaped items item (e :: c :: rest)) rest ∧
      language (stateTokens P (pushEscaped items item (e :: c :: rest))) =
        language (stateTokens P (items, item) ++ [.char c]) := by
  have hcurrent := h.current
  obtain ⟨type, length, data, kmpNext, matchAny⟩ := item
  obtain ⟨hany, hitem⟩ := hcurrent
  have hone : Escapes P (e :: c :: rest) [c] rest := .escaped he (.nil rest)
  have hsingle : Current P (newItem .piEscapedString 1 (e :: c :: rest)) rest :=
    ⟨rfl, [c], by simp, hone, rfl⟩
  have hunescape : P.unescape 1 (e :: c :: rest) = [c] := hone.unescape
  have hpush (htype : type = .piSkipFixed ∨ type = .piSkipMore) :
      Parsed P (items ++ [⟨type, length, data, kmpNext, matchAny⟩],
        newItem .piEscapedString 1 (e :: c :: rest)) rest := by
    refine h.push (h.current.valid ?_) hsingle ?_ (by simp [newItem])
    · rcases htype with rfl | rfl <;> simp
    · rcases htype with rfl | rfl <;> simp [IsSkip, newItem]
  -- a string goes on with an escaped character
  have hmore {str : List γ} (hescapes : Escapes P data str (e :: c :: rest))
      (hlength : length = str.length) :
      Current P ⟨.piEscapedString, length + 1, data, kmpNext, matchAny⟩ rest ∧
        P.unescape (length + 1) data = str ++ [c] := by
    have hread := (hescapes.append hone).unescape
    rw [List.length_append, List.length_singleton, ← hlength] at hread
    exact ⟨⟨hany, str ++ [c], by simp, hescapes.append hone, by simp [hlength]⟩, hread⟩
  cases type with
  | piNone =>
    have hfirst := h.first rfl
    refine ⟨h.replace ⟨hany, hsingle.2⟩ (fun hne => absurd hfirst hne) (by simp), ?_⟩
    simp [pushEscaped, stateTokens_eq, itemTokens, hunescape]
  | piSearch =>
    obtain ⟨str, hne, hdata, hlength, hplain⟩ := hitem
    simp only at hdata hlength
    obtain ⟨hcurrent, hread⟩ := hmore (hdata ▸ escapes_of_plain hplain _) hlength
    refine ⟨h.replace hcurrent (fun _ => by simp [IsSkip]) (by simp), ?_⟩
    have htake : data.take length = str := by
      rw [hdata, hlength, List.take_left]
    simp [pushEscaped, stateTokens_eq, itemTokens, PatternItem.str, hread, htake]
  | piSkipFixed =>
    refine ⟨hpush (.inl rfl), ?_⟩
    simp [pushEscaped, stateTokens, itemTokens, newItem, hunescape]
  | piDirectMatch => exact hitem.elim
  | piEscapedString =>
    obtain ⟨str, hne, hescapes, hlength⟩ := hitem
    simp only at hescapes hlength
    obtain ⟨hcurrent, hread⟩ := hmore hescapes hlength
    refine ⟨h.replace hcurrent (fun _ => Iff.rfl) (by simp), ?_⟩
    have hread' := hescapes.unescape
    rw [← hlength] at hread'
    simp [pushEscaped, stateTokens_eq, itemTokens, hread, hread']
  | piSkipMore =>
    refine ⟨hpush (.inr rfl), ?_⟩
    simp [pushEscaped, stateTokens, itemTokens, newItem, hunescape]

/-- What the first pass makes: one item without a meaning, or strings and skips that alternate. -/
inductive RawItems (P : LikePattern γ) : List (PatternItem γ) → Prop where
  | empty {item : PatternItem γ} (htype : item.type = .piNone) (hany : item.matchAny = false) :
      RawItems P [item]
  | items {items : List (PatternItem γ)} (hne : items ≠ []) (hvalid : ∀ item ∈ items, RawValid P item)
      (hchain : items.IsChain fun a b => IsSkip a ↔ ¬ IsSkip b) : RawItems P items

theorem Parsed.rawItems {state : List (PatternItem γ) × PatternItem γ} (h : Parsed P state []) :
    RawItems P (state.1 ++ [state.2]) := by
  by_cases hnone : state.2.type = .piNone
  · rw [h.first hnone]
    exact .empty hnone h.current.1
  · refine .items (by simp) (fun x hx => ?_) h.chain
    rcases List.mem_append.1 hx with hx | hx
    · exact h.finished x hx
    · rw [List.mem_singleton.1 hx]
      exact h.current.valid hnone

variable [Zero γ]

theorem parse_spec {state : List (PatternItem γ) × PatternItem γ} {out : List (PatternItem γ)}
    (h : Parsed P state rest) (hparse : P.parse rest state = .ok out) :
    ∃ ts, P.tokens rest = some ts ∧ RawItems P out ∧
      language (out.flatMap P.itemTokens) = language (stateTokens P state) * language ts := by
  fun_induction LikePattern.parse P rest state with
  | case1 items item =>
    cases hparse
    exact ⟨[], rfl, h.rawItems, by simp [stateTokens]⟩
  | case2 items item c hescape => cases hparse
  | case3 items item c hescape next rest' hallowed ih =>
    obtain ⟨hparsed, hlanguage⟩ := pushEscaped_spec hescape h
    obtain ⟨ts, htokens, hraw, heq⟩ := ih hparsed hparse
    refine ⟨.char next :: ts, ?_, hraw, ?_⟩
    · rw [LikePattern.tokens.eq_def]
      simp [hescape, hallowed, htokens]
    · rw [heq, hlanguage, language_append, language_cons, language_cons, language_nil, mul_one,
        mul_assoc]
  | case4 items item c hescape next rest' hno => cases hparse
  | case5 c rest items item hescape hany ih =>
    obtain ⟨hparsed, hlanguage⟩ := pushAny_spec h
    obtain ⟨ts, htokens, hraw, heq⟩ := ih hparsed hparse
    refine ⟨.any :: ts, ?_, hraw, ?_⟩
    · rw [LikePattern.tokens.eq_def]
      simp [hescape, hany, htokens]
    · rw [heq, hlanguage, language_append, language_cons, language_cons, language_nil, mul_one,
        mul_assoc]
  | case6 c rest items item hescape hany hone ih =>
    obtain ⟨hparsed, hlanguage⟩ := pushOne_spec h
    obtain ⟨ts, htokens, hraw, heq⟩ := ih hparsed hparse
    refine ⟨.one :: ts, ?_, hraw, ?_⟩
    · rw [LikePattern.tokens.eq_def]
      simp [hescape, hany, hone, htokens]
    · rw [heq, hlanguage, language_append, language_cons, language_cons, language_nil, mul_one,
        mul_assoc]
  | case7 c rest items item hescape hany hone ih =>
    obtain ⟨hparsed, hlanguage⟩ := pushChar_spec (by simpa using hescape) h
    obtain ⟨ts, htokens, hraw, heq⟩ := ih hparsed hparse
    refine ⟨.char c :: ts, ?_, hraw, ?_⟩
    · rw [LikePattern.tokens.eq_def]
      simp [hescape, hany, hone, htokens]
    · rw [heq, hlanguage, language_append, language_cons, language_cons, language_nil, mul_one,
        mul_assoc]

end LikePattern

/-! ## Languages of items -/

def PatternItem.bodyLanguage (item : PatternItem γ) : Language γ :=
  match item.type with
  | .piNone => 1
  | .piSearch => ⊤ * {item.str}
  | .piSkipFixed => oneChar γ ^ item.length
  | .piDirectMatch => {item.str}
  | .piEscapedString => 0
  | .piSkipMore => 0

def PatternItem.tailLanguage (item : PatternItem γ) : Language γ := if item.matchAny then ⊤ else 1

/-- The strings that the items match. -/
def itemsLanguage : List (PatternItem γ) → Language γ
  | [] => 1
  | item :: rest => item.bodyLanguage * (item.tailLanguage * itemsLanguage rest)

theorem itemsLanguage_append (items more : List (PatternItem γ)) :
    itemsLanguage (items ++ more) = itemsLanguage items * itemsLanguage more := by
  induction items with
  | nil => rw [List.nil_append, itemsLanguage, one_mul]
  | cons item items ih => rw [List.cons_append, itemsLanguage, itemsLanguage, ih, mul_assoc, mul_assoc]

theorem itemsLanguage_singleton (item : PatternItem γ) :
    itemsLanguage [item] = item.bodyLanguage * item.tailLanguage := by
  rw [itemsLanguage, itemsLanguage, mul_one]

theorem eq_append_singleton_of_ne_nil {items : List (PatternItem γ)} (hne : items ≠ []) :
    ∃ init last, items = init ++ [last] :=
  ⟨items.dropLast, items.getLast hne, (List.dropLast_append_getLast hne).symm⟩

theorem markLast_append (items : List (PatternItem γ)) (item : PatternItem γ) :
    LikePattern.markLast (items ++ [item]) = items ++ [{ item with matchAny := true }] := by
  rw [LikePattern.markLast, List.length_append, List.length_singleton, Nat.add_sub_cancel,
    List.modify_eq_take_cons_drop (by simp)]
  simp

/-- The `%` behind the items that is still to be taken up. -/
def pendingLanguage (γ : Type) (directMatch : Bool) : Language γ := if directMatch then 1 else ⊤

@[simp] theorem pendingLanguage_true : pendingLanguage γ true = 1 := rfl

@[simp] theorem pendingLanguage_false : pendingLanguage γ false = ⊤ := rfl

theorem tailLanguage_mul_top (item : PatternItem γ) : item.tailLanguage * ⊤ = ⊤ := by
  unfold PatternItem.tailLanguage
  split_ifs
  · exact top_mul_top
  · exact one_mul _

variable [DecidableEq γ]

/-- An item that the second pass leaves. -/
def Valid (item : PatternItem γ) : Prop :=
  match item.type with
  | .piSearch => 0 < item.length ∧ item.length ≤ item.data.length ∧
      item.kmpNext = Kmp.preKmp item.str
  | .piDirectMatch => 0 < item.length ∧ item.length ≤ item.data.length
  | .piSkipFixed => 0 < item.length
  | _ => False

/-- The items of the second pass. A string is searched for just behind an item with a `%`. -/
structure Linked (items : List (PatternItem γ)) : Prop where
  valid : ∀ item ∈ items, Valid item
  chain : items.IsChain fun a b => a.matchAny = true ↔ b.type = .piSearch

theorem Linked.concat {items : List (PatternItem γ)} {item : PatternItem γ} {directMatch : Bool}
    (h : Linked items) (hlast : ∀ a ∈ items.getLast?, a.matchAny = true ↔ directMatch = false)
    (hitem : Valid item) (hsearch : item.type = .piSearch ↔ directMatch = false) :
    Linked (items ++ [item]) where
  valid := by
    intro x hx
    rcases List.mem_append.1 hx with hx | hx
    · exact h.valid x hx
    · rw [List.mem_singleton.1 hx]
      exact hitem
  chain := by
    rw [List.isChain_append]
    refine ⟨h.chain, List.isChain_singleton _, fun a ha b hb => ?_⟩
    have hb : b = item := by simpa using hb.symm
    rw [hb, hsearch]
    exact hlast a ha

theorem Linked.markLast {items : List (PatternItem γ)} {item : PatternItem γ}
    (h : Linked (items ++ [item])) : Linked (items ++ [{ item with matchAny := true }]) where
  valid := by
    intro x hx
    rcases List.mem_append.1 hx with hx | hx
    · exact h.valid x (List.mem_append_left _ hx)
    · rw [List.mem_singleton.1 hx]
      exact h.valid item (by simp)
  chain := by
    have hchain := h.chain
    rw [List.isChain_append] at hchain ⊢
    refine ⟨hchain.1, List.isChain_singleton _, fun a ha b hb => ?_⟩
    have hlink := hchain.2.2 a ha item (by simp)
    have hb : b = { item with matchAny := true } := by simpa using hb.symm
    rw [hb]
    exact hlink

/-- What the constructor makes: one item without characters, or items that are linked. -/
inductive Compiled : List (PatternItem γ) → Prop where
  | empty {item : PatternItem γ} (htype : item.type = .piNone) : Compiled [item]
  | items {items : List (PatternItem γ)} (hne : items ≠ []) (hlinked : Linked items) : Compiled items

namespace LikePattern

variable (P : LikePattern γ)

theorem compileSearch_spec {item : PatternItem γ} (htype : item.type = .piSearch)
    (hlength : 0 < item.length) (hdata : item.length ≤ item.data.length) (hany : item.matchAny = false)
    (directMatch : Bool) : Valid (compileSearch item directMatch) ∧
      (compileSearch item directMatch).matchAny = false ∧
      ((compileSearch item directMatch).type = .piSearch ↔ directMatch = false) ∧
      itemsLanguage [compileSearch item directMatch] = pendingLanguage γ directMatch * {item.str} := by
  rw [itemsLanguage_singleton]
  cases directMatch with
  | true =>
    simp [compileSearch, Valid, hlength, hdata, hany, PatternItem.bodyLanguage,
      PatternItem.tailLanguage, pendingLanguage, PatternItem.str]
  | false =>
    simp [compileSearch, Valid, htype, hlength, hdata, hany, PatternItem.bodyLanguage,
      PatternItem.tailLanguage, pendingLanguage, PatternItem.str]

variable {P}

theorem optimize_spec {done rest : List (PatternItem γ)} {directMatch : Bool} (hdone : Linked done)
    (hlast : ∀ a ∈ done.getLast?, a.matchAny = true ↔ directMatch = false)
    (hvalid : ∀ item ∈ rest, RawValid P item)
    (hchain : rest.IsChain fun a b => IsSkip a ↔ ¬ IsSkip b)
    (hhead : directMatch = false → ∀ b ∈ rest.head?, ¬ IsSkip b)
    (hne : done ≠ [] ∨ rest ≠ []) (hend : directMatch = false → rest = [] → done ≠ []) :
    Compiled (P.optimize done rest directMatch) ∧
      itemsLanguage (P.optimize done rest directMatch) =
        itemsLanguage done * (pendingLanguage γ directMatch * language (rest.flatMap P.itemTokens)) := by
  induction rest generalizing done directMatch with
  | nil =>
    have hdone0 : done ≠ [] := hne.resolve_right (by simp)
    refine ⟨.items hdone0 hdone, ?_⟩
    unfold optimize
    rw [List.flatMap_nil, language_nil, mul_one]
    cases directMatch with
    | true => exact (mul_one _).symm
    | false =>
      obtain ⟨init, last, rfl⟩ := eq_append_singleton_of_ne_nil hdone0
      have hany : last.matchAny = true := (hlast last (by simp)).2 rfl
      rw [itemsLanguage_append, itemsLanguage_singleton, mul_assoc, mul_assoc]
      simp [pendingLanguage, PatternItem.tailLanguage, hany, top_mul_top]
  | cons item rest ih =>
    obtain ⟨⟨hany, hitem⟩, hvalid⟩ := List.forall_mem_cons.1 hvalid
    have hrest := hchain.tail
    have hnext : ∀ b ∈ rest.head?, IsSkip item ↔ ¬ IsSkip b := by
      intro b hb
      cases rest with
      | nil => cases hb
      | cons b' rest =>
        cases hb
        exact hchain.rel
    -- a string is put behind the items
    have hstring {item' : PatternItem γ} (htype : item'.type = .piSearch) (hlength : 0 < item'.length)
        (hdata : item'.length ≤ item'.data.length) (hany' : item'.matchAny = false)
        (htokens : P.itemTokens item = item'.str.map .char) :
        Compiled (P.optimize (done ++ [compileSearch item' directMatch]) rest true) ∧
          itemsLanguage (P.optimize (done ++ [compileSearch item' directMatch]) rest true) =
            itemsLanguage done *
              (pendingLanguage γ directMatch * language ((item :: rest).flatMap P.itemTokens)) := by
      obtain ⟨hok, hnone, hsearch, hlanguage⟩ :=
        compileSearch_spec htype hlength hdata hany' directMatch
      obtain ⟨hcompiled, heq⟩ := @ih (done ++ [compileSearch item' directMatch]) true (hdone.concat hlast hok hsearch) (by simp [hnone]) hvalid hrest
        (by simp) (by simp) (by simp)
      refine ⟨hcompiled, ?_⟩
      rw [heq, itemsLanguage_append, hlanguage, List.flatMap_cons, language_append, htokens,
        language_chars]
      simp [pendingLanguage, mul_assoc]
    unfold optimize
    cases htype : item.type with
    | piNone => simp [htype] at hitem
    | piSearch =>
      simp only [htype] at hitem ⊢
      exact hstring htype hitem.1 hitem.2 hany (by simp [itemTokens, htype])
    | piEscapedString =>
      simp only [htype] at hitem ⊢
      obtain ⟨hlength, hread⟩ := hitem
      refine hstring rfl hlength (by simp [hread]) hany ?_
      simp [itemTokens, htype, PatternItem.str, List.take_of_length_le hread.le]
    | piDirectMatch => simp [htype] at hitem
    | piSkipFixed =>
      simp only [htype] at hitem ⊢
      cases directMatch with
      | false => exact absurd (.inl htype) (hhead rfl item rfl)
      | true =>
        obtain ⟨hcompiled, heq⟩ := @ih (done ++ [item]) true
          (hdone.concat hlast (by simp [Valid, htype, hitem]) (by simp [htype])) (by simp [hany])
          hvalid hrest (by simp) (by simp) (by simp)
        refine ⟨hcompiled, ?_⟩
        rw [heq, itemsLanguage_append, itemsLanguage_singleton, List.flatMap_cons, language_append]
        simp [pendingLanguage, itemTokens, htype, language_replicate_one, PatternItem.bodyLanguage,
          PatternItem.tailLanguage, hany, mul_assoc]
    | piSkipMore =>
      simp only
      cases directMatch with
      | false => exact absurd (.inr htype) (hhead rfl item rfl)
      | true =>
        have hskip : ∀ b ∈ rest.head?, ¬ IsSkip b := fun b hb => (hnext b hb).1 (.inr htype)
        have htokens : language ((item :: rest).flatMap P.itemTokens) =
            oneChar γ ^ item.length * (⊤ * language (rest.flatMap P.itemTokens)) := by
          rw [List.flatMap_cons, language_append]
          simp only [itemTokens, htype, language_cons, language_replicate_one, Token.language,
            top_mul_oneChar_pow, mul_assoc]
        rw [htokens]
        split_ifs with hlength hdone0 hrest0
        · obtain ⟨hcompiled, heq⟩ := @ih (done ++ [{ item with type := .piSkipFixed, matchAny := true }]) false
            (hdone.concat hlast (by simp [Valid]; omega) (by simp)) (by simp) hvalid hrest
            (fun _ => hskip) (by simp) (by simp)
          refine ⟨hcompiled, ?_⟩
          rw [heq, itemsLanguage_append, itemsLanguage_singleton]
          simp only [pendingLanguage_true, pendingLanguage_false, PatternItem.bodyLanguage,
            PatternItem.tailLanguage, if_true, mul_assoc, one_mul]
          rw [← mul_assoc ⊤ ⊤, top_mul_top]
        · obtain ⟨init, last, rfl⟩ := eq_append_singleton_of_ne_nil hdone0
          rw [markLast_append]
          have hlength0 : item.length = 0 := by omega
          obtain ⟨hcompiled, heq⟩ := @ih (init ++ [{ last with matchAny := true }]) false hdone.markLast (by simp) hvalid hrest (fun _ => hskip) (by simp)
            (by simp)
          refine ⟨hcompiled, ?_⟩
          have hlastAny : last.matchAny = false := by
            have := hlast last (by simp)
            simpa using this
          rw [heq, itemsLanguage_append, itemsLanguage_append, itemsLanguage_singleton,
            itemsLanguage_singleton, hlength0]
          have hbody : PatternItem.bodyLanguage { last with matchAny := true } = last.bodyLanguage := rfl
          simp only [hbody, pendingLanguage_true, pendingLanguage_false, PatternItem.tailLanguage,
            hlastAny, if_true, mul_assoc, one_mul, pow_zero]
          rw [← mul_assoc ⊤ ⊤, top_mul_top, if_neg Bool.false_ne_true, one_mul]
        · have hlength0 : item.length = 0 := by omega
          have hdone1 : done = [] := not_not.1 hdone0
          subst hdone1
          obtain ⟨hcompiled, heq⟩ := @ih ([]) false hdone (by simp) hvalid
            hrest (fun _ => hskip) (.inr hrest0) (fun _ h => absurd h hrest0)
          refine ⟨hcompiled, ?_⟩
          rw [heq, hlength0]
          simp [pendingLanguage]
        · have hlength0 : item.length = 0 := by omega
          have hdone1 : done = [] := not_not.1 hdone0
          have hrest1 : rest = [] := not_not.1 hrest0
          subst hdone1 hrest1
          refine ⟨.empty rfl, ?_⟩
          simp [optimize, itemsLanguage, PatternItem.bodyLanguage, PatternItem.tailLanguage, hlength0,
            pendingLanguage]

theorem parsed_init (P : LikePattern γ) : Parsed P ([], newItem .piNone 0 []) P.patternStr where
  finished := by simp
  current := ⟨rfl, rfl⟩
  chain := List.isChain_singleton _
  first _ := rfl

/-- The items stand for the language of the pattern. -/
theorem compile_spec [Zero γ] {items : List (PatternItem γ)} (h : P.compile = .ok items) :
    ∃ ts, P.tokens P.patternStr = some ts ∧ Compiled items ∧ itemsLanguage items = language ts := by
  unfold compile at h
  cases hparse : P.parse P.patternStr ([], newItem .piNone 0 []) with
  | error e =>
    rw [hparse] at h
    cases h
  | ok raw =>
    rw [hparse] at h
    cases h
    obtain ⟨ts, htokens, hraw, hlanguage⟩ := parse_spec (parsed_init P) hparse
    have hstart : language (stateTokens P ([], newItem .piNone 0 [])) = 1 := rfl
    rw [hstart, one_mul] at hlanguage
    refine ⟨ts, htokens, ?_⟩
    rw [← hlanguage]
    cases hraw with
    | @empty item htype hany =>
      have hopt : P.optimize [] [item] true = [item] := by simp [optimize, htype]
      rw [hopt]
      refine ⟨.empty htype, ?_⟩
      simp [itemsLanguage, PatternItem.bodyLanguage, PatternItem.tailLanguage, htype, hany, itemTokens]
    | items hne hvalid hchain =>
      have hstart : Linked ([] : List (PatternItem γ)) := ⟨by simp, List.isChain_nil⟩
      obtain ⟨hcompiled, heq⟩ := @optimize_spec _ _ P [] raw true hstart (by simp) hvalid hchain
        (by simp) (.inr hne) (by simp)
      refine ⟨hcompiled, ?_⟩
      rw [heq, itemsLanguage, one_mul, pendingLanguage_true, one_mul]

end LikePattern

end FirebirdCore.Like
