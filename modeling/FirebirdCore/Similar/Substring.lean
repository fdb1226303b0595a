import FirebirdCore.Similar.Accepted
import Mathlib.Order.Filter.AtTopBot.Basic

/-!
# SUBSTRING with a SIMILAR TO pattern

The pattern is cut at its two separators, an escape character and a double quote. The search looks for
the shortest beginning of the string that matches the first part while the remainder matches the text
of the other two, and then for the longest beginning of the remainder that matches the second part.
-/
namespace FirebirdCore.Similar
open scoped Computability

variable {α γ : Type} [DecidableEq γ]

/-! ## The constructor -/

/-- `behind` is what the memory holds from the end of the pattern to where the constructor stops: it
takes the bytes of the pattern for characters of the canonical width. -/
structure SubstringPattern (α γ : Type) where
  textType : TextType α γ
  escapeChar : γ
  originalPatternStr : List α
  behind : List γ

structure SubstringSimilarMatcher (α γ : Type) where
  textType : TextType α γ
  r1 : List (Node α γ)
  r2 : List (Node α γ)
  r3 : List (Node α γ)
  r23 : List (Node α γ)

namespace SubstringPattern

variable (E : SubstringPattern α γ)

/-- The loop over the canonical characters: the lengths of the segments in front of the separators. The
current segment has `count` characters so far. -/
def segments : List γ → ℕ → List ℕ → Except ParseError (List ℕ)
  | [], _, lengths => .ok lengths
  | c :: rest, count, lengths =>
      if c ≠ E.escapeChar then segments rest (count + 1) lengths
      else
        match rest with
        | [] => .error .invalidSimilarPattern
        | next :: rest =>
            if next = E.textType.canonicalChar .doubleQuote then
              if lengths.length ≥ 2 then .error .invalidSimilarPattern
              else segments rest 0 (lengths ++ [count])
            else segments rest (count + 2) lengths

def part (text : List α) : Evaluator α γ := ⟨E.textType, some E.escapeChar, text⟩

def create : Except ParseError (SubstringSimilarMatcher α γ) :=
  match E.segments (E.originalPatternStr.map E.textType.canonical ++ E.behind) 0 [] with
  | .error e => .error e
  | .ok [length1, length2] =>
      let text1 := E.originalPatternStr.take length1
      let text2 := (E.originalPatternStr.drop (length1 + 2)).take length2
      let text3 := E.originalPatternStr.drop (length1 + 2 + length2 + 2)
      match (E.part text1).compile, (E.part text2).compile, (E.part text3).compile,
        (E.part (text2 ++ text3)).compile with
      | .ok r1, .ok r2, .ok r3, .ok r23 => .ok ⟨E.textType, r1, r2, r3, r23⟩
      | .error e, _, _, _ => .error e
      | _, .error e, _, _ => .error e
      | _, _, .error e, _ => .error e
      | _, _, _, .error e => .error e
  | .ok _ => .error .invalidSimilarPattern

end SubstringPattern

/-! ## The search -/

/-- Where the match begins and how long it is, in bytes. -/
structure MatchedPart where
  start : ℕ
  length : ℕ
  deriving DecidableEq, Repr

def TextType.byteLength (T : TextType α γ) (s : List α) : ℕ := (s.flatMap T.bytes).length

namespace SubstringSimilarMatcher

variable (M : SubstringSimilarMatcher α γ)

/-- The first so many characters match the second part, and the others the third. -/
def splits (fuel : ℕ) (rest : List α) (charLen : ℕ) : Option Bool :=
  match matchNodes M.textType M.r2 (rest.take charLen) fuel with
  | some true => matchNodes M.textType M.r3 (rest.drop charLen) fuel
  | matched => matched

/-- The inner loop, in which the second part becomes shorter. -/
def shrink (fuel : ℕ) (rest : List α) : ℕ → Option (Option ℕ)
  | 0 =>
      match M.splits fuel rest 0 with
      | none => none
      | some true => some (some 0)
      | some false => some none
  | charLen + 1 =>
      match M.splits fuel rest (charLen + 1) with
      | none => none
      | some true => some (some (charLen + 1))
      | some false => shrink fuel rest charLen

/-- A turn of the outer loop. -/
def tryStart (fuel : ℕ) (before rest : List α) : Option (Option ℕ) :=
  match matchNodes M.textType M.r1 before fuel with
  | none => none
  | some false => some none
  | some true =>
      match matchNodes M.textType M.r23 rest fuel with
      | none => none
      | some false => some none
      | some true => M.shrink fuel rest rest.length

def matchedPart (before rest : List α) (charLen : ℕ) : MatchedPart :=
  ⟨M.textType.byteLength before, M.textType.byteLength (rest.take charLen)⟩

/-- The outer loop over the beginnings of the string. -/
def search (fuel : ℕ) (before : List α) : List α → Option (Option MatchedPart)
  | [] => (M.tryStart fuel before []).map fun found => found.map (M.matchedPart before [])
  | c :: rest =>
      match M.tryStart fuel before (c :: rest) with
      | none => none
      | some (some charLen) => some (some (M.matchedPart before (c :: rest) charLen))
      | some none => if rest = [] then some none else search fuel (before ++ [c]) rest

/-- The result, if each matcher takes at most so many turns. -/
def result (buffer : List α) (fuel : ℕ) : Option (Option MatchedPart) := M.search fuel [] buffer

end SubstringSimilarMatcher

/-! ## What the search is for -/

section

variable (L1 L2 L3 L23 : Language α)

def Splits (s s1 s2 s3 : List α) : Prop := s = s1 ++ (s2 ++ s3) ∧ s1 ∈ L1 ∧ s2 ∈ L2 ∧ s3 ∈ L3

/-- There is no shorter first part. -/
def IsShortest (s s1 rest : List α) : Prop :=
  (∃ s2 s3, rest = s2 ++ s3 ∧ Splits L1 L2 L3 s s1 s2 s3) ∧
    ∀ t1 t2 t3, Splits L1 L2 L3 s t1 t2 t3 → s1.length ≤ t1.length

/-- The second part of the string, if it can be split: the longest one behind the shortest first
part. -/
def IsResult (T : TextType α γ) (s : List α) : Option MatchedPart → Prop
  | none => ¬ ∃ s1 s2 s3, Splits L1 L2 L3 s s1 s2 s3
  | some part => ∃ s1 s2 s3, IsShortest L1 L2 L3 s s1 (s2 ++ s3) ∧ Splits L1 L2 L3 s s1 s2 s3 ∧
      (∀ t2 t3, Splits L1 L2 L3 s s1 t2 t3 → t2.length ≤ s2.length) ∧
      part = ⟨T.byteLength s1, T.byteLength s2⟩

end

/-! ## The loops -/

/-- With enough turns the matcher decides the language. -/
def Decides (T : TextType α γ) (nodes : List (Node α γ)) (L : Language α) : Prop :=
  ∀ s, ∃ matched, (∀ᶠ fuel in Filter.atTop, matchNodes T nodes s fuel = some matched) ∧
    (matched = true ↔ s ∈ L)

section

variable {M : SubstringSimilarMatcher α γ} {L1 L2 L3 L23 : Language α}

theorem splits_spec (h2 : Decides M.textType M.r2 L2) (h3 : Decides M.textType M.r3 L3)
    (rest : List α) (charLen : ℕ) : ∃ found,
      (∀ᶠ fuel in Filter.atTop, M.splits fuel rest charLen = some found) ∧
      (found = true ↔ rest.take charLen ∈ L2 ∧ rest.drop charLen ∈ L3) := by
  obtain ⟨matched2, hfuel2, hiff2⟩ := h2 (rest.take charLen)
  cases matched2 with
  | false =>
    refine ⟨false, ?_, by simp [← hiff2]⟩
    filter_upwards [hfuel2] with fuel hfuel
    simp only [SubstringSimilarMatcher.splits, hfuel]
  | true =>
    obtain ⟨matched3, hfuel3, hiff3⟩ := h3 (rest.drop charLen)
    refine ⟨matched3, ?_, by simp [← hiff2, hiff3]⟩
    filter_upwards [hfuel2, hfuel3] with fuel hfuel hfuel'
    simp only [SubstringSimilarMatcher.splits, hfuel, hfuel']

/-- The longest second part of at most so many characters. -/
theorem shrink_spec (h2 : Decides M.textType M.r2 L2) (h3 : Decides M.textType M.r3 L3)
    (rest : List α) (charLen : ℕ) : ∃ found,
      (∀ᶠ fuel in Filter.atTop, M.shrink fuel rest charLen = some found) ∧
      (∀ n, found = some n → n ≤ charLen ∧ rest.take n ∈ L2 ∧ rest.drop n ∈ L3) ∧
      ∀ n ≤ charLen, rest.take n ∈ L2 → rest.drop n ∈ L3 → ∃ m, found = some m ∧ n ≤ m := by
  induction charLen with
  | zero =>
    obtain ⟨here, hfuel, hiff⟩ := splits_spec h2 h3 rest 0
    cases here with
    | true =>
      refine ⟨some 0, ?_, ?_, ?_⟩
      · filter_upwards [hfuel] with fuel hfuel
        simp only [SubstringSimilarMatcher.shrink, hfuel]
      · intro n hn
        cases hn
        exact ⟨le_rfl, hiff.1 rfl⟩
      · intro n hn _ _
        exact ⟨0, rfl, hn⟩
    | false =>
      refine ⟨none, ?_, by simp, ?_⟩
      · filter_upwards [hfuel] with fuel hfuel
        simp only [SubstringSimilarMatcher.shrink, hfuel]
      · intro n hn hn2 hn3
        rw [Nat.le_zero.1 hn] at hn2 hn3
        exact absurd (hiff.2 ⟨hn2, hn3⟩) (by simp)
  | succ charLen ih =>
    obtain ⟨here, hfuel, hiff⟩ := splits_spec h2 h3 rest (charLen + 1)
    cases here with
    | true =>
      refine ⟨some (charLen + 1), ?_, ?_, ?_⟩
      · filter_upwards [hfuel] with fuel hfuel
        simp only [SubstringSimilarMatcher.shrink, hfuel]
      · intro n hn
        cases hn
        exact ⟨le_rfl, hiff.1 rfl⟩
      · intro n hn _ _
        exact ⟨charLen + 1, rfl, hn⟩
    | false =>
      obtain ⟨found, hshorter, hfound, hlongest⟩ := ih
      refine ⟨found, ?_, ?_, ?_⟩
      · filter_upwards [hfuel, hshorter] with fuel hfuel hshorter
        simp only [SubstringSimilarMatcher.shrink, hfuel, hshorter]
      · intro n hn
        obtain ⟨hle, hsplit⟩ := hfound n hn
        exact ⟨Nat.le_succ_of_le hle, hsplit⟩
      · intro n hn hn2 hn3
        rcases Nat.lt_or_eq_of_le hn with hlt | rfl
        · exact hlongest n (Nat.le_of_lt_succ hlt) hn2 hn3
        · exact absurd (hiff.2 ⟨hn2, hn3⟩) (by simp)

/-- What a turn of the outer loop looks for: the second part is the longest one. -/
theorem tryStart_spec (h1 : Decides M.textType M.r1 L1) (h2 : Decides M.textType M.r2 L2)
    (h3 : Decides M.textType M.r3 L3) (h23 : Decides M.textType M.r23 L23) (before rest : List α) :
    ∃ found, (∀ᶠ fuel in Filter.atTop, M.tryStart fuel before rest = some found) ∧
      (∀ n, found = some n → before ∈ L1 ∧ rest ∈ L23 ∧ rest.take n ∈ L2 ∧ rest.drop n ∈ L3 ∧
        n ≤ rest.length) ∧
      (before ∈ L1 → rest ∈ L23 → ∀ s2 s3, rest = s2 ++ s3 → s2 ∈ L2 → s3 ∈ L3 →
        ∃ n, found = some n ∧ s2.length ≤ n) := by
  obtain ⟨matched1, hfuel1, hiff1⟩ := h1 before
  cases matched1 with
  | false =>
    refine ⟨none, ?_, by simp, fun hin => absurd (hiff1.2 hin) (by simp)⟩
    filter_upwards [hfuel1] with fuel hfuel
    simp only [SubstringSimilarMatcher.tryStart, hfuel]
  | true =>
    obtain ⟨matched23, hfuel23, hiff23⟩ := h23 rest
    cases matched23 with
    | false =>
      refine ⟨none, ?_, by simp, fun _ hin => absurd (hiff23.2 hin) (by simp)⟩
      filter_upwards [hfuel1, hfuel23] with fuel hfuel hfuel'
      simp only [SubstringSimilarMatcher.tryStart, hfuel, hfuel']
    | true =>
      obtain ⟨found, hshrink, hfound, hlongest⟩ := shrink_spec h2 h3 rest rest.length
      refine ⟨found, ?_, ?_, ?_⟩
      · filter_upwards [hfuel1, hfuel23, hshrink] with fuel hfuel hfuel' hshrink
        simp only [SubstringSimilarMatcher.tryStart, hfuel, hfuel', hshrink]
      · intro n hn
        obtain ⟨hle, hn2, hn3⟩ := hfound n hn
        exact ⟨hiff1.1 rfl, hiff23.1 rfl, hn2, hn3, hle⟩
      · rintro - - s2 s3 rfl hs2 hs3
        refine hlongest s2.length (by simp) ?_ ?_
        · rwa [List.take_left]
        · rwa [List.drop_left]

/-- A beginning of the string that the outer loop takes: the second part exists, and the remainder
matches the text of the second and the third part. -/
structure Taken (L1 L2 L3 L23 : Language α) (s1 rest : List α) : Prop where
  first : s1 ∈ L1
  remainder : rest ∈ L23
  splits : ∃ s2 s3, rest = s2 ++ s3 ∧ s2 ∈ L2 ∧ s3 ∈ L3

/-- What the outer loop finds when it has come to `before`. But for `before` itself it does not try the
whole string. -/
theorem search_spec (h1 : Decides M.textType M.r1 L1) (h2 : Decides M.textType M.r2 L2)
    (h3 : Decides M.textType M.r3 L3) (h23 : Decides M.textType M.r23 L23) (before rest : List α) :
    ∃ found, (∀ᶠ fuel in Filter.atTop, M.search fuel before rest = some found) ∧
      (found = none → ∀ u t, rest = u ++ t → (t ≠ [] ∨ u = []) →
        ¬ Taken L1 L2 L3 L23 (before ++ u) t) ∧
      (∀ part, found = some part → ∃ u s2 s3, rest = u ++ (s2 ++ s3) ∧ (s2 ++ s3 ≠ [] ∨ u = []) ∧
        before ++ u ∈ L1 ∧ s2 ++ s3 ∈ L23 ∧ s2 ∈ L2 ∧ s3 ∈ L3 ∧
        (∀ v t, rest = v ++ t → v.length < u.length → ¬ Taken L1 L2 L3 L23 (before ++ v) t) ∧
        (∀ t2 t3, s2 ++ s3 = t2 ++ t3 → t2 ∈ L2 → t3 ∈ L3 → t2.length ≤ s2.length) ∧
        part = ⟨M.textType.byteLength (before ++ u), M.textType.byteLength s2⟩) := by
  induction rest generalizing before with
  | nil =>
    obtain ⟨found, hfuel, hfound, hlongest⟩ := tryStart_spec h1 h2 h3 h23 before []
    refine ⟨found.map (M.matchedPart before []), ?_, ?_, ?_⟩
    · filter_upwards [hfuel] with fuel hfuel
      simp only [SubstringSimilarMatcher.search, hfuel, Option.map_some]
    · rintro hnone u t hut - ⟨hfirst, hrest, s2, s3, rfl, hs2, hs3⟩
      obtain ⟨rfl, ht⟩ := List.append_eq_nil_iff.1 hut.symm
      rw [List.append_nil] at hfirst
      obtain ⟨n, rfl, -⟩ := hlongest hfirst (ht ▸ hrest) s2 s3 ht.symm hs2 hs3
      cases hnone
    · intro part hpart
      obtain ⟨n, hn, rfl⟩ := Option.map_eq_some_iff.1 hpart
      obtain ⟨hfirst, hrest, hn2, hn3, -⟩ := hfound n hn
      simp only [List.take_nil, List.drop_nil] at hn2 hn3
      refine ⟨[], [], [], rfl, .inr rfl, by simpa using hfirst, hrest, hn2, hn3, by simp, ?_, by
        simp [SubstringSimilarMatcher.matchedPart]⟩
      intro t2 t3 heq _ _
      rw [(List.append_eq_nil_iff.1 heq.symm).1]
  | cons c rest ih =>
    obtain ⟨found, hfuel, hfound, hlongest⟩ := tryStart_spec h1 h2 h3 h23 before (c :: rest)
    cases found with
    | some n =>
      obtain ⟨hfirst, hrest, hn2, hn3, hle⟩ := hfound n rfl
      refine ⟨some (M.matchedPart before (c :: rest) n), ?_, by simp, ?_⟩
      · filter_upwards [hfuel] with fuel hfuel
        simp only [SubstringSimilarMatcher.search, hfuel]
      · intro part hpart
        cases hpart
        have hsplit : (c :: rest).take n ++ (c :: rest).drop n = c :: rest := List.take_append_drop ..
        refine ⟨[], _, _, hsplit.symm, .inr rfl, by simpa using hfirst, hsplit.symm ▸ hrest, hn2, hn3,
          by simp, ?_, by simp [SubstringSimilarMatcher.matchedPart]⟩
        intro t2 t3 heq ht2 ht3
        obtain ⟨m, hm, hlength⟩ := hlongest hfirst hrest t2 t3 (hsplit.symm.trans heq) ht2 ht3
        cases hm
        rw [List.length_take]
        exact le_min hlength (hlength.trans hle)
    | none =>
      have hnot : ¬ Taken L1 L2 L3 L23 before (c :: rest) := by
        rintro ⟨hfirst, hrest, s2, s3, heq, hs2, hs3⟩
        obtain ⟨n, hn, -⟩ := hlongest hfirst hrest s2 s3 heq hs2 hs3
        cases hn
      by_cases hend : rest = []
      · subst hend
        refine ⟨none, ?_, ?_, by simp⟩
        · filter_upwards [hfuel] with fuel hfuel
          simp only [SubstringSimilarMatcher.search, hfuel, if_true]
        · rintro - u t hut hallowed
          cases u with
          | nil =>
            rw [List.append_nil, ← List.nil_append t, ← hut]
            exact hnot
          | cons x u =>
            have htail := (List.append_eq_nil_iff.1 (List.cons_eq_cons.1 hut).2.symm).2
            rcases hallowed with ht | hu
            · exact absurd htail ht
            · cases hu
      · obtain ⟨found, hsearch, hnone, hsome⟩ := ih (before ++ [c])
        refine ⟨found, ?_, ?_, ?_⟩
        · filter_upwards [hfuel, hsearch] with fuel hfuel hsearch
          simp only [SubstringSimilarMatcher.search, hfuel, hend, if_false, hsearch]
        · intro hfound u t hut hallowed
          cases u with
          | nil =>
            rw [List.append_nil, ← List.nil_append t, ← hut]
            exact hnot
          | cons x u =>
            obtain ⟨hx, htail⟩ := List.cons_eq_cons.1 hut
            subst hx
            have ht : t ≠ [] := by
              rcases hallowed with ht | hu
              · exact ht
              · cases hu
            rw [List.append_cons]
            exact hnone hfound u t htail (.inl ht)
        · intro part hpart
          obtain ⟨u, s2, s3, hrest, hallowed, hfirst, hremainder, hs2, hs3, hshortest, hlong, heq⟩ :=
            hsome part hpart
          have hremains : s2 ++ s3 ≠ [] := by
            rcases hallowed with ht | rfl
            · exact ht
            · rwa [← List.nil_append (s2 ++ s3), ← hrest]
          rw [← List.append_cons] at hfirst heq
          refine ⟨c :: u, s2, s3, by rw [hrest, List.cons_append], .inl hremains, hfirst, hremainder,
            hs2, hs3, ?_, hlong, heq⟩
          intro v t hvt hlt
          cases v with
          | nil =>
            rw [List.append_nil, ← List.nil_append t, ← hvt]
            exact hnot
          | cons x v =>
            obtain ⟨hx, htail⟩ := List.cons_eq_cons.1 hvt
            subst hx
            rw [List.append_cons]
            exact hshortest v t htail (Nat.lt_of_succ_lt_succ hlt)

/-! ## The whole search -/

omit [DecidableEq γ] in
/-- The bytes of a beginning of a string tell which one it is. -/
theorem eq_of_byteLength_eq {T : TextType α γ} {s u v : List α} (hu : u <+: s) (hv : v <+: s)
    (h : T.byteLength u = T.byteLength v) : u = v := by
  wlog hle : u.length ≤ v.length generalizing u v
  · exact (this hv hu h.symm (Nat.le_of_not_le hle)).symm
  obtain ⟨w, rfl⟩ := List.prefix_of_prefix_length_le hu hv hle
  have hzero : (w.flatMap T.bytes).length = 0 := by
    simp only [TextType.byteLength, List.flatMap_append, List.length_append] at h
    omega
  have hw : w = [] := by
    apply List.eq_nil_iff_forall_not_mem.2
    intro c hc
    exact T.bytes_ne_nil c (List.flatMap_eq_nil_iff.1 (List.length_eq_zero_iff.1 hzero) c hc)
  rw [hw, List.append_nil]

/-- The search is right just if the string cannot be split, or the remainder behind the shortest first
part matches the text of the other parts and is not empty, but for an empty string. -/
theorem result_spec (h1 : Decides M.textType M.r1 L1) (h2 : Decides M.textType M.r2 L2)
    (h3 : Decides M.textType M.r3 L3) (h23 : Decides M.textType M.r23 L23) (s : List α) :
    ∃ found, (∀ᶠ fuel in Filter.atTop, M.result s fuel = some found) ∧
      (IsResult L1 L2 L3 M.textType s found ↔ (¬ ∃ s1 s2 s3, Splits L1 L2 L3 s s1 s2 s3) ∨
        ∃ s1 rest, IsShortest L1 L2 L3 s s1 rest ∧ rest ∈ L23 ∧ (rest ≠ [] ∨ s = [])) := by
  obtain ⟨found, hfuel, hnone, hsome⟩ := search_spec h1 h2 h3 h23 [] s
  refine ⟨found, hfuel, ?_, ?_⟩
  · intro hright
    cases found with
    | none => exact .inl hright
    | some part =>
      obtain ⟨s1, s2, s3, hshortest, hsplits, -, hpart⟩ := hright
      obtain ⟨u, t2, t3, hs, hallowed, -, hremainder, -, -, -, -, hpart'⟩ := hsome part rfl
      rw [hpart] at hpart'
      have hlength : M.textType.byteLength s1 = M.textType.byteLength u := by
        simpa using congrArg MatchedPart.start hpart'
      have hu : s1 = u := eq_of_byteLength_eq ⟨_, hsplits.1.symm⟩ ⟨_, hs.symm⟩ hlength
      subst hu
      have hrest : s2 ++ s3 = t2 ++ t3 := List.append_cancel_left (hsplits.1.symm.trans hs)
      refine .inr ⟨s1, s2 ++ s3, hshortest, hrest ▸ hremainder, ?_⟩
      rcases hallowed with ht | rfl
      · exact .inl (hrest ▸ ht)
      · by_cases hs0 : s = []
        · exact .inr hs0
        · refine .inl ?_
          rwa [← List.nil_append (s2 ++ s3), ← hsplits.1]
  · rintro (hno | ⟨s1, rest, ⟨⟨s2, s3, rfl, hsplits⟩, hshortest⟩, hremainder, hallowed⟩)
    · cases found with
      | none => exact hno
      | some part =>
        obtain ⟨u, t2, t3, hs, -, hfirst, -, ht2, ht3, -⟩ := hsome part rfl
        exact absurd ⟨u, t2, t3, hs, hfirst, ht2, ht3⟩ hno
    · have htaken : Taken L1 L2 L3 L23 s1 (s2 ++ s3) :=
        ⟨hsplits.2.1, hremainder, s2, s3, rfl, hsplits.2.2.1, hsplits.2.2.2⟩
      have hallowed : s2 ++ s3 ≠ [] ∨ s1 = [] := by
        rcases hallowed with ht | hs
        · exact .inl ht
        · exact .inr (List.append_eq_nil_iff.1 (hs ▸ hsplits.1).symm).1
      cases found with
      | none => exact absurd htaken (hnone rfl s1 _ hsplits.1 hallowed)
      | some part =>
        obtain ⟨u, t2, t3, hs, -, hfirst, -, ht2, ht3, hmin, hlong, hpart⟩ := hsome part rfl
        have hle := hshortest u t2 t3 ⟨hs, hfirst, ht2, ht3⟩
        have hge : u.length ≤ s1.length := by
          by_contra hlt
          exact hmin s1 _ hsplits.1 (Nat.lt_of_not_le hlt) htaken
        have hu : s1 = u :=
          (List.append_inj (hsplits.1.symm.trans hs) (le_antisymm hle hge)).1
        subst hu
        have hrest : s2 ++ s3 = t2 ++ t3 := List.append_cancel_left (hsplits.1.symm.trans hs)
        refine ⟨s1, t2, t3, ⟨⟨t2, t3, rfl, hs, hfirst, ht2, ht3⟩, hshortest⟩,
          ⟨hs, hfirst, ht2, ht3⟩, ?_, hpart⟩
        rintro v2 v3 ⟨hv, -, hv2, hv3⟩
        exact hlong v2 v3 (List.append_cancel_left (hs.symm.trans hv)) hv2 hv3

end

/-! ## The segments -/

namespace SubstringPattern

variable (E : SubstringPattern α γ)

/-- There is no separator, and no escape character at the end. -/
def whole : List γ → Bool
  | [] => true
  | c :: rest =>
      if c ≠ E.escapeChar then whole rest
      else
        match rest with
        | [] => false
        | next :: rest => next ≠ E.textType.canonicalChar .doubleQuote && whole rest

theorem segments_char {c : γ} (hc : c ≠ E.escapeChar) (more : List γ) (count : ℕ)
    (lengths : List ℕ) :
    E.segments (c :: more) count lengths = E.segments more (count + 1) lengths := by
  conv_lhs => unfold segments
  simp only [hc, ne_eq, not_false_eq_true, if_true]

theorem segments_escaped {e next : γ} (he : e = E.escapeChar)
    (hnext : next ≠ E.textType.canonicalChar .doubleQuote) (more : List γ) (count : ℕ)
    (lengths : List ℕ) :
    E.segments (e :: next :: more) count lengths = E.segments more (count + 2) lengths := by
  conv_lhs => unfold segments
  simp only [he, ne_eq, not_true_eq_false, if_false, hnext]

theorem segments_separator {e q : γ} (he : e = E.escapeChar)
    (hq : q = E.textType.canonicalChar .doubleQuote) (more : List γ) (count : ℕ) (lengths : List ℕ) :
    E.segments (e :: q :: more) count lengths =
      if lengths.length ≥ 2 then .error .invalidSimilarPattern
      else E.segments more 0 (lengths ++ [count]) := by
  conv_lhs => unfold segments
  simp only [he, ne_eq, not_true_eq_false, if_false, hq, if_true]

theorem segments_append {text : List γ} (h : E.whole text = true) (more : List γ) (count : ℕ)
    (lengths : List ℕ) :
    E.segments (text ++ more) count lengths = E.segments more (count + text.length) lengths := by
  fun_induction whole E text generalizing count with
  | case1 => rfl
  | case2 c rest hc ih =>
    rw [List.cons_append, E.segments_char hc, ih h, List.length_cons, add_assoc, add_comm 1]
  | case3 c hc => cases h
  | case4 c hc next rest ih =>
    rw [Bool.and_eq_true, decide_eq_true_iff] at h
    rw [List.cons_append, List.cons_append, E.segments_escaped (not_ne_iff.1 hc) h.1, ih h.2,
      List.length_cons, List.length_cons, add_assoc, add_comm 2]

/-- Behind two separators there must be no other one. -/
theorem segments_two (text : List γ) (count length1 length2 : ℕ) :
    E.segments text count [length1, length2] =
      if E.whole text = true then .ok [length1, length2] else .error .invalidSimilarPattern := by
  fun_induction whole E text generalizing count with
  | case1 => rfl
  | case2 c rest hc ih => rw [E.segments_char hc, ih]
  | case3 c hc =>
    unfold segments
    simp only [if_neg hc]
    rfl
  | case4 c hc next rest ih =>
    have he := not_ne_iff.1 hc
    by_cases hquote : next = E.textType.canonicalChar .doubleQuote
    · rw [E.segments_separator he hquote]
      simp [hquote]
    · rw [E.segments_escaped he hquote, ih]
      simp [hquote]

/-- The pattern consists of three parts, and the text of each of them and of the last two together
stands for a pattern that is matched as it means. -/
structure Parts (E : SubstringPattern α γ) (text1 text2 text3 : List α)
    (p1 p2 p3 p23 : Pattern α γ) : Prop where
  separated : ∃ e q, E.textType.canonical e = E.escapeChar ∧
    E.textType.canonical q = E.textType.canonicalChar .doubleQuote ∧
    E.originalPatternStr = text1 ++ (e :: q :: (text2 ++ (e :: q :: text3)))
  whole1 : E.whole (text1.map E.textType.canonical) = true
  whole2 : E.whole (text2.map E.textType.canonical) = true
  whole3 : E.whole (text3.map E.textType.canonical) = true
  sound1 : (E.part text1).Sound p1
  sound2 : (E.part text2).Sound p2
  sound3 : (E.part text3).Sound p3
  sound23 : (E.part (text2 ++ text3)).Sound p23

end SubstringPattern

theorem Evaluator.Sound.decides {E : Evaluator α γ} {p : Pattern α γ} (h : E.Sound p) :
    ∃ nodes, E.compile = .ok nodes ∧ Decides E.textType nodes (p.language E.textType) := by
  obtain ⟨nodes, hcompile⟩ := h.accepted
  refine ⟨nodes, hcompile, fun s => ?_⟩
  obtain ⟨p', f, b, hread, rfl, hcompiled⟩ := compile_readPattern hcompile
  rw [readPattern_boundsRead h.pattern h.inPlace] at hread
  cases hread
  obtain ⟨fuel, matched, hmatch, hiff⟩ :=
    matchNodes_iff (hcompiled.implements (hcompiled.repeated.mp h.flags)) s
  refine ⟨matched, ?_, hiff⟩
  filter_upwards [Filter.eventually_ge_atTop fuel] with fuel' hle
  exact loop_mono hmatch hle

/-- The constructor cuts the pattern at its separators, if it finds no other one behind it. -/
theorem create_eq {E : SubstringPattern α γ} {text1 text2 text3 : List α} {p1 p2 p3 p23 : Pattern α γ}
    (h : E.Parts text1 text2 text3 p1 p2 p3 p23) : ∃ r1 r2 r3 r23,
      E.create = (if E.whole E.behind = true then .ok ⟨E.textType, r1, r2, r3, r23⟩
        else .error .invalidSimilarPattern) ∧
      Decides E.textType r1 (p1.language E.textType) ∧ Decides E.textType r2 (p2.language E.textType) ∧
      Decides E.textType r3 (p3.language E.textType) ∧
      Decides E.textType r23 (p23.language E.textType) := by
  obtain ⟨r1, hr1, hd1⟩ := h.sound1.decides
  obtain ⟨r2, hr2, hd2⟩ := h.sound2.decides
  obtain ⟨r3, hr3, hd3⟩ := h.sound3.decides
  obtain ⟨r23, hr23, hd23⟩ := h.sound23.decides
  refine ⟨r1, r2, r3, r23, ?_, hd1, hd2, hd3, hd23⟩
  obtain ⟨e, q, he, hq, htext⟩ := h.separated
  have hsegments : E.segments (E.originalPatternStr.map E.textType.canonical ++ E.behind) 0 [] =
      if E.whole E.behind = true then .ok [text1.length, text2.length]
      else .error .invalidSimilarPattern := by
    rw [htext]
    simp only [List.map_append, List.map_cons, List.append_assoc, List.cons_append]
    rw [E.segments_append h.whole1, E.segments_separator he hq, if_neg (by simp),
      E.segments_append h.whole2, E.segments_separator he hq, if_neg (by simp),
      E.segments_append h.whole3]
    simp only [List.nil_append, List.length_map, Nat.zero_add, List.cons_append]
    exact E.segments_two ..
  unfold SubstringPattern.create
  rw [hsegments]
  by_cases hbehind : E.whole E.behind = true
  · have htext1 : E.originalPatternStr.take text1.length = text1 := by
      rw [htext, List.take_left]
    have hdrop1 : E.originalPatternStr.drop (text1.length + 2) = text2 ++ (e :: q :: text3) := by
      rw [htext, ← List.drop_drop, List.drop_left]
      rfl
    have htext2 : (E.originalPatternStr.drop (text1.length + 2)).take text2.length = text2 := by
      rw [hdrop1, List.take_left]
    have htext3 : E.originalPatternStr.drop (text1.length + 2 + text2.length + 2) = text3 := by
      rw [add_assoc, ← List.drop_drop, hdrop1, ← List.drop_drop, List.drop_left]
      rfl
    simp only [if_pos hbehind, htext1, htext2, htext3, hr1, hr2, hr3, hr23]
  · simp only [if_neg hbehind]

/-- The result is right just if nothing behind the pattern is taken for a separator, and the search
finds the shortest first part: its remainder matches the text of the other two parts, and is not empty
but for an empty string. -/
theorem substring_right_iff (E : SubstringPattern α γ) {text1 text2 text3 : List α}
    {p1 p2 p3 p23 : Pattern α γ} (h : E.Parts text1 text2 text3 p1 p2 p3 p23) (s : List α) :
    (∃ M found, E.create = .ok M ∧ (∀ᶠ fuel in Filter.atTop, M.result s fuel = some found) ∧
        IsResult (p1.language E.textType) (p2.language E.textType) (p3.language E.textType)
          E.textType s found) ↔
      E.whole E.behind = true ∧
        ((¬ ∃ s1 s2 s3, Splits (p1.language E.textType) (p2.language E.textType)
            (p3.language E.textType) s s1 s2 s3) ∨
          ∃ s1 rest, IsShortest (p1.language E.textType) (p2.language E.textType)
              (p3.language E.textType) s s1 rest ∧
            rest ∈ p23.language E.textType ∧ (rest ≠ [] ∨ s = [])) := by
  obtain ⟨r1, r2, r3, r23, hcreate, hd1, hd2, hd3, hd23⟩ := create_eq h
  obtain ⟨found, hfuel, hiff⟩ := result_spec
    (M := ⟨E.textType, r1, r2, r3, r23⟩) hd1 hd2 hd3 hd23 s
  rw [hcreate]
  by_cases hbehind : E.whole E.behind = true
  · simp only [hbehind, if_true, true_and]
    rw [← hiff]
    constructor
    · rintro ⟨M, found', hM, hfuel', hright⟩
      cases hM
      obtain ⟨fuel, hfound, hfound'⟩ := (hfuel.and hfuel').exists
      rw [hfound] at hfound'
      cases hfound'
      exact hright
    · intro hright
      exact ⟨_, found, rfl, hfuel, hright⟩
  · rw [if_neg hbehind]
    constructor
    · rintro ⟨M, found', hM, -⟩
      cases hM
    · rintro ⟨hwhole, -⟩
      exact absurd hwhole hbehind

theorem accepted_of_toOption {E : Evaluator α γ} (h : E.compile.toOption.isSome = true) :
    ∃ nodes, E.compile = .ok nodes := by
  cases hcompile : E.compile with
  | error e => simp [hcompile, Except.toOption] at h
  | ok nodes => exact ⟨nodes, rfl⟩

/-- A letter in front of the separators, one between them and one behind. -/
def threeLetters : SubstringPattern Char Char :=
  ⟨utf8, '#', "a#\"b#\"c".toList, List.replicate 21 '\x00'⟩

theorem threeLetters_parts : threeLetters.Parts ['a'] ['b'] ['c'] (.exactly ['a']) (.exactly ['b'])
    (.exactly ['c']) (.exactly ['b', 'c']) where
  separated := ⟨'#', '"', rfl, rfl, rfl⟩
  whole1 := by decide +kernel
  whole2 := by decide +kernel
  whole3 := by decide +kernel
  sound1 := ⟨accepted_of_toOption (by decide +kernel), by decide +kernel, trivial, trivial⟩
  sound2 := ⟨accepted_of_toOption (by decide +kernel), by decide +kernel, trivial, trivial⟩
  sound3 := ⟨accepted_of_toOption (by decide +kernel), by decide +kernel, trivial, trivial⟩
  sound23 := ⟨accepted_of_toOption (by decide +kernel), by decide +kernel, trivial, trivial⟩

theorem substring_right_iff_threeLetters :
    (∃ M found, threeLetters.create = .ok M ∧
        (∀ᶠ fuel in Filter.atTop, M.result "abc".toList fuel = some found) ∧
        IsResult ((Pattern.exactly ['a']).language utf8) ((Pattern.exactly ['b']).language utf8)
          ((Pattern.exactly ['c']).language utf8) utf8 "abc".toList found) ↔
      threeLetters.whole threeLetters.behind = true ∧
        ((¬ ∃ s1 s2 s3, Splits ((Pattern.exactly ['a']).language utf8)
            ((Pattern.exactly ['b']).language utf8) ((Pattern.exactly ['c']).language utf8)
            "abc".toList s1 s2 s3) ∨
          ∃ s1 rest, IsShortest ((Pattern.exactly ['a']).language utf8)
              ((Pattern.exactly ['b']).language utf8) ((Pattern.exactly ['c']).language utf8)
              "abc".toList s1 rest ∧
            rest ∈ (Pattern.exactly ['b', 'c']).language utf8 ∧ (rest ≠ [] ∨ "abc".toList = [])) :=
  substring_right_iff threeLetters threeLetters_parts "abc".toList

/-- Nothing stands between the separators and behind them. -/
def lastSeparators : SubstringPattern Char Char :=
  ⟨utf8, '#', "a#\"#\"".toList, List.replicate 15 '\x00'⟩

theorem lastSeparators_parts :
    lastSeparators.Parts ['a'] [] [] (.exactly ['a']) .nothing .nothing .nothing where
  separated := ⟨'#', '"', rfl, rfl, rfl⟩
  whole1 := by decide +kernel
  whole2 := rfl
  whole3 := rfl
  sound1 := ⟨accepted_of_toOption (by decide +kernel), by decide +kernel, trivial, trivial⟩
  sound2 := ⟨accepted_of_toOption (by decide +kernel), by decide +kernel, trivial, trivial⟩
  sound3 := ⟨accepted_of_toOption (by decide +kernel), by decide +kernel, trivial, trivial⟩
  sound23 := ⟨accepted_of_toOption (by decide +kernel), by decide +kernel, trivial, trivial⟩

/-- The whole string is not tried for the first part. -/
theorem lastSeparators_wrong : ¬ ∀ (E : SubstringPattern Char Char) (text1 text2 text3 : List Char)
    (p1 p2 p3 p23 : Pattern Char Char), E.Parts text1 text2 text3 p1 p2 p3 p23 →
      E.whole E.behind = true → ∀ s, ∃ M found, E.create = .ok M ∧
        (∀ᶠ fuel in Filter.atTop, M.result s fuel = some found) ∧
        IsResult (p1.language E.textType) (p2.language E.textType) (p3.language E.textType)
          E.textType s found := by
  intro h
  have hwhole : lastSeparators.whole lastSeparators.behind = true := by decide +kernel
  obtain ⟨M, found, hM, hfuel, hright⟩ :=
    h lastSeparators _ _ _ _ _ _ _ lastSeparators_parts hwhole ['a']
  obtain ⟨r1, r2, r3, r23, hcreate, hd1, hd2, hd3, hd23⟩ := create_eq lastSeparators_parts
  rw [hcreate, if_pos hwhole] at hM
  cases hM
  obtain ⟨found', hfuel', hiff⟩ := result_spec
    (M := ⟨lastSeparators.textType, r1, r2, r3, r23⟩) hd1 hd2 hd3 hd23 ['a']
  obtain ⟨fuel, hfound, hfound'⟩ := (hfuel.and hfuel').exists
  rw [hfound] at hfound'
  cases hfound'
  have hfirst : ∀ s1, s1 ∈ (Pattern.exactly ['a']).language utf8 → s1 = ['a'] := by
    intro s1 hs1
    exact (List.map_id s1).symm.trans hs1
  rcases hiff.1 hright with hno | ⟨s1, rest, ⟨⟨s2, s3, rfl, hsplits⟩, -⟩, -, hne | hnil⟩
  · exact hno ⟨['a'], [], [], rfl, rfl, rfl, rfl⟩
  · have hs := hsplits.1
    rw [hfirst s1 hsplits.2.1] at hs
    exact hne (List.append_cancel_left (hs.symm : ['a'] ++ (s2 ++ s3) = ['a'] ++ []))
  · cases hnil

end FirebirdCore.Similar
