import FirebirdCore.Similar.Compile

/-!
# The meaning of a compiled pattern

The parser reads a pattern as its grammar says, and the nodes implement the language of what it has
read, if no sub-pattern that is repeated can be empty. The flags of the parser say so but for an
alternation, which has the flag of its last alternative.
-/
namespace FirebirdCore.Similar
open scoped Computability

variable {α γ : Type}

/-! ## Bounds -/

theorem atoi_lt {digits : List ℕ} (h : ∀ ch ∈ digits, ch ≤ 57) :
    Evaluator.atoi digits < 10 ^ digits.length := by
  induction digits using List.reverseRecOn with
  | nil => decide
  | append_singleton digits ch ih =>
    have hinit := ih fun x hx => h x (List.mem_append_left _ hx)
    have hlast := h ch (by simp)
    unfold Evaluator.atoi at hinit ⊢
    rw [List.foldl_append, List.length_append, List.length_singleton, pow_succ]
    simp only [List.foldl_cons, List.foldl_nil]
    omega

theorem atoi_lt_intMax {digits : List ℕ} (h : ∀ ch ∈ digits, ch ≤ 57) (hlength : ¬ digits.length > 9) :
    Evaluator.atoi digits < Evaluator.intMax := by
  have hlt := atoi_lt h
  have hpow : 10 ^ digits.length ≤ 10 ^ 9 := Nat.pow_le_pow_right (by decide) (by omega)
  have hmax : 10 ^ 9 < Evaluator.intMax := by decide
  omega

section

variable [DecidableEq γ] {E : Evaluator α γ}

theorem forall_mem_append_digit {digits : List ℕ} {ch : ℕ} (h : ∀ x ∈ digits, x ≤ 57)
    (hch : ch ≤ 57) : ∀ x ∈ digits ++ [ch], x ≤ 57 := by
  intro x hx
  rcases List.mem_append.1 hx with hx | hx
  · exact h x hx
  · rw [List.mem_singleton.1 hx]
    exact hch

theorem readCounts_digits {patternPos rest : List α} {p : List UInt8} {s1 s2 s1' s2' : List ℕ}
    {comma comma' : Bool} (h1 : ∀ ch ∈ s1, ch ≤ 57) (h2 : ∀ ch ∈ s2, ch ≤ 57)
    (h : E.readCounts patternPos p s1 s2 comma = .ok ((s1', s2', comma'), rest)) :
    (∀ ch ∈ s1', ch ≤ 57) ∧ ∀ ch ∈ s2', ch ≤ 57 := by
  induction patternPos generalizing p s1 s2 comma with
  | nil =>
    unfold Evaluator.readCounts at h
    cases p with
    | nil => cases h
    | cons b p => cases hread : E.textType.readOneChar (b :: p) <;> simp [hread] at h
  | cons c patternPos ih =>
    unfold Evaluator.readCounts at h
    cases p with
    | nil => cases h
    | cons b p =>
      cases hread : E.textType.readOneChar (b :: p) with
      | none => simp [hread] at h
      | some char =>
        obtain ⟨size, ch⟩ := char
        simp only [hread] at h
        split_ifs at h with hclose hnone hcomma htwice hdigit hsecond
        · cases h
          exact ⟨h1, h2⟩
        · exact ih h1 h2 h
        · exact ih h1 (forall_mem_append_digit h2 hdigit.2) h
        · exact ih (forall_mem_append_digit h1 hdigit.2) h2 h

theorem parseCounts_le {rest rest' : List α} {n1 n2 : ℕ}
    (h : E.parseCounts rest = .ok ((n1, n2), rest')) : n1 ≤ n2 ∧ n1 < Evaluator.intMax := by
  unfold Evaluator.parseCounts at h
  cases hread : E.readCounts rest (E.countsPos rest) [] [] false with
  | error e => simp [hread] at h
  | ok result =>
    obtain ⟨⟨s1, s2, comma⟩, rest⟩ := result
    obtain ⟨h1, -⟩ := readCounts_digits (by simp) (by simp) hread
    simp only [hread] at h
    split_ifs at h with hlength hle
    all_goals
      cases h
      exact ⟨not_lt.1 ‹_›, atoi_lt_intMax h1 fun hlong => hlength (.inl hlong)⟩

/-! ### Bounds that are read in place -/

/-- The digits are read from the characters themselves. -/
theorem readCounts_aligned (rest : List α) (s1 s2 : List ℕ) (comma : Bool) :
    (E.readCounts rest (rest.flatMap E.textType.bytes) s1 s2 comma).toOption =
      E.countsText rest s1 s2 comma := by
  induction rest generalizing s1 s2 comma with
  | nil =>
    unfold Evaluator.readCounts Evaluator.countsText
    rfl
  | cons c rest ih =>
    unfold Evaluator.readCounts Evaluator.countsText
    rw [List.flatMap_cons]
    obtain ⟨b, p, hbytes⟩ := List.exists_cons_of_ne_nil (E.textType.bytes_ne_nil c)
    have hread := E.textType.readOneChar_bytes c (rest.flatMap E.textType.bytes)
    have hdrop : (E.textType.bytes c ++ rest.flatMap E.textType.bytes).drop
        (E.textType.bytes c).length = rest.flatMap E.textType.bytes := List.drop_left
    have hcons : E.textType.bytes c ++ rest.flatMap E.textType.bytes =
        b :: (p ++ rest.flatMap E.textType.bytes) := by
      rw [hbytes, List.cons_append]
    rw [hcons] at hread hdrop ⊢
    simp only [hread, hdrop]
    split_ifs
    all_goals first | rfl | exact ih _ _ _

theorem countsText_digits {patternPos rest : List α} {s1 s2 s1' s2' : List ℕ}
    {comma comma' : Bool}
    (h1 : ∀ ch ∈ s1, ch ≤ 57) (h2 : ∀ ch ∈ s2, ch ≤ 57)
    (h : E.countsText patternPos s1 s2 comma = some ((s1', s2', comma'), rest)) :
    (∀ ch ∈ s1', ch ≤ 57) ∧ ∀ ch ∈ s2', ch ≤ 57 := by
  rw [← readCounts_aligned] at h
  cases hread : E.readCounts patternPos (patternPos.flatMap E.textType.bytes) s1 s2 comma with
  | error e => simp [hread, Except.toOption] at h
  | ok result =>
    rw [hread] at h
    cases h
    exact readCounts_digits h1 h2 hread

/-- The parser reads the bounds as they are written if it begins with their first byte. -/
theorem boundsRead_eq {rest : List α}
    (h : (E.readCounts rest (E.countsPos rest) [] [] false).toOption =
      E.countsText rest [] [] false) : E.boundsRead rest = E.boundsText rest := by
  unfold Evaluator.boundsRead Evaluator.boundsText Evaluator.parseCounts
  cases hread : E.readCounts rest (E.countsPos rest) [] [] false with
  | error e =>
    rw [hread] at h
    simp only [← h, Except.toOption]
  | ok result =>
    obtain ⟨⟨s1, s2, comma⟩, rest⟩ := result
    obtain ⟨h1, h2⟩ := readCounts_digits (by simp) (by simp) hread
    rw [hread] at h
    simp only [← h, Except.toOption]
    by_cases hlength : s1.length > 9 ∨ s2.length > 9
    · simp only [hlength, if_true]
    · have hlt1 := atoi_lt_intMax h1 fun hlong => hlength (.inl hlong)
      have hlt2 := atoi_lt_intMax h2 fun hlong => hlength (.inr hlong)
      simp only [hlength, if_false]
      by_cases hs2 : s2 = []
      · by_cases hcomma : comma = true
        · simp [hs2, hcomma, hlt1.le, not_lt.2]
        · simp [hs2, hcomma, hlt1.ne]
      · by_cases hle : Evaluator.atoi s2 < Evaluator.atoi s1
        · simp [hs2, hle]
        · simp [hs2, hle, hlt2.ne]

/-- The first character takes as many bytes as the first one of the bounds, or there are none. -/
def Evaluator.InPlace (E : Evaluator α γ) (start : List α) : Prop :=
  ∀ c ∈ start.head?, ∀ first ∈ E.originalPatternStr.head?,
    (E.textType.bytes first).length = (E.textType.bytes c).length

omit [DecidableEq γ] in
theorem countsPos_eq {start : List α} (hsuffix : start <:+ E.originalPatternStr)
    (hne : start ≠ []) (hin : E.InPlace start) :
    E.countsPos start = start.flatMap E.textType.bytes := by
  obtain ⟨pre, hpre⟩ := hsuffix
  obtain ⟨c, rest, rfl⟩ := List.exists_cons_of_ne_nil hne
  have hskipped : E.originalPatternStr.length - (c :: rest).length = pre.length := by
    rw [← hpre, List.length_append, Nat.add_sub_cancel]
  have hbytes : (((E.originalPatternStr.drop 1).take pre.length).flatMap E.textType.bytes).length =
      (pre.flatMap E.textType.bytes).length := by
    cases pre with
    | nil => rfl
    | cons first pre =>
      have hwidth : (E.textType.bytes first).length = (E.textType.bytes c).length := by
        apply hin c rfl first
        rw [← hpre]
        rfl
      have htake : ((E.originalPatternStr.drop 1).take (first :: pre).length) = pre ++ [c] := by
        rw [← hpre, List.cons_append, List.drop_one, List.tail_cons, List.length_cons,
          List.append_cons, List.take_left' (by simp)]
      rw [htake]
      simp [hwidth, add_comm]
  simp only [Evaluator.countsPos, hskipped, hbytes]
  rw [← hpre, List.flatMap_append, List.drop_left]

theorem boundsRead_inPlace {start : List α} (hsuffix : start <:+ E.originalPatternStr)
    (hin : E.InPlace start) : E.boundsRead start = E.boundsText start := by
  apply boundsRead_eq
  cases start with
  | nil =>
    unfold Evaluator.readCounts Evaluator.countsText
    cases E.countsPos [] with
    | nil => rfl
    | cons b p =>
      cases E.textType.readOneChar (b :: p) <;> rfl
  | cons c rest => rw [countsPos_eq hsuffix (by simp) hin, readCounts_aligned]

/-! ## Repetitions -/

/-- What the parser has found out of a pattern: the flag is the one of the pattern, what is repeated
has its flag, and no lower bound is above its upper bound. -/
structure Checked (p : Pattern α γ) (flag : Bool) : Prop where
  flag : flag = true → p.flag = true
  repeated : p.Repeated fun q => q.flag = true
  ordered : p.Bounds fun n m _ => ∀ bound ∈ m, n ≤ bound

/-- The nodes that are pushed for a pattern. -/
structure Compiled (T : TextType α γ) (p : Pattern α γ) (flag : Bool) (f : List (Node α γ)) :
    Prop extends Checked p flag where
  implements : p.Repeated (fun q => q.notEmpty = true) → Implements T f (p.language T)

/-- The flag without the exception for alternations is right. -/
theorem Pattern.nil_notMem_language (T : TextType α γ) {p : Pattern α γ} (h : p.notEmpty = true) :
    [] ∉ p.language T := by
  induction p with
  | nothing => cases h
  | any =>
    rintro ⟨c, hc⟩
    cases hc
  | percent => cases h
  | anyOf set =>
    rintro ⟨c, -, hc⟩
    cases hc
  | exactly str =>
    intro hnil
    simp only [Pattern.notEmpty, decide_eq_true_iff] at h
    exact h (Eq.symm hnil)
  | seq p q ihp ihq =>
    simp only [Pattern.notEmpty, Bool.or_eq_true] at h
    simp only [Pattern.language, Language.mem_mul]
    rintro ⟨u, hu, v, hv, huv⟩
    obtain ⟨rfl, rfl⟩ := List.append_eq_nil_iff.1 huv
    rcases h with h | h
    · exact ihp h hu
    · exact ihq h hv
  | alt p q ihp ihq =>
    simp only [Pattern.notEmpty, Bool.and_eq_true] at h
    simp only [Pattern.language, Language.mem_add]
    rintro (hnil | hnil)
    · exact ihp h.1 hnil
    · exact ihq h.2 hnil
  | star p => cases h
  | plus p ih =>
    simp only [Pattern.language, Language.mem_mul]
    rintro ⟨u, hu, v, hv, huv⟩
    obtain ⟨rfl, rfl⟩ := List.append_eq_nil_iff.1 huv
    exact ih h hu
  | opt p => cases h
  | times p n m start ih =>
    simp only [Pattern.notEmpty, Bool.and_eq_true, decide_eq_true_iff] at h
    rintro ⟨k, hk, -, hnil⟩
    obtain ⟨j, rfl⟩ := Nat.exists_eq_succ_of_ne_zero (by omega : k ≠ 0)
    rw [pow_succ', Language.mem_mul] at hnil
    obtain ⟨u, hu, v, hv, huv⟩ := hnil
    obtain ⟨rfl, rfl⟩ := List.append_eq_nil_iff.1 huv
    exact ih h.2 hu

variable {T : TextType α γ} {p q : Pattern α γ} {b : Bool} {f g : List (Node α γ)}

theorem compiled_star (h : Compiled T p true f) : Compiled T (.star p) false (starNodes f) where
  flag hfalse := by cases hfalse
  repeated := ⟨h.flag rfl, h.repeated⟩
  ordered := h.ordered
  implements hrepeated :=
    implements_star (h.implements hrepeated.2) (Pattern.nil_notMem_language T hrepeated.1)

theorem compiled_plus (h : Compiled T p true f) : Compiled T (.plus p) true (plusNodes f) where
  flag _ := rfl
  repeated := ⟨h.flag rfl, h.repeated⟩
  ordered := h.ordered
  implements hrepeated :=
    implements_plus (h.implements hrepeated.2) (Pattern.nil_notMem_language T hrepeated.1)

theorem compiled_opt (h : Compiled T p b f) : Compiled T (.opt p) false (optNodes f) where
  flag hfalse := by cases hfalse
  repeated := h.repeated
  ordered := h.ordered
  implements hrepeated := implements_opt (h.implements hrepeated)

theorem compiled_times (h : Compiled T p true f) {n1 n2 : ℕ} (hle : n1 ≤ n2)
    (hmax : n1 < Evaluator.intMax) (start : List α) :
    Compiled T (.times p n1 (upperBound n2) start) (n1 ≠ 0) (repeatNodes n1 n2 f) where
  flag hflag := hflag
  repeated := ⟨h.flag rfl, h.repeated⟩
  ordered := by
    refine ⟨fun bound hbound => ?_, h.ordered⟩
    unfold upperBound at hbound
    split_ifs at hbound
    · cases hbound
    · cases hbound
      exact hle
  implements hrepeated := implements_repeat (h.implements hrepeated.2)
    (Pattern.nil_notMem_language T hrepeated.1) hle hmax

theorem compiled_seq {b' : Bool} (hp : Compiled T p b f) (hq : Compiled T q b' g) :
    Compiled T (.seq p q) (b || b') (f ++ g) where
  flag hflag := by
    simp only [Pattern.flag, Bool.or_eq_true] at hflag ⊢
    exact hflag.imp hp.flag hq.flag
  repeated := ⟨hp.repeated, hq.repeated⟩
  ordered := ⟨hp.ordered, hq.ordered⟩
  implements hrepeated := implements_append (hp.implements hrepeated.1) (hq.implements hrepeated.2)

/-- The nodes of a string of characters without a meaning of their own. -/
def exactNodes : List γ → List (Node α γ)
  | [c] => [.opExactlyOne c]
  | str => [.opExactly str]

theorem compiled_exactlyOne (c : γ) :
    Compiled T (.exactly [c]) true [.opExactlyOne c] where
  flag _ := by simp [Pattern.flag]
  repeated := trivial
  ordered := trivial
  implements _ := by
    have hwords : (Pattern.exactly [c]).language T = {w | ∃ x, c = T.canonical x ∧ w = [x]} := by
      ext w
      change w.map T.canonical = [c] ↔ ∃ x, c = T.canonical x ∧ w = [x]
      rw [List.map_eq_singleton_iff]
      constructor
      · rintro ⟨x, rfl, rfl⟩
        exact ⟨x, rfl, rfl⟩
      · rintro ⟨x, rfl, rfl⟩
        exact ⟨x, rfl, rfl⟩
    rw [hwords]
    exact implements_exactlyOne c

theorem compiled_exactly {str : List γ} (hne : str ≠ []) :
    Compiled T (.exactly str) true [.opExactly str] where
  flag _ := by simp [Pattern.flag, hne]
  repeated := trivial
  ordered := trivial
  implements _ := implements_exactly str

theorem compiled_exactNodes {str : List γ} (hne : str ≠ []) :
    Compiled T (.exactly str) true (exactNodes str) := by
  unfold exactNodes
  split
  · exact compiled_exactlyOne _
  · exact compiled_exactly hne

theorem Compiled.congr {b' : Bool} (h : Compiled T p b f) (hflag : b' = true → b = true) :
    Compiled T p b' f where
  flag hb' := h.flag (hflag hb')
  repeated := h.repeated
  ordered := h.ordered
  implements := h.implements

/-- What is repeated is the primary, or its last character. -/
theorem splitLast_append {flags : Flags} (pre : List (Node α γ)) (hp : Compiled T p flags.notEmpty f)
    (hplain : flags.exactly = true → ∃ str, str ≠ [] ∧ p = .exactly str ∧ f = exactNodes str) :
    ∃ q lead g, Evaluator.splitLast flags (pre ++ f) pre.length =
        (pre ++ lead ++ g, (pre ++ lead).length) ∧
      Compiled T q flags.notEmpty g ∧
      ∀ rep b h, Compiled T (rep q) b h →
        Compiled T (Evaluator.repeatLast flags.exactly p rep) b (lead ++ h) := by
  by_cases hsplit : ∃ str, flags.exactly = true ∧ p = .exactly str ∧ str.length > 1
  · obtain ⟨str, hexactly, rfl, hlength⟩ := hsplit
    obtain ⟨str', -, heq, rfl⟩ := hplain hexactly
    cases heq
    have hinit : str.dropLast ≠ [] := by
      intro hnil
      have := congrArg List.length hnil
      simp at this
      omega
    obtain ⟨last, hlast⟩ : ∃ last, str.getLast? = some last := by
      cases hget : str.getLast? with
      | none =>
        rw [List.getLast?_eq_none_iff] at hget
        simp [hget] at hlength
      | some last => exact ⟨last, rfl⟩
    have hnodes : (exactNodes str : List (Node α γ)) = [.opExactly str] := by
      unfold exactNodes
      split
      · simp at hlength
      · rfl
    have hflag : flags.notEmpty = true → true = true := fun _ => rfl
    refine ⟨.exactly [last], [.opExactly str.dropLast], [.opExactlyOne last], ?_,
      (compiled_exactlyOne last).congr hflag, ?_⟩
    · simp [Evaluator.splitLast, hexactly, hnodes, hlength, hlast]
    · intro rep b h hrep
      simp only [Evaluator.repeatLast, hexactly, hlength, if_true, hlast, Option.toList_some]
      exact (compiled_seq (compiled_exactly hinit) hrep).congr (by simp)
  · refine ⟨p, [], f, ?_, hp, ?_⟩
    · unfold Evaluator.splitLast
      by_cases hexactly : flags.exactly = true
      · obtain ⟨str, hne, rfl, rfl⟩ := hplain hexactly
        have hshort : ¬ str.length > 1 := fun hlong => hsplit ⟨str, hexactly, rfl, hlong⟩
        obtain ⟨c, rest, rfl⟩ := List.exists_cons_of_ne_nil hne
        have hnil : rest = [] := by
          rw [← List.length_eq_zero_iff]
          simp at hshort
          simp [hshort]
        subst hnil
        simp [hexactly, exactNodes]
      · simp [hexactly]
    · intro rep b h hrep
      have hwhole : Evaluator.repeatLast flags.exactly p rep = rep p := by
        unfold Evaluator.repeatLast
        split
        · rename_i str hexactly
          rw [if_neg fun hlong => hsplit ⟨str, hexactly, rfl, hlong⟩]
        · rfl
      rw [hwhole]
      exact hrep

theorem eq_of_is {c : α} {x y : Special} (hx : E.is c x = true) (hy : E.is c y = true) : x = y := by
  simp only [Evaluator.is, decide_eq_true_iff] at hx hy
  exact E.textType.canonicalChar_injective (hx.symm.trans hy)

/-- No operator of a repetition may follow another one. -/
theorem parseRep_end {flags flags' : Flags} {nodes pre : List (Node α γ)} {rest : List α}
    {s' : Parsing α γ} (hp : Compiled E.textType p flags.notEmpty f) (hnodes : nodes = pre ++ f)
    (h : (if rest.head?.any E.isRep = true then .error .invalidSimilarPattern
      else .ok (flags, ⟨nodes, rest⟩) : Except ParseError (Flags × Parsing α γ)) =
        .ok (flags', s')) :
    ∃ p' f', (some (p, rest)).filter (fun result => ¬ result.2.head?.any E.isRep) =
        some (p', s'.patternPos) ∧
      s'.nodes = pre ++ f' ∧ Compiled E.textType p' flags'.notEmpty f' := by
  split_ifs at h with hagain
  cases h
  refine ⟨p, f, ?_, hnodes, hp⟩
  rw [Option.filter_some_pos]
  simp [hagain]

theorem parseRep_text {flags flags' : Flags} {op : α} {rest : List α} {s' : Parsing α γ}
    (pre : List (Node α γ)) (hp : Compiled E.textType p flags.notEmpty f)
    (hplain : flags.exactly = true → ∃ str, str ≠ [] ∧ p = .exactly str ∧ f = exactNodes str)
    (h : E.parseRep flags pre.length (pre ++ f) op rest = .ok (flags', s')) :
    ∃ p' f', E.repText E.boundsRead p flags.exactly op rest = some (p', s'.patternPos) ∧
      s'.nodes = pre ++ f' ∧ Compiled E.textType p' flags'.notEmpty f' := by
  obtain ⟨q, lead, g, hsplit, hq, hrep⟩ := splitLast_append pre hp hplain
  unfold Evaluator.parseRep at h
  unfold Evaluator.repText
  by_cases hreject : ¬ flags.notEmpty ∧ ¬ E.is op .questionMark
  · rw [if_pos hreject] at h
    cases h
  rw [if_neg hreject] at h
  simp only [hsplit, pushStar_append, pushPlus_append, pushOpt_append, pushRepeat_append] at h
  by_cases hquestion : E.is op .questionMark
  · have hcompiled := hrep .opt _ _ (compiled_opt hq)
    have hstar : ¬ E.is op .asterisk := fun hstar => Special.noConfusion (eq_of_is hstar hquestion)
    have hplus : ¬ E.is op .plus := fun hplus => Special.noConfusion (eq_of_is hplus hquestion)
    simp only [hstar, hplus, hquestion, if_true] at h ⊢
    exact parseRep_end hcompiled (List.append_assoc ..) h
  · have hflag : flags.notEmpty = true := by
      by_contra hno
      exact hreject ⟨hno, hquestion⟩
    rw [hflag] at hq
    by_cases hstar : E.is op .asterisk
    · have hcompiled := hrep .star _ _ (compiled_star hq)
      simp only [hstar, if_true] at h ⊢
      exact parseRep_end hcompiled (List.append_assoc ..) h
    · by_cases hplus : E.is op .plus
      · have hcompiled := hrep .plus _ _ (compiled_plus hq)
        simp only [hstar, hplus, if_true] at h ⊢
        exact parseRep_end hcompiled (List.append_assoc ..) h
      · simp only [hstar, hplus, hquestion] at h ⊢
        cases hcounts : E.parseCounts rest with
        | error e => simp [hcounts] at h
        | ok result =>
          obtain ⟨⟨n1, n2⟩, rest'⟩ := result
          obtain ⟨hle, hmax⟩ := parseCounts_le hcounts
          have hbounds : E.boundsRead rest = some ((n1, upperBound n2), rest') := by
            simp only [Evaluator.boundsRead, hcounts, upperBound]
          have hcompiled := hrep (fun p => .times p n1 (upperBound n2) rest) _ _
            (compiled_times hq hle hmax rest)
          simp only [hcounts, hbounds, Option.map_some] at h ⊢
          exact parseRep_end hcompiled (List.append_assoc ..) h

/-! ## Expressions -/

/-- The parser follows the grammar, and pushes nodes for what it reads. -/
def Follows (T : TextType α γ) (parse : Parsing α γ → Except ParseError (Flags × Parsing α γ))
    (text : List α → Option (Pattern α γ × List α)) : Prop :=
  ∀ s flags s', parse s = .ok (flags, s') → ∃ p f,
    text s.patternPos = some (p, s'.patternPos) ∧ s'.nodes = s.nodes ++ f ∧
      Compiled T p flags.notEmpty f

/-- The same of the remaining primaries of a sequence. -/
def FollowsFactors (E : Evaluator α γ) (fuel : ℕ) : Prop :=
  ∀ flagp first s flags s', E.stops s.patternPos = false →
    E.parseFactors fuel flagp first s = .ok (flags, s') → ∃ p b f,
      E.factorsText E.boundsRead fuel s.patternPos = some (p, s'.patternPos) ∧
        s'.nodes = s.nodes ++ f ∧ flags.notEmpty = (flagp.notEmpty || b) ∧ Compiled E.textType p b f

/-- The same of the remaining alternatives. Those in `fs` do not know yet where the end is. -/
def FollowsBranches (E : Evaluator α γ) (fuel : ℕ) : Prop :=
  ∀ pre fs flagp patternPos flags s', E.parseBranches fuel flagp (refsOf pre.length fs)
      ⟨pre ++ pendingNodes fs, patternPos⟩ = .ok (flags, s') → ∃ p gs,
    E.branchesText E.boundsRead fuel patternPos = some (p, s'.patternPos) ∧
      s'.nodes = pre ++ altNodes (fs ++ gs) ∧ gs ≠ [] ∧ Checked p flags.notEmpty ∧
      (p.Repeated (fun q => q.notEmpty = true) → ∃ Ls,
        List.Forall₂ (Implements E.textType) gs Ls ∧ Ls.sum = p.language E.textType)

/-- A string of characters without a meaning of their own is known as such. -/
def FollowsPrimary (E : Evaluator α γ) (fuel : ℕ) : Prop :=
  ∀ s flags s', E.parsePrimary fuel s = .ok (flags, s') → ∃ p f,
    E.primaryText E.boundsRead fuel s.patternPos = some ((p, flags.exactly), s'.patternPos) ∧
      s'.nodes = s.nodes ++ f ∧ Compiled E.textType p flags.notEmpty f ∧
      (flags.exactly = true → ∃ str, str ≠ [] ∧ p = .exactly str ∧ f = exactNodes str)

theorem implements_language_any :
    Implements T [.opAny] ((Pattern.any : Pattern α γ).language T) := by
  have hwords : (Pattern.any : Pattern α γ).language T = {w | ∃ c, True ∧ w = [c]} := by
    ext w
    simp [Pattern.language]
  rw [hwords]
  exact implements_any

theorem compiled_any : Compiled T .any true [.opAny] where
  flag _ := rfl
  repeated := trivial
  ordered := trivial
  implements _ := implements_language_any

theorem compiled_percent :
    Compiled T .percent false [.opBranch 3, .opAny, .opRef (-2), .opBranch 0] where
  flag hfalse := by cases hfalse
  repeated := trivial
  ordered := trivial
  implements _ := by
    have hwords : (Pattern.percent : Pattern α γ).language T =
        ((Pattern.any : Pattern α γ).language T)∗ := by
      ext w
      change True ↔ _
      rw [Language.mem_kstar, true_iff]
      refine ⟨w.map fun c => [c], (List.flatMap_singleton' w).symm, fun v hv => ?_⟩
      obtain ⟨c, -, rfl⟩ := List.mem_map.1 hv
      exact ⟨c, rfl⟩
    rw [hwords]
    exact implements_star implements_language_any (Pattern.nil_notMem_language T rfl)

theorem compiled_anyOf {set : CharSet α} (hchars : ∀ e ∈ set.included, charsOf T e ≠ []) :
    Compiled T (.anyOf set) true [.opAnyOf (enumeration T set)] where
  flag _ := rfl
  repeated := trivial
  ordered := trivial
  implements _ := by
    have hwords : (Pattern.anyOf set : Pattern α γ).language T =
        {w | ∃ c, T.anyOf (enumeration T set) c = true ∧ w = [c]} := by
      ext w
      simp only [anyOf_iff hchars]
      rfl
    rw [hwords]
    exact implements_anyOf _

theorem compiled_nothing : Compiled T .nothing false [.opNothing] where
  flag hfalse := by cases hfalse
  repeated := trivial
  ordered := trivial
  implements _ := implements_nothing

variable {fuel : ℕ}

theorem followsPrimary_succ (hexpr : Follows E.textType (E.parseExpr fuel)
    (E.exprText E.boundsRead fuel)) : FollowsPrimary E (fuel + 1) := by
  intro s flags s' h
  obtain ⟨nodes, patternPos⟩ := s
  unfold Evaluator.parsePrimary at h
  unfold Evaluator.primaryText
  cases patternPos with
  | nil => cases h
  | cons op rest =>
    by_cases hunderline : E.is op .underline
    · simp only [hunderline, if_true] at h ⊢
      cases h
      exact ⟨.any, _, rfl, rfl, compiled_any, by simp⟩
    by_cases hpercent : E.is op .percent
    · simp only [hunderline, hpercent, if_true] at h ⊢
      cases h
      exact ⟨.percent, _, rfl, rfl, compiled_percent, by simp⟩
    by_cases hbracket : E.is op .openBracket
    · simp only [hunderline, hpercent, hbracket, if_true] at h ⊢
      cases hset : E.readSet (rest.length + 1) none [] [] rest with
      | error e => simp [hset] at h
      | ok result =>
        obtain ⟨enum, rest'⟩ := result
        obtain ⟨set, htext, rfl, hchars⟩ :=
          @readSet_text _ _ _ _ _ none [] _ _ _ (by simp) (by simp) hset
        simp only [hset, htext] at h ⊢
        cases h
        exact ⟨.anyOf set, _, rfl, rfl, compiled_anyOf hchars, by simp⟩
    by_cases hparen : E.is op .openParen
    · simp only [hunderline, hpercent, hbracket, hparen, if_true] at h ⊢
      cases hparse : E.parseExpr fuel ⟨nodes, rest⟩ with
      | error e => simp [hparse] at h
      | ok result =>
        obtain ⟨flags', s''⟩ := result
        obtain ⟨p, f, htext, hnodes, hcompiled⟩ := hexpr _ _ _ hparse
        simp only [hparse] at h
        simp only [] at htext
        cases hpos : s''.patternPos with
        | nil => simp [hpos] at h
        | cons c rest' =>
          by_cases hclose : E.is c .closeParen
          · simp only [hpos, hclose, if_true] at h htext ⊢
            cases h
            exact ⟨p, f, by simp [htext, hclose, Flags.onlyNotEmpty], hnodes, hcompiled,
              by simp [Flags.onlyNotEmpty]⟩
          · simp [hpos, hclose] at h
    by_cases hescape : E.isEscape op
    · simp only [hunderline, hpercent, hbracket, hparen, hescape, if_true] at h ⊢
      cases hread : E.readEscaped rest with
      | error e => simp [hread] at h
      | ok result =>
        simp only [hread] at h
        cases h
        exact ⟨.exactly [E.textType.canonical result.1], _, rfl, rfl, compiled_exactlyOne _,
          by simp⟩
    simp only [hunderline, hpercent, hbracket, hparen, hescape] at h ⊢
    cases hrun : E.plainRun (op :: rest) with
    | nil => simp [hrun] at h
    | cons c run =>
      cases run with
      | nil =>
        simp only [hrun, List.map_cons, List.map_nil] at h
        cases h
        exact ⟨.exactly [E.textType.canonical c], _, by simp, rfl, compiled_exactlyOne _,
          fun _ => ⟨_, by simp, rfl, rfl⟩⟩
      | cons c' run =>
        simp only [hrun, List.map_cons] at h
        cases h
        exact ⟨.exactly ((c :: c' :: run).map E.textType.canonical), _, by simp, rfl,
          compiled_exactly (by simp), fun _ => ⟨_, by simp, rfl, rfl⟩⟩

theorem followsFactor_succ (hprimary : FollowsPrimary E fuel) :
    Follows E.textType (E.parseFactor (fuel + 1)) (E.factorText E.boundsRead (fuel + 1)) := by
  intro s flags s' h
  unfold Evaluator.parseFactor at h
  unfold Evaluator.factorText
  cases hparse : E.parsePrimary fuel s with
  | error e => simp [hparse] at h
  | ok result =>
    obtain ⟨flags', nodes, patternPos⟩ := result
    obtain ⟨p, f, htext, hnodes, hcompiled, hplain⟩ := hprimary _ _ _ hparse
    simp only [hparse, htext] at h hnodes ⊢
    cases patternPos with
    | nil =>
      cases h
      exact ⟨p, f, rfl, hnodes, hcompiled⟩
    | cons op rest =>
      by_cases hrep : E.isRep op
      · simp only [hrep, if_true] at h ⊢
        rw [hnodes] at h
        exact parseRep_text s.nodes hcompiled hplain h
      · simp only [hrep] at h ⊢
        cases h
        exact ⟨p, f, rfl, hnodes, hcompiled⟩

theorem parseFactors_stops {flagp flags : Flags} {first : Bool} {s s' : Parsing α γ}
    (hstops : E.stops s.patternPos = true)
    (h : E.parseFactors fuel flagp first s = .ok (flags, s')) :
    flags = flagp ∧ s' = if first then s.push .opNothing else s := by
  cases fuel with
  | zero => cases h
  | succ fuel =>
    unfold Evaluator.parseFactors at h
    unfold Evaluator.stops at hstops
    rw [if_pos hstops] at h
    cases h
    exact ⟨rfl, rfl⟩

theorem followsFactors_succ
    (hfactor : Follows E.textType (E.parseFactor fuel) (E.factorText E.boundsRead fuel))
    (hfactors : FollowsFactors E fuel) : FollowsFactors E (fuel + 1) := by
  intro flagp first s flags s' hstops h
  unfold Evaluator.parseFactors at h
  unfold Evaluator.factorsText
  unfold Evaluator.stops at hstops
  rw [hstops] at h
  cases hparse : E.parseFactor fuel s with
  | error e => simp [hparse] at h
  | ok result =>
    obtain ⟨flags', s''⟩ := result
    obtain ⟨p, f, htext, hnodes, hcompiled⟩ := hfactor _ _ _ hparse
    simp only [hparse, htext] at h ⊢
    have hflag : (if first then (flagp.or flags'.onlyNotEmpty).or flags'
        else flagp.or flags'.onlyNotEmpty).notEmpty = (flagp.notEmpty || flags'.notEmpty) := by
      cases first <;> simp [Flags.or, Flags.onlyNotEmpty]
    cases hnext : E.stops s''.patternPos with
    | true =>
      obtain ⟨rfl, rfl⟩ := parseFactors_stops hnext h
      exact ⟨p, flags'.notEmpty, f, rfl, hnodes, hflag, hcompiled⟩
    | false =>
      obtain ⟨q, b, g, htext', hnodes', hflags, hcompiled'⟩ := hfactors _ _ _ _ _ hnext h
      refine ⟨.seq p q, flags'.notEmpty || b, f ++ g, ?_, ?_, ?_, compiled_seq hcompiled hcompiled'⟩
      · simp [htext']
      · rw [hnodes', hnodes, List.append_assoc]
      · rw [hflags, hflag, Bool.or_assoc]

theorem followsTerm_succ (hfactors : FollowsFactors E fuel) :
    Follows E.textType (E.parseTerm (fuel + 1)) (E.termText E.boundsRead (fuel + 1)) := by
  intro s flags s' h
  unfold Evaluator.parseTerm at h
  unfold Evaluator.termText
  cases hstops : E.stops s.patternPos with
  | true =>
    obtain ⟨rfl, rfl⟩ := parseFactors_stops hstops h
    exact ⟨.nothing, _, rfl, rfl, compiled_nothing⟩
  | false =>
    obtain ⟨p, b, f, htext, hnodes, hflags, hcompiled⟩ := hfactors _ _ _ _ _ hstops h
    refine ⟨p, f, by simpa using htext, hnodes, hcompiled.congr fun hflag => ?_⟩
    simpa [hflags] using hflag

theorem followsBranches_succ
    (hterm : Follows E.textType (E.parseTerm fuel) (E.termText E.boundsRead fuel))
    (hbranches : FollowsBranches E fuel) : FollowsBranches E (fuel + 1) := by
  intro pre fs flagp patternPos flags s' h
  unfold Evaluator.parseBranches at h
  unfold Evaluator.branchesText
  cases hparse : E.parseTerm fuel
      (Parsing.push ⟨pre ++ pendingNodes fs, patternPos⟩ (.opBranch 0)) with
  | error e => simp [hparse] at h
  | ok result =>
    obtain ⟨flags', nodes, rest⟩ := result
    obtain ⟨p, f, htext, hnodes, hcompiled⟩ := hterm _ _ _ hparse
    simp only [Parsing.push] at htext hnodes
    have hflag : ((flagp.clear flags').or flags').notEmpty = flags'.notEmpty := by
      cases hempty : flags'.notEmpty <;> simp [Flags.clear, Flags.or, hempty]
    have hrefs : refsOf pre.length fs ++ [nodes.length] = refsOf pre.length (fs ++ [f]) := by
      rw [refsOf_append, hnodes]
      simp
      omega
    have hdist : ((nodes ++ [(.opRef 0 : Node α γ)]).length : ℤ) - (pre ++ pendingNodes fs).length =
        (f.length + 2 : ℕ) := by
      rw [hnodes]
      simp
      ring
    have hset : Evaluator.setRef (nodes ++ [.opRef 0]) (pre ++ pendingNodes fs).length
        (f.length + 2 : ℕ) = pre ++ pendingNodes (fs ++ [f]) := by
      have hset := setRef_append (pre ++ pendingNodes fs) (f ++ [.opRef 0]) (.opBranch 0)
        (f.length + 2 : ℕ)
      rw [hnodes, pendingNodes_append]
      simpa [pendingNodes, Node.setRef] using hset
    have hsingle : p.Repeated (fun q => q.notEmpty = true) → ∃ Ls,
        List.Forall₂ (Implements E.textType) [f] Ls ∧ Ls.sum = p.language E.textType := fun hrepeated =>
      ⟨[_], .cons (hcompiled.implements hrepeated) .nil, List.sum_singleton⟩
    simp only [Parsing.push] at hparse h
    simp only [hparse, htext, hrefs, hdist, hset] at h ⊢
    cases rest with
    | nil =>
      simp only [finishBranches_append] at h
      cases h
      exact ⟨p, [f], rfl, rfl, by simp, ⟨fun hp => hcompiled.flag (hflag ▸ hp), hcompiled.repeated,
        hcompiled.ordered⟩, hsingle⟩
    | cons c rest =>
      by_cases hbar : E.is c .verticalBar
      · simp only [hbar, if_true] at h ⊢
        obtain ⟨q, gs, htext', hnodes', hne, hchecked, himplements⟩ := hbranches _ _ _ _ _ _ h
        refine ⟨.alt p q, f :: gs, by simp [htext'], by simp [hnodes'], by simp,
          ⟨hchecked.flag, ⟨hcompiled.repeated, hchecked.repeated⟩,
            ⟨hcompiled.ordered, hchecked.ordered⟩⟩, fun hrepeated => ?_⟩
        obtain ⟨Ls, hLs, hsum⟩ := himplements hrepeated.2
        exact ⟨_ :: Ls, .cons (hcompiled.implements hrepeated.1) hLs, by
          rw [List.sum_cons, hsum]
          rfl⟩
      · simp only [hbar, finishBranches_append] at h ⊢
        cases h
        exact ⟨p, [f], rfl, rfl, by simp, ⟨fun hp => hcompiled.flag (hflag ▸ hp),
          hcompiled.repeated, hcompiled.ordered⟩, hsingle⟩

theorem followsExpr_succ (hbranches : FollowsBranches E fuel) :
    Follows E.textType (E.parseExpr (fuel + 1)) (E.exprText E.boundsRead (fuel + 1)) := by
  intro s flags s' h
  unfold Evaluator.parseExpr at h
  unfold Evaluator.exprText
  obtain ⟨p, gs, htext, hnodes, hne, hchecked, himplements⟩ :=
    hbranches s.nodes [] _ s.patternPos _ _ (by simpa [refsOf, pendingNodes] using h)
  refine ⟨p, altNodes gs, htext, hnodes, hchecked, fun hrepeated => ?_⟩
  obtain ⟨Ls, hLs, hsum⟩ := himplements hrepeated
  rw [← hsum]
  exact implements_alt hLs hne

/-- All parts of the parser follow the grammar: each turns to the others with less fuel. -/
theorem follows (E : Evaluator α γ) (fuel : ℕ) :
    Follows E.textType (E.parseExpr fuel) (E.exprText E.boundsRead fuel) ∧
      FollowsBranches E fuel ∧
      Follows E.textType (E.parseTerm fuel) (E.termText E.boundsRead fuel) ∧
      FollowsFactors E fuel ∧
      Follows E.textType (E.parseFactor fuel) (E.factorText E.boundsRead fuel) ∧
      FollowsPrimary E fuel := by
  induction fuel with
  | zero =>
    refine ⟨?_, ?_, ?_, ?_, ?_, ?_⟩
    · intro s flags s' h
      cases h
    · intro pre fs flagp patternPos flags s' h
      cases h
    · intro s flags s' h
      cases h
    · intro flagp first s flags s' hstops h
      cases h
    · intro s flags s' h
      cases h
    · intro s flags s' h
      cases h
  | succ fuel ih =>
    obtain ⟨hexpr, hbranches, hterm, hfactors, hfactor, hprimary⟩ := ih
    exact ⟨followsExpr_succ hbranches, followsBranches_succ hterm hbranches,
      followsTerm_succ hfactors, followsFactors_succ hfactor hfactors,
      followsFactor_succ hprimary, followsPrimary_succ hexpr⟩

end

end FirebirdCore.Similar
