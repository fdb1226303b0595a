import FirebirdCore.Similar.Accepted

/-!
# Patterns that are cut off

`Reads` is the grammar of the parser with the flag of each part and what is left behind it. `Cut` says
where a pattern ends too early for the parser to see it: a set ends in its circumflex, or the bounds of
a repetition end before the characters that their digits are read from.
-/
namespace FirebirdCore.Similar

variable {α γ : Type} [DecidableEq γ]

/-- The errors that the source raises. -/
def ParseError.Raised : ParseError → Prop
  | .invalidSimilarPattern => True
  | .escapeInvalid => True
  | .malformedString => True
  | .beyondPattern => False
  | .outOfFuel => False

theorem ParseError.Raised.ne_outOfFuel {e : ParseError} (h : e.Raised) : e ≠ .outOfFuel := by
  rintro rfl
  exact h

theorem ParseError.Raised.ne_beyondPattern {e : ParseError} (h : e.Raised) : e ≠ .beyondPattern := by
  rintro rfl
  exact h

namespace Evaluator

section

variable (E : Evaluator α γ)

/-! ## Texts that are cut off -/

/-- In a set, what follows is excluded. -/
def Excludes (c : α) : Prop := ¬ E.isEscape c ∧ ¬ E.is c .openBracket ∧ E.is c .circumflex

/-- The text of a set ends in its circumflex. -/
inductive SetCut : List α → Prop
  | circumflex {c : α} (hc : E.Excludes c) : SetCut [c]
  | element {c next : α} {rest behind : List α} {e : Element α} (hc : ¬ E.Excludes c)
      (he : E.elementText c rest = some (e, next :: behind)) (hnext : ¬ E.is next .closeBracket)
      (h : SetCut (next :: behind)) : SetCut (c :: rest)

/-- The text of the bounds ends before the bytes that their digits are read from. -/
inductive CountsCut : List α → List UInt8 → Bool → Prop
  | atEnd {p : List UInt8} {comma : Bool} {char : ℕ × ℕ} (hp : p ≠ [])
      (hread : E.textType.readOneChar p = some char) : CountsCut [] p comma
  | comma {c : α} {rest : List α} {p : List UInt8} {size ch : ℕ} (hp : p ≠ [])
      (hread : E.textType.readOneChar p = some (size, ch)) (hclose : ¬ E.is c .closeBrace)
      (hcomma : E.is c .comma) (h : CountsCut rest (p.drop size) true) : CountsCut (c :: rest) p false
  | digit {c : α} {rest : List α} {p : List UInt8} {comma : Bool} {size ch : ℕ} (hp : p ≠ [])
      (hread : E.textType.readOneChar p = some (size, ch)) (hclose : ¬ E.is c .closeBrace)
      (hcomma : ¬ E.is c .comma) (hdigit : 48 ≤ ch ∧ ch ≤ 57)
      (h : CountsCut rest (p.drop size) comma) : CountsCut (c :: rest) p comma

/-! ## The grammar with its flags -/

inductive Part where
  | alternatives
  | sequence
  | factor
  | primary

/-- What follows the operator of a repetition: whether the repetition is not empty, and the rest. -/
def repReads (op : α) (rest : List α) : Option (Bool × List α) :=
  if E.is op .asterisk then some (false, rest)
  else if E.is op .plus then some (true, rest)
  else if E.is op .questionMark then some (false, rest)
  else (E.boundsRead rest).map fun ((n, _), rest) => (n ≠ 0, rest)

/-- `Reads part rest b rest'`: the part stands in front of `rest'`, and its flag is `b`. -/
inductive Reads : Part → List α → Bool → List α → Prop
  | underline {op : α} {rest : List α} (hop : E.is op .underline) :
      Reads .primary (op :: rest) true rest
  | percent {op : α} {rest : List α} (hop : E.is op .percent) : Reads .primary (op :: rest) false rest
  | set {op : α} {rest rest' : List α} {set : CharSet α} (hop : E.is op .openBracket)
      (hset : E.setText (rest.length + 1) none [] rest = some (set, rest')) :
      Reads .primary (op :: rest) true rest'
  | group {op c : α} {rest rest' : List α} {b : Bool} (hop : E.is op .openParen)
      (hexpr : Reads .alternatives rest b (c :: rest')) (hclose : E.is c .closeParen) :
      Reads .primary (op :: rest) b rest'
  | escaped {op c : α} {rest rest' : List α}
      (hop : ∀ s ∈ [Special.underline, .percent, .openBracket, .openParen], ¬ E.is op s)
      (hescape : E.isEscape op) (hread : E.readEscaped rest = .ok (c, rest')) :
      Reads .primary (op :: rest) true rest'
  | plain {op : α} {rest : List α}
      (hop : ∀ s ∈ [Special.underline, .percent, .openBracket, .openParen], ¬ E.is op s)
      (hescape : ¬ E.isEscape op) (hrun : E.plainRun (op :: rest) ≠ []) :
      Reads .primary (op :: rest) true ((op :: rest).drop (E.plainRun (op :: rest)).length)
  | single {rest rest' : List α} {b : Bool} (hprimary : Reads .primary rest b rest')
      (hend : ¬ rest'.head?.any E.isRep) : Reads .factor rest b rest'
  | repeated {op : α} {rest rest' rest'' : List α} {b b' : Bool}
      (hprimary : Reads .primary rest b (op :: rest')) (hrep : E.isRep op)
      (hallowed : b ∨ E.is op .questionMark) (hread : E.repReads op rest' = some (b', rest''))
      (hend : ¬ rest''.head?.any E.isRep) : Reads .factor rest b' rest''
  | done {rest : List α} (hstops : E.stops rest) : Reads .sequence rest false rest
  | next {rest rest' rest'' : List α} {b b' : Bool} (hstops : ¬ E.stops rest)
      (hfactor : Reads .factor rest b rest') (hsequence : Reads .sequence rest' b' rest'') :
      Reads .sequence rest (b || b') rest''
  | last {rest rest' : List α} {b : Bool} (hsequence : Reads .sequence rest b rest')
      (hend : ¬ rest'.head?.any fun c => E.is c .verticalBar) : Reads .alternatives rest b rest'
  | bar {c : α} {rest rest' rest'' : List α} {b b' : Bool}
      (hsequence : Reads .sequence rest b (c :: rest')) (hbar : E.is c .verticalBar)
      (halternatives : Reads .alternatives rest' b' rest'') : Reads .alternatives rest b' rest''

/-- The part has a set or bounds that are cut off, and what is in front of them is read. -/
inductive Cut : Part → List α → Prop
  | set {op : α} {rest : List α} (hop : E.is op .openBracket) (h : E.SetCut rest) :
      Cut .primary (op :: rest)
  | group {op : α} {rest : List α} (hop : E.is op .openParen) (h : Cut .alternatives rest) :
      Cut .primary (op :: rest)
  | primary {rest : List α} (h : Cut .primary rest) : Cut .factor rest
  | counts {op : α} {rest rest' : List α} (hprimary : E.Reads .primary rest true (op :: rest'))
      (hop : E.is op .openBrace) (h : E.CountsCut rest' (E.countsPos rest') false) : Cut .factor rest
  | factor {rest : List α} (hstops : ¬ E.stops rest) (h : Cut .factor rest) : Cut .sequence rest
  | next {rest rest' : List α} {b : Bool} (hstops : ¬ E.stops rest)
      (hfactor : E.Reads .factor rest b rest') (h : Cut .sequence rest') : Cut .sequence rest
  | first {rest : List α} (h : Cut .sequence rest) : Cut .alternatives rest
  | bar {c : α} {rest rest' : List α} {b : Bool} (hsequence : E.Reads .sequence rest b (c :: rest'))
      (hbar : E.is c .verticalBar) (h : Cut .alternatives rest') : Cut .alternatives rest

end

variable {E : Evaluator α γ}

/-! ## Sets -/

theorem readEscaped_raised {rest : List α} {e : ParseError} (h : E.readEscaped rest = .error e) :
    e.Raised := by
  unfold readEscaped at h
  split at h
  · cases h
    trivial
  · split_ifs at h
    cases h
    trivial

theorem readRange_raised {c : α} {rest : List α} {e : ParseError}
    (h : E.readRange c rest = .error e) : e.Raised := by
  unfold readRange at h
  simp only at h
  split at h
  · cases h
  · split_ifs at h
    split at h
    · cases h
      trivial
    · split_ifs at h
      split at h
      · rename_i hread
        cases h
        exact readEscaped_raised hread
      · cases h

theorem readClass_raised {rest : List α} {e : ParseError} (h : E.readClass rest = .error e) :
    e.Raised := by
  unfold readClass at h
  split at h
  · cases h
    trivial
  · simp only at h
    split_ifs at h
    · split at h
      · cases h
        trivial
      · split_ifs at h
        · split at h
          · cases h
            trivial
          · cases h
        · cases h
          trivial
    · cases h
      trivial

theorem readElement_raised {c : α} {rest : List α} {e : ParseError}
    (h : E.readElement c rest = .error e) : e.Raised := by
  unfold readElement at h
  split_ifs at h
  · split at h
    · rename_i hread
      cases h
      exact readEscaped_raised hread
    · exact readRange_raised h
  · split at h
    · rename_i hread
      cases h
      exact readClass_raised hread
    · cases h
  · exact readRange_raised h

/-- The parser and the grammar leave the same text behind an element. -/
theorem readElement_left (c : α) (rest : List α) :
    (E.readElement c rest).toOption.map (fun result => result.2.2) =
      (E.elementText c rest).map Prod.snd := by
  have hrange : ∀ (c : α) (rest : List α),
      (E.readRange c rest).toOption.map (fun result => result.2.2) =
        (E.rangeText c rest).map Prod.snd := by
    intro c rest
    unfold readRange rangeText
    rcases rest with - | ⟨minus, - | ⟨last, rest⟩⟩
    · rfl
    · by_cases hminus : E.is minus .minus <;> simp [hminus, Except.toOption]
    · by_cases hminus : E.is minus .minus
      · by_cases hescape : E.isEscape last
        · cases hread : E.readEscaped rest <;> simp [hminus, hescape, hread, Except.toOption]
        · simp [hminus, hescape, Except.toOption]
      · simp [hminus, Except.toOption]
  unfold readElement elementText
  by_cases hescape : E.isEscape c
  · cases hread : E.readEscaped rest with
    | error e => simp [hescape, Except.toOption]
    | ok result => simpa [hescape, Except.toOption] using hrange result.1 result.2
  · by_cases hopen : E.is c .openBracket
    · simp only [hescape, hopen, if_true, Bool.false_eq_true, if_false]
      unfold readClass classText
      cases rest with
      | nil => rfl
      | cons colon start =>
        by_cases hcolon : E.is colon .colon
        · simp only [hcolon, not_true_eq_false, if_false]
          cases hdrop : start.drop ((start.takeWhile fun c => ¬ E.is c .colon).length + 1) with
          | nil => simp [Except.toOption]
          | cons close rest =>
            by_cases hclose : E.is close .closeBracket
            · cases hfind : classes.find? fun entry => entry.1 = E.textType.upperCase
                (start.takeWhile fun c => ¬ E.is c .colon) <;> simp [hclose, Except.toOption]
            · simp [hclose, Except.toOption]
        · simp [hcolon, Except.toOption]
    · simpa [hescape, hopen] using hrange c rest

/-- The parser and the grammar leave the same text behind a set. -/
theorem readSet_left (fuel : ℕ) (included : Option (List γ × List (α × α)))
    (included' : Option (List (Element α))) (hincluded : included.isSome = included'.isSome)
    (chars : List γ) (ranges : List (α × α)) (elements : List (Element α)) (rest : List α) :
    (E.readSet fuel included chars ranges rest).toOption.map Prod.snd =
      (E.setText fuel included' elements rest).map Prod.snd := by
  induction fuel generalizing included included' chars ranges elements rest with
  | zero => rfl
  | succ fuel ih =>
    cases rest with
    | nil => rfl
    | cons c rest =>
      unfold readSet setText
      by_cases hc : E.Excludes c
      · unfold Excludes at hc
        simp only [hc]
        cases included with
        | some _ =>
          cases included' with
          | none => cases hincluded
          | some _ => rfl
        | none =>
          cases included' with
          | some _ => cases hincluded
          | none =>
            rcases rest with - | ⟨next, behind⟩
            · rfl
            · by_cases hclose : E.is next .closeBracket
              · simp [hclose, Except.toOption]
              · simpa [hclose] using ih (some (chars, ranges)) (some elements) rfl [] [] [] _
      · unfold Excludes at hc
        simp only [hc, if_false]
        have hleft := readElement_left (E := E) c rest
        cases helement : E.readElement c rest with
        | error e =>
          cases htext : E.elementText c rest with
          | none => rfl
          | some result => simp [helement, htext, Except.toOption] at hleft
        | ok result =>
          obtain ⟨newChars, newRanges, behind⟩ := result
          cases htext : E.elementText c rest with
          | none => simp [helement, htext, Except.toOption] at hleft
          | some result =>
            obtain ⟨e, behind'⟩ := result
            obtain rfl : behind = behind' := by
              simpa [helement, htext, Except.toOption] using hleft
            rcases behind with - | ⟨next, behind⟩
            · rfl
            · by_cases hclose : E.is next .closeBracket
              · simp [hclose, Except.toOption]
              · simpa [hclose] using ih included included' hincluded _ _ (elements ++ [e]) _

theorem readElement_text_iff {c : α} {rest rest' : List α} :
    (∃ e, E.elementText c rest = some (e, rest')) ↔
      ∃ chars ranges, E.readElement c rest = .ok (chars, ranges, rest') := by
  have hleft := readElement_left (E := E) c rest
  cases hread : E.readElement c rest <;> cases htext : E.elementText c rest <;>
    simp_all [Except.toOption, Prod.ext_iff]

/-- The only reads behind the pattern are those of a set that ends in its circumflex. -/
theorem readSet_error {fuel : ℕ} {included : Option (List γ × List (α × α))} {chars : List γ}
    {ranges : List (α × α)} {rest : List α} {e : ParseError} (hfuel : rest.length < fuel)
    (h : E.readSet fuel included chars ranges rest = .error e) :
    e.Raised ∨ e = .beyondPattern ∧ included = none ∧ E.SetCut rest := by
  induction fuel generalizing included chars ranges rest with
  | zero => cases hfuel
  | succ fuel ih =>
    cases rest with
    | nil =>
      cases h
      exact .inl trivial
    | cons c rest =>
      rw [List.length_cons, Nat.succ_lt_succ_iff] at hfuel
      unfold readSet at h
      by_cases hc : E.Excludes c
      · unfold Excludes at hc
        rw [if_pos hc] at h
        cases included with
        | some result =>
          cases h
          exact .inl trivial
        | none =>
          rcases rest with - | ⟨next, behind⟩
          · cases h
            exact .inr ⟨rfl, rfl, .circumflex hc⟩
          · by_cases hclose : E.is next .closeBracket
            · simp [hclose] at h
            · simp only [Option.isSome_none, Bool.false_eq_true, if_false, hclose] at h
              rcases ih hfuel h with hraised | ⟨-, hnone, -⟩
              · exact .inl hraised
              · cases hnone
      · have hc' := hc
        unfold Excludes at hc
        rw [if_neg hc] at h
        cases helement : E.readElement c rest with
        | error e' =>
          simp only [helement] at h
          cases h
          exact .inl (readElement_raised helement)
        | ok result =>
          obtain ⟨newChars, newRanges, behind⟩ := result
          obtain ⟨element, htext⟩ := readElement_text_iff.2 ⟨_, _, helement⟩
          simp only [helement] at h
          rcases behind with - | ⟨next, behind⟩
          · cases h
            exact .inl trivial
          · by_cases hclose : E.is next .closeBracket
            · simp [hclose] at h
            · simp only [hclose, Bool.false_eq_true, if_false] at h
              have hle := (elementText_suffix htext).length_le
              rcases ih (by omega) h with hraised | ⟨he, hnone, hcut⟩
              · exact .inl hraised
              · exact .inr ⟨he, hnone, .element hc' htext hclose hcut⟩

theorem SetCut.readSet {rest : List α} (h : E.SetCut rest) {fuel : ℕ} (hfuel : rest.length < fuel)
    (chars : List γ) (ranges : List (α × α)) :
    E.readSet fuel none chars ranges rest = .error .beyondPattern := by
  induction h generalizing fuel chars ranges with
  | circumflex hc =>
    obtain ⟨fuel, rfl⟩ := Nat.exists_eq_succ_of_ne_zero (Nat.ne_of_gt (Nat.zero_lt_of_lt hfuel))
    unfold Evaluator.readSet
    unfold Excludes at hc
    rw [if_pos hc]
    rfl
  | @element c next rest behind e hc he hnext _ ih =>
    obtain ⟨fuel, rfl⟩ := Nat.exists_eq_succ_of_ne_zero (Nat.ne_of_gt (Nat.zero_lt_of_lt hfuel))
    obtain ⟨newChars, newRanges, hread⟩ := readElement_text_iff.1 ⟨e, he⟩
    have hle := (elementText_suffix he).length_le
    rw [List.length_cons] at hfuel
    unfold Evaluator.readSet
    unfold Excludes at hc
    rw [if_neg hc]
    simpa only [hread, hnext, Bool.false_eq_true, if_false] using ih (by omega) _ _

/-! ## Bounds -/

/-- The only reads behind the pattern are those of bounds that end too early. -/
theorem readCounts_error {patternPos : List α} {p : List UInt8} {s1 s2 : List ℕ} {comma : Bool}
    {e : ParseError} (h : E.readCounts patternPos p s1 s2 comma = .error e) :
    e.Raised ∨ e = .beyondPattern ∧ E.CountsCut patternPos p comma := by
  induction patternPos generalizing p s1 s2 comma with
  | nil =>
    unfold readCounts at h
    cases p with
    | nil =>
      cases h
      exact .inl trivial
    | cons byte p =>
      cases hread : E.textType.readOneChar (byte :: p) with
      | none =>
        simp only [hread] at h
        cases h
        exact .inl trivial
      | some char =>
        simp only [hread] at h
        cases h
        exact .inr ⟨rfl, .atEnd (List.cons_ne_nil _ _) hread⟩
  | cons c rest ih =>
    unfold readCounts at h
    cases p with
    | nil =>
      cases h
      exact .inl trivial
    | cons byte p =>
      have hp : byte :: p ≠ [] := List.cons_ne_nil _ _
      cases hread : E.textType.readOneChar (byte :: p) with
      | none =>
        simp only [hread] at h
        cases h
        exact .inl trivial
      | some char =>
        obtain ⟨size, ch⟩ := char
        simp only [hread] at h
        split_ifs at h with hclose hempty hcomma htwice hdigit hbehind
        · cases h
          exact .inl trivial
        · cases h
          exact .inl trivial
        · rcases ih h with hraised | ⟨he, hcut⟩
          · exact .inl hraised
          · rw [Bool.not_eq_true] at htwice
            subst htwice
            exact .inr ⟨he, .comma hp hread hclose hcomma hcut⟩
        · rcases ih h with hraised | ⟨he, hcut⟩
          · exact .inl hraised
          · exact .inr ⟨he, .digit hp hread hclose hcomma hdigit hcut⟩
        · rcases ih h with hraised | ⟨he, hcut⟩
          · exact .inl hraised
          · exact .inr ⟨he, .digit hp hread hclose hcomma hdigit hcut⟩
        · cases h
          exact .inl trivial

theorem CountsCut.readCounts {patternPos : List α} {p : List UInt8} {comma : Bool}
    (h : E.CountsCut patternPos p comma) (s1 s2 : List ℕ) :
    E.readCounts patternPos p s1 s2 comma = .error .beyondPattern := by
  induction h generalizing s1 s2 with
  | @atEnd p comma char hp hread =>
    unfold Evaluator.readCounts
    cases p with
    | nil => exact absurd rfl hp
    | cons byte p => simp only [hread]
  | @comma c rest p size ch hp hread hclose hcomma _ ih =>
    unfold Evaluator.readCounts
    cases p with
    | nil => exact absurd rfl hp
    | cons byte p => simpa only [hread, hclose, hcomma, Bool.false_eq_true, if_false, if_true] using ih _ _
  | @digit c rest p comma size ch hp hread hclose hcomma hdigit _ ih =>
    unfold Evaluator.readCounts
    cases p with
    | nil => exact absurd rfl hp
    | cons byte p =>
      simp only [hread, hclose, hcomma, hdigit, and_self, if_true, Bool.false_eq_true, if_false]
      split_ifs
      · exact ih _ _
      · exact ih _ _

theorem parseCounts_error {rest : List α} {e : ParseError} (h : E.parseCounts rest = .error e) :
    e.Raised ∨ e = .beyondPattern ∧ E.CountsCut rest (E.countsPos rest) false := by
  unfold parseCounts at h
  cases hread : E.readCounts rest (E.countsPos rest) [] [] false with
  | error e' =>
    simp only [hread] at h
    cases h
    exact readCounts_error hread
  | ok result =>
    simp only [hread] at h
    split_ifs at h
    all_goals
      cases h
      exact .inl trivial

theorem CountsCut.parseCounts {rest : List α} (h : E.CountsCut rest (E.countsPos rest) false) :
    E.parseCounts rest = .error .beyondPattern := by
  unfold Evaluator.parseCounts
  rw [h.readCounts]

/-! ## Repetitions -/

theorem is_openBrace {op : α} (hrep : E.isRep op) (hstar : ¬ E.is op .asterisk)
    (hplus : ¬ E.is op .plus) (hquestion : ¬ E.is op .questionMark) : E.is op .openBrace := by
  simpa [isRep, hstar, hplus, hquestion] using hrep

theorem parseRep_rejected {flags : Flags} {op : α}
    (hreject : ¬ (flags.notEmpty ∨ E.is op .questionMark)) (atomPos : ℕ) (nodes : List (Node α γ))
    (rest : List α) :
    E.parseRep flags atomPos nodes op rest = .error .invalidSimilarPattern := by
  unfold parseRep
  rw [if_pos (not_or.1 hreject)]

/-- A repetition is read up to its end, or the parser fails in its bounds. -/
theorem parseRep_cases {flags : Flags} {op : α} (hallowed : flags.notEmpty ∨ E.is op .questionMark)
    (atomPos : ℕ) (nodes : List (Node α γ)) (rest : List α) :
    (∃ flags' s, E.repReads op rest = some (flags'.notEmpty, s.patternPos) ∧
        E.parseRep flags atomPos nodes op rest =
          if s.patternPos.head?.any E.isRep then .error .invalidSimilarPattern else .ok (flags', s)) ∨
      ∃ e, (¬ E.is op .asterisk ∧ ¬ E.is op .plus ∧ ¬ E.is op .questionMark) ∧
        E.parseCounts rest = .error e ∧ E.repReads op rest = none ∧
          E.parseRep flags atomPos nodes op rest = .error e := by
  unfold parseRep repReads boundsRead
  rw [if_neg (not_and_or.2 (hallowed.imp not_not.2 not_not.2))]
  by_cases hstar : E.is op .asterisk
  · simp only [hstar, if_true]
    exact .inl ⟨⟨false, false⟩, ⟨_, rest⟩, rfl, rfl⟩
  by_cases hplus : E.is op .plus
  · simp only [hstar, hplus, if_true, Bool.false_eq_true, if_false]
    exact .inl ⟨⟨true, false⟩, ⟨_, rest⟩, rfl, rfl⟩
  by_cases hquestion : E.is op .questionMark
  · simp only [hstar, hplus, hquestion, if_true, Bool.false_eq_true, if_false]
    exact .inl ⟨⟨false, false⟩, ⟨_, rest⟩, rfl, rfl⟩
  simp only [hstar, hplus, hquestion, Bool.false_eq_true, if_false]
  cases hcounts : E.parseCounts rest with
  | error e => exact .inr ⟨e, by simp, rfl, rfl, rfl⟩
  | ok result => exact .inl ⟨⟨_, false⟩, ⟨_, result.2⟩, rfl, rfl⟩

theorem parseRep_ok {flags flags' : Flags} {atomPos : ℕ} {nodes : List (Node α γ)} {op : α}
    {rest : List α} {s : Parsing α γ}
    (h : E.parseRep flags atomPos nodes op rest = .ok (flags', s)) :
    (flags.notEmpty ∨ E.is op .questionMark) ∧
      E.repReads op rest = some (flags'.notEmpty, s.patternPos) ∧
      ¬ s.patternPos.head?.any E.isRep := by
  by_cases hallowed : flags.notEmpty ∨ E.is op .questionMark
  · rcases parseRep_cases hallowed atomPos nodes rest with ⟨_, _, hread, heq⟩ | ⟨e, -, -, -, heq⟩
    · rw [heq] at h
      split_ifs at h with hend
      cases h
      exact ⟨hallowed, hread, hend⟩
    · rw [heq] at h
      cases h
  · rw [parseRep_rejected hallowed] at h
    cases h

theorem parseRep_error {flags : Flags} {atomPos : ℕ} {nodes : List (Node α γ)} {op : α}
    {rest : List α} {e : ParseError} (hrep : E.isRep op)
    (h : E.parseRep flags atomPos nodes op rest = .error e) :
    e.Raised ∨ e = .beyondPattern ∧ flags.notEmpty ∧ E.is op .openBrace ∧
      E.CountsCut rest (E.countsPos rest) false := by
  by_cases hallowed : flags.notEmpty ∨ E.is op .questionMark
  · rcases parseRep_cases hallowed atomPos nodes rest with
      ⟨_, _, -, heq⟩ | ⟨e', ⟨hstar, hplus, hquestion⟩, hcounts, -, heq⟩
    · rw [heq] at h
      split_ifs at h
      cases h
      exact .inl trivial
    · rw [heq] at h
      cases h
      rcases parseCounts_error hcounts with hraised | ⟨he, hcut⟩
      · exact .inl hraised
      · exact .inr ⟨he, hallowed.resolve_right hquestion,
          is_openBrace hrep hstar hplus hquestion, hcut⟩
  · rw [parseRep_rejected hallowed] at h
    cases h
    exact .inl trivial

theorem parseRep_of_repReads {flags : Flags} {op : α} {rest rest' : List α} {b : Bool}
    (hallowed : flags.notEmpty ∨ E.is op .questionMark)
    (hread : E.repReads op rest = some (b, rest')) (hend : ¬ rest'.head?.any E.isRep)
    (atomPos : ℕ) (nodes : List (Node α γ)) :
    ∃ exactly nodes',
      E.parseRep flags atomPos nodes op rest = .ok (⟨b, exactly⟩, ⟨nodes', rest'⟩) := by
  rcases parseRep_cases hallowed atomPos nodes rest with
    ⟨⟨b', exactly⟩, ⟨nodes', rest''⟩, hread', heq⟩ | ⟨e, -, -, hnone, -⟩
  · rw [hread] at hread'
    cases hread'
    exact ⟨exactly, nodes', by rw [heq, if_neg hend]⟩
  · rw [hread] at hnone
    cases hnone

theorem parseRep_of_countsCut {flags : Flags} {op : α} {rest : List α} (hflag : flags.notEmpty = true)
    (hop : E.is op .openBrace) (h : E.CountsCut rest (E.countsPos rest) false) (atomPos : ℕ)
    (nodes : List (Node α γ)) :
    E.parseRep flags atomPos nodes op rest = .error .beyondPattern := by
  have hother : ∀ s, s ≠ Special.openBrace → ¬ E.is op s := fun s hs his => hs (eq_of_is his hop)
  have hnone : E.repReads op rest = none := by
    unfold repReads boundsRead
    simp [hother, h.parseCounts]
  rcases parseRep_cases (.inl hflag) atomPos nodes rest with
    ⟨_, _, hread, -⟩ | ⟨e, -, hcounts, -, heq⟩
  · rw [hnone] at hread
    cases hread
  · rw [h.parseCounts] at hcounts
    cases hcounts
    exact heq

end Evaluator

end FirebirdCore.Similar
