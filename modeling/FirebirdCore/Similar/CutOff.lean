import FirebirdCore.Similar.Grammar

/-!
# The parser stays in the pattern

The parser raises an error or accepts, without a look behind the end of the pattern, just if the pattern
is not `Cut`.
-/
namespace FirebirdCore.Similar

variable {α γ : Type} [DecidableEq γ]

namespace Evaluator

variable {E : Evaluator α γ}

/-! ## The parts of the grammar -/

/-- The function that reads a part. -/
def parsePart (E : Evaluator α γ) (part : Part) (fuel : ℕ) (flagp : Flags) (refs : List ℕ)
    (first : Bool) (s : Parsing α γ) : Except ParseError (Flags × Parsing α γ) :=
  match part with
  | .alternatives => E.parseBranches fuel flagp refs s
  | .sequence => E.parseFactors fuel flagp first s
  | .factor => E.parseFactor fuel s
  | .primary => E.parsePrimary fuel s

/-- The flag of a part, which a sequence adds to what it has. -/
def Part.flag (flagp : Flags) (b : Bool) : Part → Bool
  | .sequence => flagp.notEmpty || b
  | _ => b

/-- Factors and primaries are read only where something is left. -/
def Part.Begins (rest : List α) : Part → Prop
  | .alternatives => True
  | .sequence => True
  | .factor => rest ≠ []
  | .primary => rest ≠ []

/-- What is read is in the grammar, and the parser looks behind the pattern only where that is cut
off. -/
def Outcome (E : Evaluator α γ) (part : Part) (flagp : Flags) (rest : List α) :
    Except ParseError (Flags × Parsing α γ) → Prop
  | .ok (flags, s) => ∃ b, E.Reads part rest b s.patternPos ∧ flags.notEmpty = part.flag flagp b
  | .error e => e = .beyondPattern → E.Cut part rest

def Tracks (E : Evaluator α γ) (fuel : ℕ) : Prop :=
  ∀ part flagp refs first s, part.Begins s.patternPos →
    E.Outcome part flagp s.patternPos (E.parsePart part fuel flagp refs first s)

variable {fuel : ℕ}

theorem outcome_parseExpr (ih : ∀ m < fuel + 1, E.Tracks m) (s : Parsing α γ) :
    E.Outcome .alternatives ⟨true, false⟩ s.patternPos (E.parseExpr fuel s) := by
  cases fuel with
  | zero => exact fun h => by cases h
  | succ fuel => exact ih fuel (by omega) .alternatives ⟨true, false⟩ [] true s trivial

theorem outcome_parseTerm (ih : ∀ m < fuel + 1, E.Tracks m) (s : Parsing α γ) :
    E.Outcome .sequence ⟨false, false⟩ s.patternPos (E.parseTerm fuel s) := by
  cases fuel with
  | zero => exact fun h => by cases h
  | succ fuel => exact ih fuel (by omega) .sequence ⟨false, false⟩ [] true s trivial

theorem outcome_primary (ih : ∀ m < fuel + 1, E.Tracks m) (flagp : Flags) (s : Parsing α γ)
    (hne : s.patternPos ≠ []) :
    E.Outcome .primary flagp s.patternPos (E.parsePrimary (fuel + 1) s) := by
  obtain ⟨nodes, patternPos⟩ := s
  cases patternPos with
  | nil => exact absurd rfl hne
  | cons op rest =>
    unfold parsePrimary
    by_cases hunderline : E.is op .underline
    · simp only [hunderline, if_true]
      exact ⟨true, .underline hunderline, rfl⟩
    by_cases hpercent : E.is op .percent
    · simp only [hunderline, hpercent, if_true, Bool.false_eq_true, if_false]
      exact ⟨false, .percent hpercent, rfl⟩
    by_cases hbracket : E.is op .openBracket
    · simp only [hunderline, hpercent, hbracket, if_true, Bool.false_eq_true, if_false]
      have hleft := readSet_left (E := E) (rest.length + 1) none none rfl [] [] [] rest
      cases hset : E.readSet (rest.length + 1) none [] [] rest with
      | error e =>
        intro he
        rcases readSet_error (Nat.lt_succ_self _) hset with hraised | ⟨-, -, hcut⟩
        · exact absurd he hraised.ne_beyondPattern
        · exact .set hbracket hcut
      | ok result =>
        obtain ⟨enum, rest'⟩ := result
        cases htext : E.setText (rest.length + 1) none [] rest with
        | none => simp [hset, htext, Except.toOption] at hleft
        | some result =>
          obtain ⟨set, rest''⟩ := result
          obtain rfl : rest' = rest'' := by simpa [hset, htext, Except.toOption] using hleft
          exact ⟨true, .set hbracket htext, rfl⟩
    by_cases hparen : E.is op .openParen
    · simp only [hunderline, hpercent, hbracket, hparen, if_true, Bool.false_eq_true, if_false]
      have hexpr := outcome_parseExpr ih ⟨nodes, rest⟩
      cases hparse : E.parseExpr fuel ⟨nodes, rest⟩ with
      | error e =>
        rw [hparse] at hexpr
        exact fun he => .group hparen (hexpr he)
      | ok result =>
        obtain ⟨flags, nodes', rest'⟩ := result
        rw [hparse] at hexpr
        obtain ⟨b, hreads, hflag⟩ := hexpr
        rcases rest' with - | ⟨c, rest'⟩
        · exact fun he => by cases he
        · by_cases hclose : E.is c .closeParen
          · simp only [hclose, if_true]
            exact ⟨b, .group hparen hreads hclose, hflag⟩
          · simp only [hclose, Bool.false_eq_true, if_false]
            exact fun he => by cases he
    have hop : ∀ s ∈ [Special.underline, .percent, .openBracket, .openParen], ¬ E.is op s := by
      simp [hunderline, hpercent, hbracket, hparen]
    by_cases hescape : E.isEscape op
    · simp only [hunderline, hpercent, hbracket, hparen, hescape, if_true, Bool.false_eq_true, if_false]
      cases hread : E.readEscaped rest with
      | error e => exact fun he => absurd he (readEscaped_raised hread).ne_beyondPattern
      | ok result => exact ⟨true, .escaped hop hescape hread, rfl⟩
    simp only [hunderline, hpercent, hbracket, hparen, hescape, Bool.false_eq_true, if_false]
    cases hrun : E.plainRun (op :: rest) with
    | nil => exact fun he => by cases he
    | cons c run =>
      have hne : E.plainRun (op :: rest) ≠ [] := by simp [hrun]
      have hreads := Reads.plain hop hescape hne
      rw [hrun] at hreads
      cases run with
      | nil => exact ⟨true, hreads, rfl⟩
      | cons c' run => exact ⟨true, hreads, rfl⟩

theorem outcome_factor (ih : ∀ m < fuel + 1, E.Tracks m) (flagp : Flags) (s : Parsing α γ)
    (hne : s.patternPos ≠ []) :
    E.Outcome .factor flagp s.patternPos (E.parseFactor (fuel + 1) s) := by
  unfold parseFactor
  have hprimary := ih fuel (Nat.lt_succ_self _) .primary flagp [] true s hne
  change E.Outcome _ _ _ (E.parsePrimary fuel s) at hprimary
  cases hparse : E.parsePrimary fuel s with
  | error e =>
    rw [hparse] at hprimary
    exact fun he => .primary (hprimary he)
  | ok result =>
    obtain ⟨flags, nodes, rest⟩ := result
    rw [hparse] at hprimary
    obtain ⟨b, hreads, hflag⟩ := hprimary
    cases rest with
    | nil => exact ⟨b, .single hreads (by simp), hflag⟩
    | cons op rest =>
      by_cases hrep : E.isRep op
      · simp only [hrep, if_true]
        change flags.notEmpty = b at hflag
        subst hflag
        cases hresult : E.parseRep flags s.nodes.length nodes op rest with
        | error e =>
          intro he
          rcases parseRep_error hrep hresult with hraised | ⟨-, hflag, hbrace, hcut⟩
          · exact absurd he hraised.ne_beyondPattern
          · rw [hflag] at hreads
            exact .counts hreads hbrace hcut
        | ok result =>
          obtain ⟨flags', s'⟩ := result
          obtain ⟨hallowed, hread, hend⟩ := parseRep_ok hresult
          exact ⟨flags'.notEmpty, .repeated hreads hrep hallowed hread hend, rfl⟩
      · simp only [hrep, Bool.false_eq_true, if_false]
        exact ⟨b, .single hreads (by simpa using hrep), hflag⟩

theorem outcome_sequence (ih : ∀ m < fuel + 1, E.Tracks m) (flagp : Flags) (first : Bool)
    (s : Parsing α γ) :
    E.Outcome .sequence flagp s.patternPos (E.parseFactors (fuel + 1) flagp first s) := by
  unfold parseFactors
  by_cases hstops : E.stops s.patternPos
  · have hstops' := hstops
    unfold stops at hstops
    rw [if_pos hstops]
    cases first with
    | true => exact ⟨false, .done hstops', (Bool.or_false _).symm⟩
    | false => exact ⟨false, .done hstops', (Bool.or_false _).symm⟩
  · have hstops' := hstops
    unfold stops at hstops
    rw [if_neg hstops]
    have hne : s.patternPos ≠ [] := by
      intro hnil
      simp [hnil] at hstops
    have hfactor := ih fuel (Nat.lt_succ_self _) .factor flagp [] true s hne
    change E.Outcome _ _ _ (E.parseFactor fuel s) at hfactor
    cases hparse : E.parseFactor fuel s with
    | error e =>
      rw [hparse] at hfactor
      exact fun he => .factor hstops' (hfactor he)
    | ok result =>
      obtain ⟨flags, s'⟩ := result
      rw [hparse] at hfactor
      obtain ⟨b, hreads, hflag⟩ := hfactor
      change flags.notEmpty = b at hflag
      have hor : (if first then (flagp.or flags.onlyNotEmpty).or flags
          else flagp.or flags.onlyNotEmpty).notEmpty = (flagp.notEmpty || b) := by
        cases first <;> simp [Flags.or, Flags.onlyNotEmpty, hflag]
      have hrest := ih fuel (Nat.lt_succ_self _) .sequence
        (if first then (flagp.or flags.onlyNotEmpty).or flags else flagp.or flags.onlyNotEmpty) []
        false s' trivial
      change E.Outcome _ _ _ (E.parseFactors fuel _ false s') at hrest
      cases hresult : E.parseFactors fuel (if first then (flagp.or flags.onlyNotEmpty).or flags
          else flagp.or flags.onlyNotEmpty) false s' with
      | error e =>
        rw [hresult] at hrest
        simp only [hresult]
        exact fun he => .next hstops' hreads (hrest he)
      | ok result =>
        rw [hresult] at hrest
        obtain ⟨b', hreads', hflag'⟩ := hrest
        simp only [hresult]
        refine ⟨b || b', .next hstops' hreads hreads', ?_⟩
        change _ = (flagp.notEmpty || (b || b'))
        change _ = (_ || b') at hflag'
        rw [hflag', hor, Bool.or_assoc]

theorem outcome_alternatives (ih : ∀ m < fuel + 1, E.Tracks m) (flagp : Flags) (refs : List ℕ)
    (s : Parsing α γ) :
    E.Outcome .alternatives flagp s.patternPos (E.parseBranches (fuel + 1) flagp refs s) := by
  unfold parseBranches
  have hterm := outcome_parseTerm ih (s.push (.opBranch 0))
  change E.Outcome _ _ s.patternPos _ at hterm
  cases hparse : E.parseTerm fuel (s.push (.opBranch 0)) with
  | error e =>
    rw [hparse] at hterm
    exact fun he => .first (hterm he)
  | ok result =>
    obtain ⟨flags, nodes, rest⟩ := result
    rw [hparse] at hterm
    obtain ⟨b, hreads, hflag⟩ := hterm
    simp only
    have hlast : ((flagp.clear flags).or flags).notEmpty = b := by
      rw [← show flags.notEmpty = b from hflag]
      cases hempty : flags.notEmpty <;> simp [Flags.clear, Flags.or, hempty]
    have hdone : ∀ nodes', ¬ rest.head?.any (fun c => E.is c .verticalBar) →
        E.Outcome .alternatives flagp s.patternPos
          (.ok ((flagp.clear flags).or flags, ⟨nodes', rest⟩)) :=
      fun _ hend => ⟨b, .last hreads hend, hlast⟩
    cases rest with
    | nil => exact hdone _ (by simp)
    | cons c rest =>
      by_cases hbar : E.is c .verticalBar
      · simp only [Parsing.push, hbar, if_true]
        have hrest : ∀ nodes', E.Outcome .alternatives ((flagp.clear flags).or flags) rest
            (E.parseBranches fuel ((flagp.clear flags).or flags) (refs ++ [nodes.length])
              ⟨nodes', rest⟩) := fun nodes' =>
          ih fuel (Nat.lt_succ_self _) .alternatives _ _ true ⟨nodes', rest⟩ trivial
        generalize setRef (nodes ++ [.opRef 0]) s.nodes.length
          ((nodes ++ [(.opRef 0 : Node α γ)]).length - s.nodes.length) = nodes'
        have hnext := hrest nodes'
        cases hresult : E.parseBranches fuel ((flagp.clear flags).or flags) (refs ++ [nodes.length])
            ⟨nodes', rest⟩ with
        | error e =>
          rw [hresult] at hnext
          exact fun he => .bar hreads hbar (hnext he)
        | ok result =>
          rw [hresult] at hnext
          obtain ⟨b', hreads', hflag'⟩ := hnext
          exact ⟨b', .bar hreads hbar hreads', hflag'⟩
      · simp only [Parsing.push, hbar, Bool.false_eq_true, if_false]
        exact hdone _ (by simpa using hbar)

theorem tracks (E : Evaluator α γ) (fuel : ℕ) : E.Tracks fuel := by
  induction fuel using Nat.strong_induction_on with
  | _ fuel ih =>
    intro part flagp refs first s hbegins
    cases fuel with
    | zero => cases part <;> exact fun he => by cases he
    | succ fuel =>
      cases part with
      | alternatives => exact outcome_alternatives ih flagp refs s
      | sequence => exact outcome_sequence ih flagp first s
      | factor => exact outcome_factor ih flagp s hbegins
      | primary => exact outcome_primary ih flagp s hbegins

/-! ## What is in the grammar is read -/

theorem is_ne {op : α} {x y : Special} (hx : E.is op x) (hne : x ≠ y) : ¬ E.is op y :=
  fun hy => hne (eq_of_is hx hy)

/-- The fuel is not enough, or `rest` is left behind a part whose flag is `flag`. -/
def Completes (result : Except ParseError (Flags × Parsing α γ)) (flag : Bool) (rest : List α) : Prop :=
  result = .error .outOfFuel ∨
    ∃ flags nodes, result = .ok (flags, ⟨nodes, rest⟩) ∧ flags.notEmpty = flag

omit [DecidableEq γ] in
theorem Completes.ok {flags : Flags} {nodes : List (Node α γ)} {rest : List α} :
    Completes (.ok (flags, ⟨nodes, rest⟩)) flags.notEmpty rest := .inr ⟨flags, nodes, rfl, rfl⟩

/-! What a function of the parser turns to. -/

theorem parsePrimary_group {op : α} (hop : E.is op .openParen) (nodes : List (Node α γ))
    (rest : List α) :
    E.parsePrimary (fuel + 1) ⟨nodes, op :: rest⟩ =
      match E.parseExpr fuel ⟨nodes, rest⟩ with
      | .error e => .error e
      | .ok (flags, s) =>
          match s.patternPos with
          | [] => .error .invalidSimilarPattern
          | c :: rest =>
              if E.is c .closeParen then .ok (flags.onlyNotEmpty, ⟨s.nodes, rest⟩)
              else .error .invalidSimilarPattern := by
  have hunderline := is_ne hop (y := .underline) (by decide)
  have hpercent := is_ne hop (y := .percent) (by decide)
  have hbracket := is_ne hop (y := .openBracket) (by decide)
  unfold parsePrimary
  simp only [hunderline, hpercent, hbracket, hop, if_true, Bool.false_eq_true, if_false]
  all_goals rfl

theorem parsePrimary_set {op : α} (hop : E.is op .openBracket) (nodes : List (Node α γ))
    (rest : List α) :
    E.parsePrimary (fuel + 1) ⟨nodes, op :: rest⟩ =
      match E.readSet (rest.length + 1) none [] [] rest with
      | .error e => .error e
      | .ok (set, rest) => .ok (⟨true, false⟩, ⟨nodes ++ [.opAnyOf set], rest⟩) := by
  have hunderline := is_ne hop (y := .underline) (by decide)
  have hpercent := is_ne hop (y := .percent) (by decide)
  unfold parsePrimary
  simp only [hunderline, hpercent, hop, if_true, Bool.false_eq_true, if_false]
  all_goals rfl

theorem parseFactor_error {s : Parsing α γ} {e : ParseError} (h : E.parsePrimary fuel s = .error e) :
    E.parseFactor (fuel + 1) s = .error e := by
  unfold parseFactor
  simp only [h]

theorem parseFactor_rep {s : Parsing α γ} {flags : Flags} {nodes : List (Node α γ)} {op : α}
    {rest : List α} (h : E.parsePrimary fuel s = .ok (flags, ⟨nodes, op :: rest⟩))
    (hrep : E.isRep op) :
    E.parseFactor (fuel + 1) s = E.parseRep flags s.nodes.length nodes op rest := by
  unfold parseFactor
  simp only [h, hrep, if_true]

theorem parseFactors_error {s : Parsing α γ} {e : ParseError} (hstops : ¬ E.stops s.patternPos)
    (h : E.parseFactor fuel s = .error e) (flagp : Flags) (first : Bool) :
    E.parseFactors (fuel + 1) flagp first s = .error e := by
  unfold parseFactors
  unfold stops at hstops
  rw [if_neg hstops]
  simp only [h]

theorem parseFactors_next {s s' : Parsing α γ} {flags : Flags} (hstops : ¬ E.stops s.patternPos)
    (h : E.parseFactor fuel s = .ok (flags, s')) (flagp : Flags) (first : Bool) :
    ∃ flagp', E.parseFactors (fuel + 1) flagp first s = E.parseFactors fuel flagp' false s' ∧
      flagp'.notEmpty = (flagp.notEmpty || flags.notEmpty) := by
  refine ⟨if first then (flagp.or flags.onlyNotEmpty).or flags else flagp.or flags.onlyNotEmpty,
    ?_, ?_⟩
  · conv_lhs => unfold parseFactors
    unfold stops at hstops
    rw [if_neg hstops]
    simp only [h]
  · cases first <;> simp [Flags.or, Flags.onlyNotEmpty]

theorem parseBranches_error {nodes : List (Node α γ)} {rest : List α} {e : ParseError}
    (h : E.parseFactors fuel ⟨false, false⟩ true ⟨nodes ++ [.opBranch 0], rest⟩ = .error e)
    (flagp : Flags) (refs : List ℕ) :
    E.parseBranches (fuel + 2) flagp refs ⟨nodes, rest⟩ = .error e := by
  unfold parseBranches parseTerm
  simp only [Parsing.push, h]

theorem parseBranches_last {nodes nodes' : List (Node α γ)} {rest rest' : List α} {flags : Flags}
    (h : E.parseFactors fuel ⟨false, false⟩ true ⟨nodes ++ [.opBranch 0], rest⟩ =
      .ok (flags, ⟨nodes', rest'⟩))
    (hend : ¬ rest'.head?.any fun c => E.is c .verticalBar) (flagp : Flags) (refs : List ℕ) :
    ∃ flagp' nodes'', E.parseBranches (fuel + 2) flagp refs ⟨nodes, rest⟩ =
        .ok (flagp', ⟨nodes'', rest'⟩) ∧ flagp'.notEmpty = flags.notEmpty := by
  unfold parseBranches parseTerm
  have hlast : ((flagp.clear flags).or flags).notEmpty = flags.notEmpty := by
    cases hempty : flags.notEmpty <;> simp [Flags.clear, Flags.or, hempty]
  simp only [Parsing.push, h]
  cases rest' with
  | nil => exact ⟨_, _, rfl, hlast⟩
  | cons c rest' =>
    have hbar : ¬ E.is c .verticalBar := by simpa using hend
    simp only [hbar, Bool.false_eq_true, if_false]
    exact ⟨_, _, rfl, hlast⟩

theorem parseBranches_bar {nodes nodes' : List (Node α γ)} {c : α} {rest rest' : List α}
    {flags : Flags}
    (h : E.parseFactors fuel ⟨false, false⟩ true ⟨nodes ++ [.opBranch 0], rest⟩ =
      .ok (flags, ⟨nodes', c :: rest'⟩))
    (hbar : E.is c .verticalBar) (flagp : Flags) (refs : List ℕ) :
    ∃ flagp' refs' nodes'', E.parseBranches (fuel + 2) flagp refs ⟨nodes, rest⟩ =
      E.parseBranches (fuel + 1) flagp' refs' ⟨nodes'', rest'⟩ := by
  refine ⟨(flagp.clear flags).or flags, refs ++ [nodes'.length],
    setRef (nodes' ++ [.opRef 0]) nodes.length
      ((nodes' ++ [(.opRef 0 : Node α γ)]).length - nodes.length), ?_⟩
  conv_lhs => unfold parseBranches parseTerm
  simp only [Parsing.push, h, hbar, if_true]

theorem Reads.completes {part : Part} {rest rest' : List α} {b : Bool}
    (h : E.Reads part rest b rest') (fuel : ℕ) (flagp : Flags) (refs : List ℕ) (first : Bool)
    (nodes : List (Node α γ)) :
    Completes (E.parsePart part fuel flagp refs first ⟨nodes, rest⟩) (part.flag flagp b) rest' := by
  induction h generalizing fuel flagp refs first nodes with
  | underline hop =>
    cases fuel with
    | zero => exact .inl rfl
    | succ fuel =>
      unfold parsePart parsePrimary
      simp only [hop, if_true]
      exact .ok
  | percent hop =>
    have hunderline := is_ne hop (y := .underline) (by decide)
    cases fuel with
    | zero => exact .inl rfl
    | succ fuel =>
      unfold parsePart parsePrimary
      simp only [hunderline, hop, if_true, Bool.false_eq_true, if_false]
      exact .ok
  | @set op rest rest' set hop hset =>
    have hleft := readSet_left (E := E) (rest.length + 1) none none rfl [] [] [] rest
    cases fuel with
    | zero => exact .inl rfl
    | succ fuel =>
      unfold parsePart
      simp only [parsePrimary_set hop]
      cases hread : E.readSet (rest.length + 1) none [] [] rest with
      | error e => simp [hset, hread, Except.toOption] at hleft
      | ok result =>
        obtain ⟨enum, rest''⟩ := result
        obtain rfl : rest'' = rest' := by simpa [hset, hread, Except.toOption] using hleft
        exact .ok
  | @group op c rest rest' b hop hexpr hclose ih =>
    rcases fuel with - | - | fuel
    · exact .inl rfl
    · unfold parsePart
      simp only [parsePrimary_group hop]
      exact .inl rfl
    · unfold parsePart
      simp only [parsePrimary_group hop]
      rcases ih fuel ⟨true, false⟩ [] true nodes with hfuel | ⟨flags, nodes', hparse, hflag⟩
      · left
        rw [show E.parseExpr (fuel + 1) ⟨nodes, rest⟩ = .error .outOfFuel from hfuel]
      · rw [show E.parseExpr (fuel + 1) ⟨nodes, rest⟩ = .ok (flags, ⟨nodes', c :: rest'⟩) from hparse]
        simp only [hclose, if_true]
        exact .inr ⟨_, _, rfl, hflag⟩
  | @escaped op c rest rest' hop hescape hread =>
    cases fuel with
    | zero => exact .inl rfl
    | succ fuel =>
      unfold parsePart parsePrimary
      simp only [hop .underline (by simp), hop .percent (by simp), hop .openBracket (by simp),
        hop .openParen (by simp), hescape, hread, if_true, Bool.false_eq_true, if_false]
      exact .ok
  | @plain op rest hop hescape hrun =>
    cases fuel with
    | zero => exact .inl rfl
    | succ fuel =>
      unfold parsePart parsePrimary
      simp only [hop .underline (by simp), hop .percent (by simp), hop .openBracket (by simp),
        hop .openParen (by simp), hescape, Bool.false_eq_true, if_false]
      cases hchars : E.plainRun (op :: rest) with
      | nil => exact absurd hchars hrun
      | cons c run =>
        cases run with
        | nil => exact .ok
        | cons c' run => exact .ok
  | @single rest rest' b hprimary hend ih =>
    cases fuel with
    | zero => exact .inl rfl
    | succ fuel =>
      rcases ih fuel flagp refs first nodes with hfuel | ⟨flags, nodes', hparse, hflag⟩
      · exact .inl (parseFactor_error hfuel)
      · unfold parsePart parseFactor
        simp only [show E.parsePrimary fuel ⟨nodes, rest⟩ = .ok (flags, ⟨nodes', rest'⟩) from hparse]
        cases rest' with
        | nil => exact .inr ⟨_, _, rfl, hflag⟩
        | cons op rest' =>
          have hrep : ¬ E.isRep op := by simpa using hend
          simp only [hrep, Bool.false_eq_true, if_false]
          exact .inr ⟨_, _, rfl, hflag⟩
  | @repeated op rest rest' rest'' b b' hprimary hrep hallowed hread hend ih =>
    cases fuel with
    | zero => exact .inl rfl
    | succ fuel =>
      rcases ih fuel flagp refs first nodes with hfuel | ⟨flags, nodes', hparse, hflag⟩
      · exact .inl (parseFactor_error hfuel)
      · have hallowed' : flags.notEmpty ∨ E.is op .questionMark := by
          rwa [show flags.notEmpty = b from hflag]
        obtain ⟨exactly, nodes'', hresult⟩ :=
          parseRep_of_repReads hallowed' hread hend nodes.length nodes'
        exact .inr ⟨_, nodes'', (parseFactor_rep hparse hrep).trans hresult, rfl⟩
  | @done rest hstops =>
    cases fuel with
    | zero => exact .inl rfl
    | succ fuel =>
      unfold parsePart parseFactors
      unfold stops at hstops
      rw [if_pos hstops]
      cases first with
      | true => exact .inr ⟨flagp, _, rfl, (Bool.or_false _).symm⟩
      | false => exact .inr ⟨flagp, _, rfl, (Bool.or_false _).symm⟩
  | @next rest rest' rest'' b b' hstops hfactor hsequence ih ih' =>
    cases fuel with
    | zero => exact .inl rfl
    | succ fuel =>
      rcases ih fuel flagp refs first nodes with hfuel | ⟨flags, nodes', hparse, hflag⟩
      · exact .inl (parseFactors_error hstops hfuel flagp first)
      · obtain ⟨flagp', hresult, hor⟩ := parseFactors_next hstops hparse flagp first
        have hrest := ih' fuel flagp' refs false nodes'
        change flags.notEmpty = b at hflag
        rw [show Part.flag flagp' b' .sequence = Part.flag flagp (b || b') .sequence by
          simp only [Part.flag, hor, hflag, Bool.or_assoc]] at hrest
        unfold parsePart at hrest ⊢
        simp only [hresult]
        exact hrest
  | @last rest rest' b hsequence hend ih =>
    rcases fuel with - | - | fuel
    · exact .inl rfl
    · exact .inl rfl
    · rcases ih fuel ⟨false, false⟩ [] true (nodes ++ [.opBranch 0]) with
        hfuel | ⟨flags, nodes', hparse, hflag⟩
      · exact .inl (parseBranches_error hfuel flagp refs)
      · obtain ⟨flagp', nodes'', hresult, hlast⟩ := parseBranches_last hparse hend flagp refs
        exact .inr ⟨flagp', nodes'', hresult, hlast.trans hflag⟩
  | @bar c rest rest' rest'' b b' hsequence hbar halternatives ih ih' =>
    rcases fuel with - | - | fuel
    · exact .inl rfl
    · exact .inl rfl
    · rcases ih fuel ⟨false, false⟩ [] true (nodes ++ [.opBranch 0]) with
        hfuel | ⟨flags, nodes', hparse, hflag⟩
      · exact .inl (parseBranches_error hfuel flagp refs)
      · obtain ⟨flagp', refs', nodes'', hresult⟩ := parseBranches_bar hparse hbar flagp refs
        have hrest := ih' (fuel + 1) flagp' refs' true nodes''
        unfold parsePart at hrest ⊢
        simp only [hresult]
        exact hrest

/-- The fuel is not enough, or the parser looks behind the pattern. -/
def Fails (result : Except ParseError (Flags × Parsing α γ)) : Prop :=
  result = .error .outOfFuel ∨ result = .error .beyondPattern

theorem Cut.fails {part : Part} {rest : List α} (h : E.Cut part rest) (fuel : ℕ) (flagp : Flags)
    (refs : List ℕ) (first : Bool) (nodes : List (Node α γ)) :
    Fails (E.parsePart part fuel flagp refs first ⟨nodes, rest⟩) := by
  induction h generalizing fuel flagp refs first nodes with
  | @set op rest hop h =>
    cases fuel with
    | zero => exact .inl rfl
    | succ fuel =>
      unfold parsePart
      simp only [parsePrimary_set hop, h.readSet (Nat.lt_succ_self _) [] []]
      exact .inr rfl
  | @group op rest hop h ih =>
    rcases fuel with - | - | fuel
    · exact .inl rfl
    · unfold parsePart
      simp only [parsePrimary_group hop]
      exact .inl rfl
    · unfold parsePart
      simp only [parsePrimary_group hop]
      refine (ih fuel ⟨true, false⟩ [] true nodes).imp (fun hfuel => ?_) fun hbeyond => ?_
      · rw [show E.parseExpr (fuel + 1) ⟨nodes, rest⟩ = .error .outOfFuel from hfuel]
      · rw [show E.parseExpr (fuel + 1) ⟨nodes, rest⟩ = .error .beyondPattern from hbeyond]
  | @primary rest h ih =>
    cases fuel with
    | zero => exact .inl rfl
    | succ fuel => exact (ih fuel flagp refs first nodes).imp parseFactor_error parseFactor_error
  | @counts op rest rest' hprimary hop h =>
    have hrep : E.isRep op := by simp [isRep, hop]
    cases fuel with
    | zero => exact .inl rfl
    | succ fuel =>
      rcases hprimary.completes fuel flagp refs first nodes with hfuel | ⟨flags, nodes', hparse, hflag⟩
      · exact .inl (parseFactor_error hfuel)
      · exact .inr ((parseFactor_rep hparse hrep).trans (parseRep_of_countsCut hflag hop h _ _))
  | @factor rest hstops h ih =>
    cases fuel with
    | zero => exact .inl rfl
    | succ fuel =>
      exact (ih fuel flagp refs first nodes).imp
        (fun hfuel => parseFactors_error hstops hfuel flagp first)
        fun hbeyond => parseFactors_error hstops hbeyond flagp first
  | @next rest rest' b hstops hfactor h ih =>
    cases fuel with
    | zero => exact .inl rfl
    | succ fuel =>
      rcases hfactor.completes fuel flagp refs first nodes with hfuel | ⟨flags, nodes', hparse, -⟩
      · exact .inl (parseFactors_error hstops hfuel flagp first)
      · obtain ⟨flagp', hresult, -⟩ := parseFactors_next hstops hparse flagp first
        have hrest := ih fuel flagp' refs false nodes'
        unfold parsePart at hrest ⊢
        simp only [hresult]
        exact hrest
  | @first rest h ih =>
    rcases fuel with - | - | fuel
    · exact .inl rfl
    · exact .inl rfl
    · rcases ih fuel ⟨false, false⟩ [] true (nodes ++ [.opBranch 0]) with hfuel | hbeyond
      · exact .inl (parseBranches_error hfuel flagp refs)
      · exact .inr (parseBranches_error hbeyond flagp refs)
  | @bar c rest rest' b hsequence hbar h ih =>
    rcases fuel with - | - | fuel
    · exact .inl rfl
    · exact .inl rfl
    · rcases hsequence.completes fuel ⟨false, false⟩ [] true (nodes ++ [.opBranch 0]) with
        hfuel | ⟨flags, nodes', hparse, -⟩
      · exact .inl (parseBranches_error hfuel flagp refs)
      · obtain ⟨flagp', refs', nodes'', hresult⟩ := parseBranches_bar hparse hbar flagp refs
        have hrest := ih (fuel + 1) flagp' refs' true nodes''
        unfold parsePart at hrest ⊢
        simp only [hresult]
        exact hrest

/-! ## The fuel -/

theorem readCounts_suffix {patternPos rest : List α} {p : List UInt8} {s1 s2 : List ℕ} {comma : Bool}
    {result : List ℕ × List ℕ × Bool}
    (h : E.readCounts patternPos p s1 s2 comma = .ok (result, rest)) : rest <:+ patternPos := by
  induction patternPos generalizing p s1 s2 comma with
  | nil =>
    unfold readCounts at h
    cases p with
    | nil => cases h
    | cons byte p =>
      cases hread : E.textType.readOneChar (byte :: p) <;> simp [hread] at h
  | cons c behind ih =>
    unfold readCounts at h
    cases p with
    | nil => cases h
    | cons byte p =>
      cases hread : E.textType.readOneChar (byte :: p) with
      | none => simp [hread] at h
      | some char =>
        simp only [hread] at h
        split_ifs at h
        · cases h
          exact List.suffix_cons ..
        all_goals exact (ih h).trans (List.suffix_cons ..)

theorem boundsRead_suffix {rest rest' : List α} {bounds : ℕ × Option ℕ}
    (h : E.boundsRead rest = some (bounds, rest')) : rest' <:+ rest := by
  unfold boundsRead parseCounts at h
  cases hread : E.readCounts rest (E.countsPos rest) [] [] false with
  | error e => simp [hread] at h
  | ok result =>
    obtain ⟨⟨s1, s2, comma⟩, rest''⟩ := result
    have hsuffix := readCounts_suffix hread
    simp only [hread] at h
    split_ifs at h
    all_goals
      cases h
      try exact hsuffix

theorem repReads_suffix {op : α} {rest rest' : List α} {b : Bool}
    (h : E.repReads op rest = some (b, rest')) : rest' <:+ rest := by
  unfold repReads at h
  split_ifs at h
  · cases h
    exact List.suffix_rfl
  · cases h
    exact List.suffix_rfl
  · cases h
    exact List.suffix_rfl
  · rw [Option.map_eq_some_iff] at h
    obtain ⟨⟨bounds, rest''⟩, hread, heq⟩ := h
    cases heq
    exact boundsRead_suffix hread

/-- How much less is left behind a part at least. -/
def Part.least : Part → ℕ
  | .alternatives => 0
  | .sequence => 0
  | .factor => 1
  | .primary => 1

theorem Reads.length_le {part : Part} {rest rest' : List α} {b : Bool}
    (h : E.Reads part rest b rest') : rest'.length + part.least ≤ rest.length := by
  induction h with
  | underline hop => simp [Part.least]
  | percent hop => simp [Part.least]
  | set hop hset =>
    have := (setText_suffix hset).length_le
    simpa [Part.least] using this
  | group hop hexpr hclose ih =>
    simp only [Part.least, List.length_cons] at ih ⊢
    omega
  | escaped hop hescape hread =>
    have := (readEscaped_suffix (by rw [hread]; rfl)).length_le
    simpa [Part.least] using this
  | plain hop hescape hrun =>
    have := List.length_pos_of_ne_nil hrun
    simp only [Part.least, List.length_drop, List.length_cons]
    omega
  | single hprimary hend ih => exact ih
  | repeated hprimary hrep hallowed hread hend ih =>
    have := (repReads_suffix hread).length_le
    simp only [Part.least, List.length_cons] at ih ⊢
    omega
  | done hstops => simp [Part.least]
  | next hstops hfactor hsequence ih ih' =>
    simp only [Part.least] at ih ih' ⊢
    omega
  | last hsequence hend ih => exact ih
  | bar hsequence hbar halternatives ih ih' =>
    simp only [Part.least, List.length_cons] at ih ih' ⊢
    omega

/-- How much fuel a part needs besides six for each character. -/
def Part.need : Part → ℕ
  | .alternatives => 4
  | .sequence => 2
  | .factor => 1
  | .primary => 0

/-- The fuel is enough for a part. -/
def Suffices (E : Evaluator α γ) (fuel : ℕ) : Prop :=
  ∀ part flagp refs first s, part.Begins s.patternPos →
    6 * s.patternPos.length + part.need ≤ fuel + 1 →
    E.parsePart part fuel flagp refs first s ≠ .error .outOfFuel

theorem suffices_primary (ih : ∀ m < fuel + 1, E.Suffices m) (s : Parsing α γ)
    (hne : s.patternPos ≠ []) (hfuel : 6 * s.patternPos.length ≤ fuel + 2) :
    E.parsePrimary (fuel + 1) s ≠ .error .outOfFuel := by
  obtain ⟨nodes, patternPos⟩ := s
  cases patternPos with
  | nil => exact absurd rfl hne
  | cons op rest =>
    simp only [List.length_cons] at hfuel
    obtain ⟨fuel, rfl⟩ : ∃ m, fuel = m + 1 := ⟨fuel - 1, by omega⟩
    have hexpr := ih fuel (by omega) .alternatives ⟨true, false⟩ [] true ⟨nodes, rest⟩ trivial
      (by simp only [Part.need]; omega)
    change E.parseExpr (fuel + 1) ⟨nodes, rest⟩ ≠ _ at hexpr
    unfold parsePrimary
    intro h
    simp only at h
    split_ifs at h
    · cases hset : E.readSet (rest.length + 1) none [] [] rest with
      | error e =>
        rw [hset] at h
        cases h
        rcases readSet_error (Nat.lt_succ_self _) hset with hraised | ⟨he, -, -⟩
        · exact hraised
        · cases he
      | ok result => simp [hset] at h
    · cases hparse : E.parseExpr (fuel + 1) ⟨nodes, rest⟩ with
      | error e =>
        rw [hparse] at h
        cases h
        exact hexpr hparse
      | ok result =>
        rw [hparse] at h
        simp only at h
        split at h
        · cases h
        · split_ifs at h
          cases h
    · cases hread : E.readEscaped rest with
      | error e =>
        rw [hread] at h
        cases h
        exact readEscaped_raised hread
      | ok result => simp [hread] at h
    · split at h
      · cases h
      · cases h
      · cases h

theorem suffices_factor (ih : ∀ m < fuel + 1, E.Suffices m) (s : Parsing α γ)
    (hne : s.patternPos ≠ []) (hfuel : 6 * s.patternPos.length + 1 ≤ fuel + 2) :
    E.parseFactor (fuel + 1) s ≠ .error .outOfFuel := by
  have hprimary := ih fuel (Nat.lt_succ_self _) .primary ⟨false, false⟩ [] true s hne
    (by simp only [Part.need]; omega)
  change E.parsePrimary fuel s ≠ _ at hprimary
  unfold parseFactor
  intro h
  cases hparse : E.parsePrimary fuel s with
  | error e =>
    simp only [hparse] at h
    cases h
    exact hprimary hparse
  | ok result =>
    simp only [hparse] at h
    split at h
    · cases h
    · split_ifs at h with hrep
      rcases parseRep_error hrep h with hraised | ⟨he, -⟩
      · exact hraised
      · cases he

theorem suffices_sequence (ih : ∀ m < fuel + 1, E.Suffices m) (flagp : Flags) (first : Bool)
    (s : Parsing α γ) (hfuel : 6 * s.patternPos.length + 2 ≤ fuel + 2) :
    E.parseFactors (fuel + 1) flagp first s ≠ .error .outOfFuel := by
  unfold parseFactors
  by_cases hstops : s.patternPos.head?.all fun c => E.is c .verticalBar || E.is c .closeParen
  · rw [if_pos hstops]
    intro h
    cases h
  · rw [if_neg hstops]
    have hne : s.patternPos ≠ [] := by
      intro hnil
      simp [hnil] at hstops
    have hfactor := ih fuel (Nat.lt_succ_self _) .factor flagp [] true s hne
      (by simp only [Part.need]; omega)
    have hreads := E.tracks fuel .factor flagp [] true s hne
    change E.parseFactor fuel s ≠ _ at hfactor
    change E.Outcome _ _ _ (E.parseFactor fuel s) at hreads
    intro h
    cases hparse : E.parseFactor fuel s with
    | error e =>
      simp only [hparse] at h
      cases h
      exact hfactor hparse
    | ok result =>
      rw [hparse] at hreads
      obtain ⟨b, hreads, -⟩ := hreads
      have hle := hreads.length_le
      simp only [Part.least] at hle
      simp only [hparse] at h
      exact ih fuel (Nat.lt_succ_self _) .sequence _ [] false result.2 trivial
        (by simp only [Part.need]; omega) h

theorem suffices_alternatives (ih : ∀ m < fuel + 1, E.Suffices m) (flagp : Flags) (refs : List ℕ)
    (s : Parsing α γ) (hfuel : 6 * s.patternPos.length + 4 ≤ fuel + 2) :
    E.parseBranches (fuel + 1) flagp refs s ≠ .error .outOfFuel := by
  obtain ⟨fuel, rfl⟩ : ∃ m, fuel = m + 1 := ⟨fuel - 1, by omega⟩
  have hterm := ih fuel (by omega) .sequence ⟨false, false⟩ [] true (s.push (.opBranch 0)) trivial
    (by simp only [Part.need, Parsing.push]; omega)
  have hreads := E.tracks fuel .sequence ⟨false, false⟩ [] true (s.push (.opBranch 0)) trivial
  change E.parseTerm (fuel + 1) _ ≠ _ at hterm
  change E.Outcome _ _ s.patternPos (E.parseTerm (fuel + 1) _) at hreads
  unfold parseBranches
  intro h
  cases hparse : E.parseTerm (fuel + 1) (s.push (.opBranch 0)) with
  | error e =>
    simp only [hparse] at h
    cases h
    exact hterm hparse
  | ok result =>
    obtain ⟨flags, nodes, rest⟩ := result
    rw [hparse] at hreads
    obtain ⟨b, hreads, -⟩ := hreads
    have hle := hreads.length_le
    simp only [Part.least] at hle
    simp only [hparse] at h
    simp only [Parsing.push] at h
    split at h
    · rename_i c rest
      split_ifs at h
      refine ih (fuel + 1) (by omega) .alternatives _ _ true ⟨_, rest⟩ trivial ?_ h
      simp only [List.length_cons] at hle
      simp only [Part.need]
      omega
    · cases h

theorem suffices_fuel (E : Evaluator α γ) (fuel : ℕ) : E.Suffices fuel := by
  induction fuel using Nat.strong_induction_on with
  | _ fuel ih =>
    intro part flagp refs first s hbegins hfuel
    cases fuel with
    | zero =>
      cases part with
      | alternatives => simp only [Part.need] at hfuel; omega
      | sequence => simp only [Part.need] at hfuel; omega
      | factor =>
        have := List.length_pos_of_ne_nil hbegins
        omega
      | primary =>
        have := List.length_pos_of_ne_nil hbegins
        omega
    | succ fuel =>
      cases part with
      | alternatives => exact suffices_alternatives ih flagp refs s hfuel
      | sequence => exact suffices_sequence ih flagp first s hfuel
      | factor => exact suffices_factor ih s hbegins hfuel
      | primary => exact suffices_primary ih s hbegins hfuel

/-! ## The end of the pattern -/

/-- The parser raises an error or accepts, without a look behind the pattern, and an accepted pattern
is read to its end. -/
structure Settled (E : Evaluator α γ) : Prop where
  decided : E.compile ≠ .error .outOfFuel
  within : E.compile ≠ .error .beyondPattern
  consumed : ∀ nodes, E.compile = .ok nodes →
    ∃ b, E.Reads .alternatives E.originalPatternStr b []

/-- The parser keeps to the pattern just if that is not cut off in a set behind its circumflex, or in
bounds whose digits are read from further in front. -/
theorem settled_iff (E : Evaluator α γ) :
    E.Settled ↔ ¬ E.Cut .alternatives E.originalPatternStr := by
  have hexpr : E.parseExpr (6 * E.originalPatternStr.length + 6) ⟨[.opStart], E.originalPatternStr⟩ =
      E.parsePart .alternatives (6 * E.originalPatternStr.length + 5) ⟨true, false⟩ [] true
        ⟨[.opStart], E.originalPatternStr⟩ := rfl
  have houtcome := E.tracks (6 * E.originalPatternStr.length + 5) .alternatives ⟨true, false⟩ [] true
    ⟨[.opStart], E.originalPatternStr⟩ trivial
  have hfuel := E.suffices_fuel (6 * E.originalPatternStr.length + 5) .alternatives ⟨true, false⟩ []
    true ⟨[.opStart], E.originalPatternStr⟩ trivial (by simp only [Part.need]; omega)
  rw [← hexpr] at houtcome hfuel
  constructor
  · intro hsettled hcut
    have hfails := hcut.fails (6 * E.originalPatternStr.length + 5) ⟨true, false⟩ [] true [.opStart]
    rw [← hexpr] at hfails
    refine hsettled.within ?_
    unfold compile
    rw [hfails.resolve_left hfuel]
  · intro hcut
    cases hparse : E.parseExpr (6 * E.originalPatternStr.length + 6)
        ⟨[.opStart], E.originalPatternStr⟩ with
    | error e =>
      have hcompile : E.compile = .error e := by
        unfold compile
        rw [hparse]
      rw [hparse] at houtcome hfuel
      refine ⟨?_, ?_, ?_⟩
      · rw [hcompile]
        rintro h
        cases h
        exact hfuel rfl
      · rw [hcompile]
        rintro h
        cases h
        exact hcut (houtcome rfl)
      · intro nodes h
        rw [hcompile] at h
        cases h
    | ok result =>
      obtain ⟨flags, s⟩ := result
      have hcompile : E.compile =
          if s.patternPos = [] then .ok (s.nodes ++ [.opEnd]) else .error .invalidSimilarPattern := by
        unfold compile
        rw [hparse]
      rw [hparse] at houtcome
      obtain ⟨b, hreads, -⟩ := houtcome
      by_cases hend : s.patternPos = []
      · rw [if_pos hend] at hcompile
        rw [hend] at hreads
        refine ⟨?_, ?_, fun _ _ => ⟨b, hreads⟩⟩
        · rw [hcompile]
          intro h
          cases h
        · rw [hcompile]
          intro h
          cases h
      · rw [if_neg hend] at hcompile
        refine ⟨?_, ?_, ?_⟩
        · rw [hcompile]
          intro h
          cases h
        · rw [hcompile]
          intro h
          cases h
        · intro nodes h
          rw [hcompile] at h
          cases h

end Evaluator

/-- A set that is left open behind its circumflex. -/
def openExclusion : Evaluator Char Char := ⟨utf8, none, "[^".toList⟩

/-- The parser looks for the closing bracket behind the pattern. -/
theorem openExclusion_not_settled : ¬ ∀ E : Evaluator Char Char, E.Settled := by
  intro h
  exact (h openExclusion).within (by decide +kernel)

end FirebirdCore.Similar
