import FirebirdCore.Similar.Meaning

/-!
# What accepted patterns match

A text that the parser accepts stands for a pattern. `match` decides the language of the pattern, if
no sub-pattern that is repeated can be empty and the bounds of the repetitions are read in place.
-/
namespace FirebirdCore.Similar
open scoped Computability

variable {α γ : Type} [DecidableEq γ] {E : Evaluator α γ}

/-! ## The text that is left -/

theorem readEscaped_suffix {rest rest' : List α} {c : α}
    (h : (E.readEscaped rest).toOption = some (c, rest')) : rest' <:+ rest := by
  unfold Evaluator.readEscaped at h
  cases rest with
  | nil => cases h
  | cons x rest =>
    simp only at h
    split_ifs at h
    · cases h
    · cases h
      exact List.suffix_cons ..

theorem rangeText_suffix {c : α} {rest rest' : List α} {e : Element α}
    (h : E.rangeText c rest = some (e, rest')) : rest' <:+ rest := by
  unfold Evaluator.rangeText at h
  cases rest with
  | nil =>
    cases h
    exact List.suffix_rfl
  | cons minus behind =>
    simp only at h
    split_ifs at h
    · cases behind with
      | nil => cases h
      | cons last rest =>
        simp only at h
        split_ifs at h
        · rw [Option.map_eq_some_iff] at h
          obtain ⟨⟨c', rest''⟩, hread, heq⟩ := h
          cases heq
          exact (readEscaped_suffix hread).trans
            ((List.suffix_cons ..).trans (List.suffix_cons ..))
        · cases h
          exact (List.suffix_cons ..).trans (List.suffix_cons ..)
    · cases h
      exact List.suffix_rfl

theorem classText_suffix {rest rest' : List α} {e : Element α}
    (h : E.classText rest = some (e, rest')) : rest' <:+ rest := by
  unfold Evaluator.classText at h
  cases rest with
  | nil => cases h
  | cons c start =>
    simp only at h
    split at h
    · rename_i close rest hcolon hdrop
      split_ifs at h
      rw [Option.map_eq_some_iff] at h
      obtain ⟨entry, -, heq⟩ := h
      cases heq
      have hsuffix : close :: rest' <:+ start := hdrop ▸ List.drop_suffix ..
      exact (List.suffix_cons ..).trans (hsuffix.trans (List.suffix_cons ..))
    · cases h

theorem elementText_suffix {c : α} {rest rest' : List α} {e : Element α}
    (h : E.elementText c rest = some (e, rest')) : rest' <:+ rest := by
  unfold Evaluator.elementText at h
  split_ifs at h
  · cases hread : (E.readEscaped rest).toOption with
    | none => simp [hread] at h
    | some result =>
      simp only [hread] at h
      exact (rangeText_suffix h).trans (readEscaped_suffix hread)
  · exact classText_suffix h
  · exact rangeText_suffix h

theorem setText_suffix {fuel : ℕ} {included : Option (List (Element α))}
    {elements : List (Element α)} {rest rest' : List α} {set : CharSet α}
    (h : E.setText fuel included elements rest = some (set, rest')) : rest' <:+ rest := by
  induction fuel generalizing included elements rest with
  | zero => cases h
  | succ fuel ih =>
    cases rest with
    | nil => cases h
    | cons c rest =>
      unfold Evaluator.setText at h
      simp only at h
      split_ifs at h
      · split at h
        · split_ifs at h
          · cases h
            exact (List.suffix_cons ..).trans (List.suffix_cons ..)
          · exact (ih h).trans (List.suffix_cons ..)
        · cases h
      · split at h
        · rename_i e next behind helement
          have hsuffix := (elementText_suffix helement).trans (List.suffix_cons c rest)
          split_ifs at h
          · cases h
            exact (List.suffix_cons ..).trans hsuffix
          · exact (ih h).trans hsuffix
        · cases h

theorem countsText_suffix {rest rest' : List α} {s1 s2 : List ℕ} {comma : Bool}
    {result : List ℕ × List ℕ × Bool}
    (h : E.countsText rest s1 s2 comma = some (result, rest')) : rest' <:+ rest := by
  induction rest generalizing s1 s2 comma with
  | nil => cases h
  | cons c rest ih =>
    unfold Evaluator.countsText at h
    split_ifs at h
    · cases h
      exact List.suffix_cons ..
    all_goals exact (ih h).trans (List.suffix_cons ..)

theorem boundsText_suffix {rest rest' : List α} {bounds : ℕ × Option ℕ}
    (h : E.boundsText rest = some (bounds, rest')) : rest' <:+ rest := by
  unfold Evaluator.boundsText at h
  cases hcounts : E.countsText rest [] [] false with
  | none => simp [hcounts] at h
  | some result =>
    obtain ⟨⟨s1, s2, comma⟩, rest''⟩ := result
    simp only [hcounts] at h
    split_ifs at h
    all_goals
      cases h
      exact countsText_suffix hcounts

/-! ## Another reading of the bounds -/

omit [DecidableEq γ] in
theorem Pattern.Bounds.imp {P Q : ℕ → Option ℕ → List α → Prop} {p : Pattern α γ}
    (h : p.Bounds P) (himp : ∀ n m start, P n m start → Q n m start) : p.Bounds Q := by
  induction p with
  | seq p q ihp ihq => exact ⟨ihp h.1, ihq h.2⟩
  | alt p q ihp ihq => exact ⟨ihp h.1, ihq h.2⟩
  | star p ih => exact ih h
  | plus p ih => exact ih h
  | opt p ih => exact ih h
  | times p n m start ih => exact ⟨himp _ _ _ h.1, ih h.2⟩
  | _ => trivial

omit [DecidableEq γ] in
theorem Pattern.Bounds.and {P Q : ℕ → Option ℕ → List α → Prop} {p : Pattern α γ}
    (hP : p.Bounds P) (hQ : p.Bounds Q) : p.Bounds fun n m start => P n m start ∧ Q n m start := by
  induction p with
  | seq p q ihp ihq => exact ⟨ihp hP.1 hQ.1, ihq hP.2 hQ.2⟩
  | alt p q ihp ihq => exact ⟨ihp hP.1 hQ.1, ihq hP.2 hQ.2⟩
  | star p ih => exact ih hP hQ
  | plus p ih => exact ih hP hQ
  | opt p ih => exact ih hP hQ
  | times p n m start ih => exact ⟨⟨hP.1, hQ.1⟩, ih hP.2 hQ.2⟩
  | _ => trivial

omit [DecidableEq γ] in
theorem repeatLast_bounds {P : ℕ → Option ℕ → List α → Prop} {Q : Prop}
    {rep : Pattern α γ → Pattern α γ} (hrep : ∀ q, (rep q).Bounds P ↔ Q ∧ q.Bounds P) (plain : Bool)
    (p : Pattern α γ) : (Evaluator.repeatLast plain p rep).Bounds P ↔ Q ∧ p.Bounds P := by
  unfold Evaluator.repeatLast
  split
  · split_ifs
    · simp only [Pattern.Bounds, hrep, true_and, and_true]
    · exact hrep _
  · exact hrep _

omit [DecidableEq γ] in
theorem repeatLast_bounds_iff {P : ℕ → Option ℕ → List α → Prop}
    (rep : Pattern α γ → Pattern α γ) (hrep : ∀ q, (rep q).Bounds P ↔ q.Bounds P) (plain : Bool)
    (p : Pattern α γ) :
    (Evaluator.repeatLast plain p rep).Bounds P ↔ p.Bounds P := by
  have hbounds := repeatLast_bounds (Q := True) (fun q => by simpa using hrep q) plain p
  simpa using hbounds

/-- A text is read to one of its ends. The bounds of its repetitions begin in it, and where both ways
to read them agree, so do the patterns. -/
def Reads {β : Type} (bounds bounds' : Evaluator.BoundsReader α) (pat : β → Pattern α γ)
    (text text' : List α → Option (β × List α)) : Prop :=
  ∀ rest x rest', text rest = some (x, rest') → rest' <:+ rest ∧
    (pat x).Bounds (fun _ _ start => start <:+ rest) ∧
    ((pat x).Bounds (fun _ _ start => bounds start = bounds' start) →
      text' rest = some (x, rest'))

section

variable {bounds bounds' : Evaluator.BoundsReader α}

/-- The operator reads no bounds, or is an opening brace. -/
theorem repText_cases (bounds' : Evaluator.BoundsReader α) {p p' : Pattern α γ} {plain : Bool} {op : α} {rest rest' : List α}
    (h : E.repText bounds p plain op rest = some (p', rest')) :
    (rest' = rest ∧ (∀ P, p'.Bounds P ↔ p.Bounds P) ∧
        E.repText bounds' p plain op rest = some (p', rest')) ∨
      ∃ n m, bounds rest = some ((n, m), rest') ∧ (∀ P, p'.Bounds P ↔ P n m rest ∧ p.Bounds P) ∧
        (bounds rest = bounds' rest → E.repText bounds' p plain op rest = some (p', rest')) := by
  unfold Evaluator.repText at h ⊢
  simp only at h ⊢
  split_ifs at h ⊢ with hstar hplus hquestion
  · rw [Option.filter_eq_some_iff] at h
    obtain ⟨heq, hend⟩ := h
    cases heq
    exact .inl ⟨rfl, fun P => repeatLast_bounds_iff .star (fun q => Iff.rfl) plain p,
      Option.filter_some_pos hend⟩
  · rw [Option.filter_eq_some_iff] at h
    obtain ⟨heq, hend⟩ := h
    cases heq
    exact .inl ⟨rfl, fun P => repeatLast_bounds_iff .plus (fun q => Iff.rfl) plain p,
      Option.filter_some_pos hend⟩
  · rw [Option.filter_eq_some_iff] at h
    obtain ⟨heq, hend⟩ := h
    cases heq
    exact .inl ⟨rfl, fun P => repeatLast_bounds_iff .opt (fun q => Iff.rfl) plain p,
      Option.filter_some_pos hend⟩
  · cases hread : bounds rest with
    | none => simp [hread] at h
    | some result =>
      obtain ⟨⟨n, m⟩, rest''⟩ := result
      rw [hread, Option.map_some, Option.filter_eq_some_iff] at h
      obtain ⟨heq, hend⟩ := h
      cases heq
      refine .inr ⟨n, m, rfl, fun P => repeatLast_bounds (fun q => Iff.rfl) plain p,
        fun hsame => ?_⟩
      rw [← hsame, Option.map_some]
      exact Option.filter_some_pos hend

omit [DecidableEq γ] in
theorem Pattern.Bounds.suffix {p : Pattern α γ} {rest rest' : List α}
    (h : p.Bounds fun _ _ start => start <:+ rest') (hsuffix : rest' <:+ rest) :
    p.Bounds fun _ _ start => start <:+ rest :=
  h.imp fun _ _ _ hstart => hstart.trans hsuffix

variable {fuel : ℕ}

theorem primaryText_reads
    (hexpr : Reads bounds bounds' id (E.exprText bounds fuel) (E.exprText bounds' fuel)) :
    Reads bounds bounds' Prod.fst (E.primaryText bounds (fuel + 1))
      (E.primaryText bounds' (fuel + 1)) := by
  intro rest x rest' h
  cases rest with
  | nil => cases h
  | cons op rest =>
    unfold Evaluator.primaryText at h ⊢
    simp only at h ⊢
    split_ifs at h ⊢
    · cases h
      exact ⟨List.suffix_cons .., trivial, fun _ => rfl⟩
    · cases h
      exact ⟨List.suffix_cons .., trivial, fun _ => rfl⟩
    · obtain ⟨⟨set, tail⟩, hset, heq⟩ := Option.map_eq_some_iff.1 h
      cases heq
      exact ⟨(setText_suffix hset).trans (List.suffix_cons ..), trivial, fun _ => h⟩
    · cases htext : E.exprText bounds fuel rest with
      | none => simp [htext] at h
      | some result =>
        obtain ⟨p, tail⟩ := result
        cases tail with
        | nil => simp [htext] at h
        | cons c tail =>
          obtain ⟨hsuffix, hstarts, hsame⟩ := hexpr _ _ _ htext
          simp only [htext] at h
          split_ifs at h with hclose
          cases h
          have hbehind := hsuffix.trans (List.suffix_cons op rest)
          refine ⟨(List.suffix_cons ..).trans hbehind, hstarts.suffix (List.suffix_cons ..),
            fun hagree => ?_⟩
          simp only [hsame hagree, hclose, if_true]
    · obtain ⟨⟨c, tail⟩, hread, heq⟩ := Option.map_eq_some_iff.1 h
      cases heq
      exact ⟨(readEscaped_suffix hread).trans (List.suffix_cons ..), trivial, fun _ => h⟩
    · cases h
      exact ⟨List.drop_suffix .., trivial, fun _ => rfl⟩

theorem factorText_reads
    (hbounds : ∀ start result rest', bounds start = some (result, rest') → rest' <:+ start)
    (hprimary : Reads bounds bounds' Prod.fst (E.primaryText bounds fuel)
      (E.primaryText bounds' fuel)) :
    Reads bounds bounds' id (E.factorText bounds (fuel + 1)) (E.factorText bounds' (fuel + 1)) := by
  intro rest x rest' h
  unfold Evaluator.factorText at h ⊢
  cases htext : E.primaryText bounds fuel rest with
  | none => simp [htext] at h
  | some result =>
    obtain ⟨⟨p, plain⟩, tail⟩ := result
    obtain ⟨hsuffix, hstarts, hsame⟩ := hprimary _ _ _ htext
    simp only [htext] at h
    cases tail with
    | nil =>
      cases h
      exact ⟨hsuffix, hstarts, fun hagree => by simp only [hsame hagree]⟩
    | cons op tail =>
      have hbehind := (List.suffix_cons op tail).trans hsuffix
      by_cases hrep : E.isRep op
      · simp only [hrep, if_true] at h
        rcases repText_cases bounds' h with ⟨rfl, hiff, hrepText⟩ | ⟨n, m, hread, hiff, hrepText⟩
        · refine ⟨hbehind, (hiff _).2 hstarts, fun hagree => ?_⟩
          simp only [hsame ((hiff _).1 hagree), hrep, if_true, hrepText]
        · refine ⟨(hbounds _ _ _ hread).trans hbehind, (hiff _).2 ⟨hbehind, hstarts⟩,
            fun hagree => ?_⟩
          obtain ⟨hhere, hagree⟩ := (hiff _).1 hagree
          simp only [hsame hagree, hrep, if_true, hrepText hhere]
      · simp only [hrep] at h
        cases h
        exact ⟨hsuffix, hstarts, fun hagree => by simp [hsame hagree, hrep]⟩

theorem factorsText_reads
    (hfactor : Reads bounds bounds' id (E.factorText bounds fuel) (E.factorText bounds' fuel))
    (hfactors : Reads bounds bounds' id (E.factorsText bounds fuel) (E.factorsText bounds' fuel)) :
    Reads bounds bounds' id (E.factorsText bounds (fuel + 1))
      (E.factorsText bounds' (fuel + 1)) := by
  intro rest x rest' h
  unfold Evaluator.factorsText at h ⊢
  cases htext : E.factorText bounds fuel rest with
  | none => simp [htext] at h
  | some result =>
    obtain ⟨p, middle⟩ := result
    obtain ⟨hsuffix, hstarts, hsame⟩ := hfactor _ _ _ htext
    simp only [htext] at h
    split_ifs at h with hstops
    · cases h
      exact ⟨hsuffix, hstarts, fun hagree => by simp only [hsame hagree, hstops, if_true]⟩
    · obtain ⟨⟨q, tail⟩, hnext, heq⟩ := Option.map_eq_some_iff.1 h
      cases heq
      obtain ⟨hsuffix', hstarts', hsame'⟩ := hfactors _ _ _ hnext
      refine ⟨hsuffix'.trans hsuffix, ⟨hstarts, hstarts'.suffix hsuffix⟩, fun hagree => ?_⟩
      simp [hsame hagree.1, hstops, hsame' hagree.2]

theorem termText_reads
    (hfactors : Reads bounds bounds' id (E.factorsText bounds fuel) (E.factorsText bounds' fuel)) :
    Reads bounds bounds' id (E.termText bounds (fuel + 1)) (E.termText bounds' (fuel + 1)) := by
  intro rest x rest' h
  unfold Evaluator.termText at h ⊢
  split_ifs at h ⊢
  · cases h
    exact ⟨List.suffix_rfl, trivial, fun _ => rfl⟩
  · exact hfactors _ _ _ h

theorem branchesText_reads
    (hterm : Reads bounds bounds' id (E.termText bounds fuel) (E.termText bounds' fuel))
    (hbranches : Reads bounds bounds' id (E.branchesText bounds fuel)
      (E.branchesText bounds' fuel)) :
    Reads bounds bounds' id (E.branchesText bounds (fuel + 1))
      (E.branchesText bounds' (fuel + 1)) := by
  intro rest x rest' h
  unfold Evaluator.branchesText at h ⊢
  cases htext : E.termText bounds fuel rest with
  | none => simp [htext] at h
  | some result =>
    obtain ⟨p, middle⟩ := result
    obtain ⟨hsuffix, hstarts, hsame⟩ := hterm _ _ _ htext
    simp only [htext] at h
    cases middle with
    | nil =>
      cases h
      exact ⟨hsuffix, hstarts, fun hagree => by simp only [hsame hagree]⟩
    | cons c middle =>
      have hbehind := (List.suffix_cons c middle).trans hsuffix
      by_cases hbar : E.is c .verticalBar
      · simp only [hbar, if_true] at h
        obtain ⟨⟨q, tail⟩, hnext, heq⟩ := Option.map_eq_some_iff.1 h
        cases heq
        obtain ⟨hsuffix', hstarts', hsame'⟩ := hbranches _ _ _ hnext
        refine ⟨hsuffix'.trans hbehind, ⟨hstarts, hstarts'.suffix hbehind⟩, fun hagree => ?_⟩
        simp [hsame hagree.1, hbar, hsame' hagree.2]
      · simp only [hbar] at h
        cases h
        exact ⟨hsuffix, hstarts, fun hagree => by simp [hsame hagree, hbar]⟩

/-- All parts of the grammar read alike: each turns to the others with less fuel. -/
theorem text_reads
    (hbounds : ∀ start result rest', bounds start = some (result, rest') → rest' <:+ start)
    (E : Evaluator α γ) (bounds' : Evaluator.BoundsReader α) (fuel : ℕ) :
    Reads bounds bounds' id (E.exprText bounds fuel) (E.exprText bounds' fuel) ∧
      Reads bounds bounds' id (E.branchesText bounds fuel) (E.branchesText bounds' fuel) ∧
      Reads bounds bounds' id (E.termText bounds fuel) (E.termText bounds' fuel) ∧
      Reads bounds bounds' id (E.factorsText bounds fuel) (E.factorsText bounds' fuel) ∧
      Reads bounds bounds' id (E.factorText bounds fuel) (E.factorText bounds' fuel) ∧
      Reads bounds bounds' Prod.fst (E.primaryText bounds fuel) (E.primaryText bounds' fuel) := by
  induction fuel with
  | zero =>
    refine ⟨?_, ?_, ?_, ?_, ?_, ?_⟩ <;>
      · intro rest x rest' h
        cases h
  | succ fuel ih =>
    obtain ⟨hexpr, hbranches, hterm, hfactors, hfactor, hprimary⟩ := ih
    exact ⟨hbranches, branchesText_reads hterm hbranches, termText_reads hfactors,
      factorsText_reads hfactor hfactors, factorText_reads hbounds hprimary,
      primaryText_reads hexpr⟩

end

/-! ## Accepted patterns -/

/-- A text that is accepted stands for a pattern, with the bounds that the parser reads. -/
theorem compile_readPattern {nodes : List (Node α γ)} (h : E.compile = .ok nodes) :
    ∃ p f b, E.readPattern E.boundsRead = some p ∧ nodes = .opStart :: f ++ [.opEnd] ∧
      Compiled E.textType p b f := by
  unfold Evaluator.compile at h
  unfold Evaluator.readPattern
  cases hparse : E.parseExpr (6 * E.originalPatternStr.length + 6)
      ⟨[.opStart], E.originalPatternStr⟩ with
  | error e => simp [hparse] at h
  | ok result =>
    obtain ⟨flags, s⟩ := result
    obtain ⟨p, f, htext, hnodes, hcompiled⟩ := (follows E _).1 _ _ _ hparse
    simp only [hparse] at h htext
    split_ifs at h with hend
    cases h
    exact ⟨p, f, flags.notEmpty, by rw [htext, hend], by simp [hnodes], hcompiled⟩

/-- The pattern is read alike if each repetition finds its bounds in place. -/
theorem readPattern_boundsRead {p : Pattern α γ} (h : E.pattern = some p)
    (hin : p.Bounds fun _ _ start => E.InPlace start) : E.readPattern E.boundsRead = some p := by
  unfold Evaluator.pattern Evaluator.readPattern at h
  unfold Evaluator.readPattern
  split at h
  · rename_i q htext
    cases h
    obtain ⟨-, hstarts, hsame⟩ :=
      (text_reads (fun _ _ _ h => boundsText_suffix h) E E.boundsRead _).1 _ _ _ htext
    have hagree : p.Bounds fun _ _ start => E.boundsText start = E.boundsRead start :=
      (hstarts.and hin).imp fun _ _ _ hstart => (boundsRead_inPlace hstart.1 hstart.2).symm
    rw [hsame hagree]
  · cases h

theorem matchNodes_unique {T : TextType α γ} {nodes : List (Node α γ)} {buffer : List α}
    {fuel fuel' : ℕ} {matched matched' : Bool} (h : matchNodes T nodes buffer fuel = some matched)
    (h' : matchNodes T nodes buffer fuel' = some matched') : matched = matched' := by
  unfold matchNodes at h h'
  have hmax := loop_mono h (Nat.le_max_left fuel fuel')
  have hmax' := loop_mono h' (Nat.le_max_right fuel fuel')
  rw [hmax] at hmax'
  exact Option.some.inj hmax'

/-- What a match returns, for any number of turns that is enough. -/
theorem matchNodes_result {T : TextType α γ} {f : List (Node α γ)} {L : Language α}
    (hf : Implements T f L) (buffer : List α) :
    (∃ fuel, (matchNodes T (.opStart :: f ++ [.opEnd]) buffer fuel).isSome) ∧
      ∀ fuel matched, matchNodes T (.opStart :: f ++ [.opEnd]) buffer fuel = some matched →
        (matched = true ↔ buffer ∈ L) := by
  obtain ⟨fuel, matched, hmatch, hiff⟩ := matchNodes_iff hf buffer
  refine ⟨⟨fuel, by rw [hmatch]; rfl⟩, fun fuel' matched' hmatch' => ?_⟩
  rw [matchNodes_unique hmatch' hmatch]
  exact hiff

omit [DecidableEq γ] in
theorem Pattern.Repeated.imp {P Q : Pattern α γ → Prop} {R : ℕ → Option ℕ → List α → Prop}
    {p : Pattern α γ} (h : p.Repeated P) (hR : p.Bounds R)
    (himp : ∀ q, q.Bounds R → P q → Q q) : p.Repeated Q := by
  induction p with
  | seq p q ihp ihq => exact ⟨ihp h.1 hR.1, ihq h.2 hR.2⟩
  | alt p q ihp ihq => exact ⟨ihp h.1 hR.1, ihq h.2 hR.2⟩
  | star p ih => exact ⟨himp p hR h.1, ih h.2 hR⟩
  | plus p ih => exact ⟨himp p hR h.1, ih h.2 hR⟩
  | opt p ih => exact ih h hR
  | times p n m start ih => exact ⟨himp p hR.2 h.1, ih h.2 hR.2⟩
  | _ => trivial

omit [DecidableEq γ] in
theorem Pattern.Repeated.mp {P Q : Pattern α γ → Prop} {p : Pattern α γ} (hP : p.Repeated P)
    (hQ : p.Repeated fun q => P q → Q q) : p.Repeated Q := by
  induction p with
  | seq p q ihp ihq => exact ⟨ihp hP.1 hQ.1, ihq hP.2 hQ.2⟩
  | alt p q ihp ihq => exact ⟨ihp hP.1 hQ.1, ihq hP.2 hQ.2⟩
  | star p ih => exact ⟨hQ.1 hP.1, ih hP.2 hQ.2⟩
  | plus p ih => exact ⟨hQ.1 hP.1, ih hP.2 hQ.2⟩
  | opt p ih => exact ih hP hQ
  | times p n m start ih => exact ⟨hQ.1 hP.1, ih hP.2 hQ.2⟩
  | _ => trivial

/-- A pattern without the flag matches the empty string, if no lower bound is above its upper one. -/
theorem Pattern.notEmpty_of_nil_notMem (T : TextType α γ) {p : Pattern α γ}
    (hordered : p.Bounds fun n m _ => ∀ bound ∈ m, n ≤ bound) (h : [] ∉ p.language T) :
    p.notEmpty = true := by
  induction p with
  | nothing => exact absurd (Language.nil_mem_one) h
  | any => rfl
  | percent => exact absurd trivial h
  | anyOf set => rfl
  | exactly str =>
    simp only [Pattern.notEmpty, decide_eq_true_iff]
    rintro rfl
    exact h rfl
  | seq p q ihp ihq =>
    simp only [Pattern.notEmpty, Bool.or_eq_true]
    by_contra hno
    rw [not_or] at hno
    have hp : [] ∈ p.language T := by
      by_contra hp
      exact hno.1 (ihp hordered.1 hp)
    have hq : [] ∈ q.language T := by
      by_contra hq
      exact hno.2 (ihq hordered.2 hq)
    exact h (Language.append_mem_mul hp hq)
  | alt p q ihp ihq =>
    simp only [Pattern.notEmpty, Bool.and_eq_true]
    exact ⟨ihp hordered.1 fun hp => h (.inl hp), ihq hordered.2 fun hq => h (.inr hq)⟩
  | star p ih => exact absurd (Language.nil_mem_kstar _) h
  | plus p ih =>
    refine ih hordered fun hp => h ?_
    exact Language.append_mem_mul hp (Language.nil_mem_kstar _)
  | opt p ih => exact absurd (.inl (Language.nil_mem_one)) h
  | times p n m start ih =>
    simp only [Pattern.notEmpty, Bool.and_eq_true, decide_eq_true_iff]
    have hpow : ∀ k, [] ∈ p.language T → [] ∈ p.language T ^ k := by
      intro k hp
      induction k with
      | zero => exact Language.nil_mem_one
      | succ k ihk =>
        rw [pow_succ]
        exact Language.append_mem_mul ihk hp
    constructor
    · rintro rfl
      exact h ⟨0, le_rfl, fun bound _ => Nat.zero_le bound, Language.nil_mem_one⟩
    · exact ih hordered.2 fun hp => h ⟨n, le_rfl, hordered.1, hpow n hp⟩

/-- The text is accepted and stands for the pattern, the bounds of whose repetitions are read in place
and whose flags are right. -/
structure Evaluator.Sound (E : Evaluator α γ) (p : Pattern α γ) : Prop where
  accepted : ∃ nodes, E.compile = .ok nodes
  pattern : E.pattern = some p
  inPlace : p.Bounds fun _ _ start => E.InPlace start
  flags : p.Repeated fun q => q.flag = true → q.notEmpty = true

/-! ## UTF-8 -/

def utf8Char : Special → Char
  | .asterisk => '*'
  | .circumflex => '^'
  | .colon => ':'
  | .comma => ','
  | .minus => '-'
  | .percent => '%'
  | .plus => '+'
  | .questionMark => '?'
  | .underline => '_'
  | .verticalBar => '|'
  | .doubleQuote => '"'
  | .openBrace => '\x7b'
  | .closeBrace => '\x7d'
  | .openBracket => '['
  | .closeBracket => ']'
  | .openParen => '('
  | .closeParen => ')'

def utf8Letters : Letters → List Char
  | .upperLetters => "ABCDEFGHIJKLMNOPQRSTUVWXYZ".toList
  | .lowerLetters => "abcdefghijklmnopqrstuvwxyz".toList
  | .numbers => "0123456789".toList
  | .space => [' ']
  | .whiteSpaces => ['\t', '\x0b', '\r', '\n', '\x0c', ' ']

/-- The characters of Unicode in UTF-8, ordered by their numbers. -/
def utf8 : TextType Char Char where
  canonical := id
  canonicalChar := utf8Char
  canonicalLetters := utf8Letters
  compare a b := (a.toNat : ℤ) - b.toNat
  bytes := String.utf8EncodeChar
  unicode := Char.toNat
  upperCase name := String.ofList (name.map Char.toUpper)
  readOneChar bytes :=
    (ByteArray.utf8DecodeChar? bytes.toByteArray 0).map fun c => (c.utf8Size, c.toNat)
  canonicalChar_injective := by
    intro x y h
    cases x <;> cases y <;> first | rfl | exact absurd h (by decide)
  canonicalLetters_ne_nil := by
    intro table
    cases table <;> decide
  bytes_ne_nil := by
    intro c hnil
    have hsize := congrArg List.length hnil
    rw [String.length_utf8EncodeChar] at hsize
    exact absurd hsize (Nat.ne_of_gt (Char.utf8Size_pos c))
  readOneChar_bytes := by
    intro c rest
    rw [List.toByteArray_append, ByteArray.utf8DecodeChar?_utf8EncodeChar_append,
      String.length_utf8EncodeChar]
    rfl

/-! ## Termination -/

/-- Each sub-pattern that is repeated is known not to be empty, and `match` returns for every string,
just if no flag of a repeated sub-pattern is that of the last one of several alternatives only. -/
theorem match_terminates_iff (E : Evaluator α γ) {nodes : List (Node α γ)}
    (h : E.compile = .ok nodes) :
    ∃ p : Pattern α γ, E.readPattern E.boundsRead = some p ∧
      (((∀ buffer, ∃ fuel, (matchNodes E.textType nodes buffer fuel).isSome) ∧
          p.Repeated fun q => [] ∉ q.language E.textType) ↔
        p.Repeated fun q => q.flag = true → q.notEmpty = true) := by
  obtain ⟨p, f, b, hread, rfl, hcompiled⟩ := compile_readPattern h
  refine ⟨p, hread, ?_, fun hflags => ?_⟩
  · rintro ⟨-, hempty⟩
    exact hempty.imp hcompiled.ordered fun q hordered hq _ =>
      Pattern.notEmpty_of_nil_notMem E.textType hordered hq
  · have hrepeated := hcompiled.repeated.mp hflags
    refine ⟨fun buffer => (matchNodes_result (hcompiled.implements hrepeated) buffer).1, ?_⟩
    exact hrepeated.imp hcompiled.ordered fun q _ hq => Pattern.nil_notMem_language E.textType hq

/-! ## Alternatives of which one can be empty -/

/-- An alternation with an empty branch in front of one that is not is repeated. -/
def emptyBranch : Evaluator Char Char := ⟨utf8, none, "(|a)*".toList⟩

def emptyBranchNodes : List (Node Char Char) :=
  [.opStart, .opBranch 0, .opBranch 8, .opBranch 3, .opNothing, .opRef 4, .opBranch 0,
    .opExactlyOne 'a', .opRef 1, .opRef (-7), .opBranch 0, .opRef 1, .opEnd]

theorem emptyBranch_compile : emptyBranch.compile = .ok emptyBranchNodes := by decide +kernel

/-- From the head of the loop it comes back there, with more scopes. -/
theorem emptyBranch_loops (fuel : ℕ) (save : Option (List Char)) (below : List (Scope Char)) :
    Config.loop utf8 emptyBranchNodes [] fuel ⟨⟨.node 2, save⟩ :: below, .iterating, [], [], 0⟩ =
      none := by
  induction fuel using Nat.strong_induction_on generalizing save below with
  | _ fuel ih =>
    obtain hlt | ⟨n, rfl⟩ : fuel < 5 ∨ ∃ n, fuel = n + 5 := by
      by_cases h : fuel < 5
      · exact .inl h
      · exact .inr ⟨fuel - 5, by omega⟩
    · interval_cases fuel <;> rfl
    · exact ih n (by omega) none _

theorem emptyBranch_diverges : ¬ ∀ (E : Evaluator Char Char) (nodes : List (Node Char Char)),
    E.compile = .ok nodes → ∀ buffer, ∃ fuel, (matchNodes E.textType nodes buffer fuel).isSome := by
  intro h
  obtain ⟨fuel, hfuel⟩ := h emptyBranch emptyBranchNodes emptyBranch_compile []
  have hnone : matchNodes utf8 emptyBranchNodes [] fuel = none := by
    rcases fuel with _ | _ | fuel
    · rfl
    · rfl
    · exact emptyBranch_loops fuel _ _
  change (matchNodes utf8 emptyBranchNodes [] fuel).isSome = true at hfuel
  rw [hnone] at hfuel
  cases hfuel

theorem match_terminates_iff_emptyBranch :
    ∃ p : Pattern Char Char, emptyBranch.readPattern emptyBranch.boundsRead = some p ∧
      (((∀ buffer, ∃ fuel, (matchNodes utf8 emptyBranchNodes buffer fuel).isSome) ∧
          p.Repeated fun q => [] ∉ q.language utf8) ↔
        p.Repeated fun q => q.flag = true → q.notEmpty = true) :=
  match_terminates_iff emptyBranch emptyBranch_compile

/-! ## The language -/

/-- `match` decides the language of the pattern, if the bounds of its repetitions are read in place and
no flag of a repeated sub-pattern is that of the last one of several alternatives only. -/
theorem match_iff_mem_language (E : Evaluator α γ) {nodes : List (Node α γ)} {p : Pattern α γ}
    (h : E.compile = .ok nodes) (hp : E.pattern = some p)
    (hin : p.Bounds fun _ _ start => E.InPlace start)
    (hflags : p.Repeated fun q => q.flag = true → q.notEmpty = true) (buffer : List α) :
    (∃ fuel, (matchNodes E.textType nodes buffer fuel).isSome) ∧
      ∀ fuel matched, matchNodes E.textType nodes buffer fuel = some matched →
        (matched = true ↔ buffer ∈ p.language E.textType) := by
  obtain ⟨p', f, b, hread, rfl, hcompiled⟩ := compile_readPattern h
  rw [readPattern_boundsRead hp hin] at hread
  cases hread
  exact matchNodes_result (hcompiled.implements (hcompiled.repeated.mp hflags)) buffer

/-- Between two and three of two letters, and whatever follows. -/
def twoLetters : Evaluator Char Char := ⟨utf8, none, "(a|b)\x7b2,3\x7d%".toList⟩

def twoLettersNodes : List (Node Char Char) := twoLetters.compile.toOption.getD []

def twoLettersPattern : Pattern Char Char :=
  .seq (.times (.alt (.exactly ['a']) (.exactly ['b'])) 2 (some 3) "2,3\x7d%".toList) .percent

theorem match_iff_mem_language_twoLetters :
    (∃ fuel, (matchNodes utf8 twoLettersNodes "abc".toList fuel).isSome) ∧
      ∀ fuel matched, matchNodes utf8 twoLettersNodes "abc".toList fuel = some matched →
        (matched = true ↔ "abc".toList ∈ twoLettersPattern.language utf8) := by
  have hcompile : twoLetters.compile = .ok twoLettersNodes := by decide +kernel
  have hpattern : twoLetters.pattern = some twoLettersPattern := by decide +kernel
  apply match_iff_mem_language twoLetters hcompile hpattern
  · refine ⟨?_, trivial⟩
    refine ⟨?_, trivial, trivial⟩
    intro c hc first hfirst
    cases hc
    cases hfirst
    decide +kernel
  · exact ⟨⟨fun _ => by decide, trivial, trivial⟩, trivial⟩

/-- The first character takes three bytes, those of the bounds take one. -/
def misplacedBounds : Evaluator Char Char := ⟨utf8, none, "€5\x7b2\x7d".toList⟩

def misplacedBoundsNodes : List (Node Char Char) :=
  [.opStart, .opBranch 0, .opExactly ['€'], .opRepeatingRefStart 5 2, .opExactlyOne '5',
    .opRepeatingRefEnd (-2), .opRef 1, .opEnd]

theorem misplacedBounds_differ :
    ¬ ∀ (E : Evaluator Char Char) (nodes : List (Node Char Char)) (p : Pattern Char Char),
      E.compile = .ok nodes → E.pattern = some p → ∀ buffer,
        (∃ fuel, (matchNodes E.textType nodes buffer fuel).isSome) ∧
          ∀ fuel matched, matchNodes E.textType nodes buffer fuel = some matched →
            (matched = true ↔ buffer ∈ p.language E.textType) := by
  intro h
  have hcompile : misplacedBounds.compile = .ok misplacedBoundsNodes := by decide +kernel
  have hpattern : misplacedBounds.pattern = some (.seq (.exactly ['€'])
      (.times (.exactly ['5']) 2 (some 2) ['2', '\x7d'])) := by decide +kernel
  have hmatch : matchNodes utf8 misplacedBoundsNodes "€55".toList 50 = some false := by
    decide +kernel
  obtain ⟨-, hresult⟩ := h misplacedBounds _ _ hcompile hpattern "€55".toList
  have hmem : "€55".toList ∈ (Pattern.seq (.exactly ['€'])
      (.times (.exactly ['5']) 2 (some 2) ['2', '\x7d']) : Pattern Char Char).language utf8 := by
    refine Language.append_mem_mul (a := ['€']) (b := ['5', '5']) rfl ?_
    refine ⟨2, le_rfl, by simp, ?_⟩
    rw [pow_two]
    exact Language.append_mem_mul (a := ['5']) (b := ['5']) rfl rfl
  exact absurd ((hresult 50 false hmatch).2 hmem) (by decide)

end FirebirdCore.Similar
