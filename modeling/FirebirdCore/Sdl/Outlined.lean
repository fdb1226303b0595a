import FirebirdCore.Sdl.Outline

/-!
# How the compilation of any bytes ends

The compiler stores the words that the extent of the outline counts, and ends as the extent tells, unless
the buffer has been left before.
-/
namespace FirebirdCore.Sdl

variable {α β : Type} {arg : Option sdl_arg} {n : ℕ} {x y : Extent} {done : α} {done' : β}

/-! ## Outcomes -/

/-- What is returned where the extent is compiled behind `n` words. -/
def Outcome (n : ℕ) (x : Extent) (done : α) (result : Except Failure α) : Prop :=
  if COMPILE_SIZE < n + x.words then ∃ f, result = .error (.fault f)
  else
    match x.ending with
    | .complete => result = .ok done
    | .reported => ∃ e, result = .error (.error e)
    | .unguarded => ∃ f, result = .error (.fault f)

theorem Outcome.bind {result : Except Failure α} {k : α → Except Failure β} (h : Outcome n x done result)
    (hk : x.ending = .complete → n + x.words ≤ COMPILE_SIZE → Outcome (n + x.words) y done' (k done)) :
    Outcome n (x.andThen y) done' (result >>= k) := by
  obtain ⟨m, ending⟩ := x
  unfold Outcome at h
  by_cases hfull : COMPILE_SIZE < n + m
  · rw [if_pos hfull] at h
    obtain ⟨f, rfl⟩ := h
    have hwords : COMPILE_SIZE < n + (Extent.andThen ⟨m, ending⟩ y).words := by
      cases ending with
      | complete =>
        simp only [Extent.andThen]
        omega
      | reported => exact hfull
      | unguarded => exact hfull
    unfold Outcome
    rw [if_pos hwords]
    exact ⟨f, rfl⟩
  · rw [if_neg hfull] at h
    cases ending with
    | complete =>
      subst h
      have hrest := hk rfl (Nat.le_of_not_lt hfull)
      unfold Outcome at hrest ⊢
      simp only [Extent.andThen, ← Nat.add_assoc]
      exact hrest
    | reported =>
      obtain ⟨e, rfl⟩ := h
      rw [Extent.andThen_of_ne (by simp)]
      unfold Outcome
      rw [if_neg hfull]
      exact ⟨e, rfl⟩
    | unguarded =>
      obtain ⟨f, rfl⟩ := h
      rw [Extent.andThen_of_ne (by simp)]
      unfold Outcome
      rw [if_neg hfull]
      exact ⟨f, rfl⟩

theorem Outcome.ok (h : n ≤ COMPILE_SIZE) (done : α) : Outcome n (.stored 0) done (.ok done) := by
  unfold Outcome
  rw [if_neg (by simpa using h)]
  rfl

theorem Outcome.fault (n : ℕ) (done : α) (f : Fault) :
    Outcome n .unguarded done (.error (.fault f)) := by
  unfold Outcome
  split
  · exact ⟨f, rfl⟩
  · exact ⟨f, rfl⟩

theorem Outcome.error (h : n ≤ COMPILE_SIZE) (done : α) (e : SdlError) :
    Outcome n .reported done (.error (.error e)) := by
  unfold Outcome
  rw [if_neg (by simpa [Extent.reported] using h)]
  exact ⟨e, rfl⟩

theorem Extent.andThen_stored_zero (x : Extent) : x.andThen (stored 0) = x := by
  obtain ⟨m, ending⟩ := x
  cases ending <;> rfl

theorem Outcome.map {result : Except Failure α} {k : α → Except Failure β} (h : Outcome n x done result)
    (hk : k done = .ok done') : Outcome n x done' (result >>= k) := by
  have hbind : Outcome n (x.andThen (.stored 0)) done' (result >>= k) := h.bind fun _ hle => by
    rw [hk]
    exact Outcome.ok hle done'
  rw [Extent.andThen_stored_zero] at hbind
  exact hbind

/-- What stores no word does not depend on where it is compiled to. -/
theorem Outcome.move {result : Except Failure α} {m : ℕ} (h : Outcome m x done result) (hwords : x.words = 0)
    (hm : m ≤ COMPILE_SIZE) (hn : n ≤ COMPILE_SIZE) : Outcome n x done result := by
  unfold Outcome at h ⊢
  rw [hwords, Nat.add_zero] at h ⊢
  rw [if_neg (Nat.not_lt.2 hm)] at h
  rw [if_neg (Nat.not_lt.2 hn)]
  exact h

theorem Extent.andThen_assoc (x y z : Extent) : (x.andThen y).andThen z = x.andThen (y.andThen z) := by
  obtain ⟨m, ending⟩ := x
  cases ending with
  | complete =>
    obtain ⟨n, ending⟩ := y
    cases ending with
    | complete => simp [andThen, Nat.add_assoc]
    | reported => rfl
    | unguarded => rfl
  | reported => rfl
  | unguarded => rfl

/-! ## Words -/

def sdl_arg.desc? (arg : Option sdl_arg) : Option InternalArrayDesc := arg.map sdl_arg.sdl_arg_desc

@[simp] theorem desc?_emit (arg : Option sdl_arg) (ws : List ℤ) :
    sdl_arg.desc? (emit arg ws) = sdl_arg.desc? arg := by
  cases arg <;> rfl

theorem place_emit (arg : Option sdl_arg) (ws : List ℤ) :
    place (emit arg ws) = place arg + (words (sdl_arg.desc? arg) ws.length).words := by
  cases arg with
  | none => rfl
  | some a => simp [place, words, sdl_arg.desc?]

theorem place_code {t : Tree} (h : (t.extent (sdl_arg.desc? arg)).ending = .complete) (base : ℕ) :
    place (emit arg (t.code base)) = place arg + (t.extent (sdl_arg.desc? arg)).words := by
  cases arg with
  | none => simp [place, sdl_arg.desc?, Tree.extent_none_words]
  | some a => simp [place, Tree.code_length h, sdl_arg.desc?]

theorem stuff_outcome (value : ℤ) (h : place arg ≤ COMPILE_SIZE) :
    Outcome (place arg) (words (sdl_arg.desc? arg) 1) (emit arg [value]) (stuff value arg) := by
  cases arg with
  | none => exact Outcome.ok h none
  | some a =>
    have hplace : place (some a) = a.sdl_arg_compiled.length := rfl
    have hone : (words (sdl_arg.desc? (some a)) 1).words = 1 := rfl
    rw [hplace] at h ⊢
    unfold Outcome
    rw [hone, stuff]
    split_ifs with hfull hroom hroom
    · exact ⟨.compiled, rfl⟩
    · omega
    · omega
    · rfl

theorem words_andThen (desc : Option InternalArrayDesc) (m n : ℕ) (x : Extent) :
    (words desc (m + n)).andThen x = (words desc m).andThen ((words desc n).andThen x) := by
  cases desc with
  | none => simp [words]
  | some desc => simp [words, Nat.add_assoc]

theorem stuffAll_outcome (values : List ℤ) (h : place arg ≤ COMPILE_SIZE) :
    Outcome (place arg) (words (sdl_arg.desc? arg) values.length) (emit arg values)
      (stuffAll values arg) := by
  induction values generalizing arg with
  | nil =>
    have hnone : words (sdl_arg.desc? arg) 0 = .stored 0 := by simp [words]
    rw [List.length_nil, hnone, emit_nil]
    exact Outcome.ok h arg
  | cons value values ih =>
    have hsplit := words_andThen (sdl_arg.desc? arg) 1 values.length (.stored 0)
    rw [Extent.andThen_stored_zero, Extent.andThen_stored_zero] at hsplit
    rw [List.length_cons, Nat.add_comm, hsplit]
    apply (stuff_outcome value h).bind
    intro _ hle
    have hplace := place_emit arg [value]
    rw [List.length_singleton] at hplace
    rw [← hplace] at hle ⊢
    have hrest := ih hle
    rw [desc?_emit, emit_emit] at hrest
    exact hrest

/-! ## Expressions -/

/-- What the parser reads is compiled as the extent of the tree tells. -/
def Outlines (compile : Compiler) (parse : Parser) : Prop :=
  ∀ p arg, place arg ≤ COMPILE_SIZE →
    Outcome (place arg) ((parse p).1.extent (sdl_arg.desc? arg))
      ((parse p).2, emit arg ((parse p).1.code (place arg))) (compile p arg)

theorem Outlines.dry {compile : Compiler} {parse : Parser} (h : Outlines compile parse)
    (p : List UInt8) (hn : n ≤ COMPILE_SIZE) :
    Outcome n ((parse p).1.extent none) ((parse p).2, none) (compile p none) :=
  Outcome.move (h p none (Nat.zero_le _)) (Tree.extent_none_words _) (Nat.zero_le _) hn

theorem next_outcome (p : List UInt8) : p = [] ∧ next p = .error (.fault .description) ∨
    ∃ byte rest, p = byte :: rest ∧ next p = .ok (byte, rest) := by
  cases p with
  | nil => exact Or.inl ⟨rfl, rfl⟩
  | cons byte rest => exact Or.inr ⟨byte, rest, rfl, rfl⟩

theorem nextBytes_short {bytes : ℕ} {p : List UInt8} (h : p.length < bytes) :
    nextBytes bytes p = .error (.fault .description) := by
  induction bytes generalizing p with
  | zero => exact absurd h (Nat.not_lt_zero _)
  | succ bytes ih =>
    cases p with
    | nil => rfl
    | cons byte p =>
      have hrest := ih (p := p) (by simpa using h)
      simp [nextBytes, next, bind, Except.bind, hrest]

theorem compileLiteral_outcome (bytes : ℕ) (p : List UInt8) (h : place arg ≤ COMPILE_SIZE) :
    Outcome (place arg) ((parseLiteral bytes p).1.extent (sdl_arg.desc? arg))
      ((parseLiteral bytes p).2, emit arg ((parseLiteral bytes p).1.code (place arg)))
      (compileLiteral bytes p arg) := by
  unfold parseLiteral compileLiteral
  split_ifs with hle
  · have hlength : (p.take bytes).length = bytes := List.length_take_of_le hle
    have hbytes := @nextBytes_spec (p.drop bytes) (p.take bytes)
    rw [hlength, List.take_append_drop] at hbytes
    have hliteral : literal (p.take bytes) =
        Int.bmod ((p.take bytes).foldr (fun b n => b.toNat + 256 * n) 0 : ℕ) (256 ^ bytes) := by
      rw [literal, hlength]
    rw [hbytes]
    simp only [bind, Except.bind]
    rw [← hliteral]
    exact (stuffAll_outcome [op_literal, literal (p.take bytes)] h).map rfl
  · rw [nextBytes_short (Nat.lt_of_not_le hle)]
    exact Outcome.fault _ _ _

theorem compileVariable_outcome (p : List UInt8) (h : place arg ≤ COMPILE_SIZE) :
    Outcome (place arg) ((parseVariable p).1.extent (sdl_arg.desc? arg))
      ((parseVariable p).2, emit arg ((parseVariable p).1.code (place arg)))
      (do
        let (variableNumber, p) ← next p
        let arg ← stuffAll [op_variable, (variableNumber.toNat : ℤ)] arg
        return (p, arg)) := by
  cases p with
  | nil => exact Outcome.fault _ _ _
  | cons i p => exact (stuffAll_outcome [op_variable, (i.toNat : ℤ)] h).map rfl

/-- What follows is compiled behind the code of the tree. -/
theorem Outcome.bindTree {t : Tree} {f : Option sdl_arg → α} {result : Except Failure α}
    {k : α → Except Failure β}
    (h : Outcome (place arg) (t.extent (sdl_arg.desc? arg)) (f (emit arg (t.code (place arg)))) result)
    (hk : ∀ arg', arg' = emit arg (t.code (place arg)) → sdl_arg.desc? arg' = sdl_arg.desc? arg →
      place arg' ≤ COMPILE_SIZE → Outcome (place arg') y done' (k (f arg'))) :
    Outcome (place arg) ((t.extent (sdl_arg.desc? arg)).andThen y) done' (result >>= k) := by
  apply h.bind
  intro hcomplete hle
  rw [← place_code hcomplete] at hle ⊢
  exact hk _ rfl (desc?_emit _ _) hle

/-- What follows is compiled behind the words. -/
theorem Outcome.bindWords {m : ℕ} {values : List ℤ} {result : Except Failure (Option sdl_arg)}
    {k : Option sdl_arg → Except Failure β}
    (h : Outcome (place arg) (words (sdl_arg.desc? arg) m) (emit arg values) result)
    (hlength : values.length = m)
    (hk : ∀ arg', arg' = emit arg values → sdl_arg.desc? arg' = sdl_arg.desc? arg →
      place arg' ≤ COMPILE_SIZE → Outcome (place arg') y done' (k arg')) :
    Outcome (place arg) ((words (sdl_arg.desc? arg) m).andThen y) done' (result >>= k) := by
  subst hlength
  apply h.bind
  intro _ hle
  rw [← place_emit] at hle ⊢
  exact hk _ rfl (desc?_emit _ _) hle

theorem compileBinary_outcome {compile : Compiler} {parse : Parser} (hc : Outlines compile parse)
    (o : Operator) (p : List UInt8) (h : place arg ≤ COMPILE_SIZE) :
    Outcome (place arg) ((parseBinary parse o p).1.extent (sdl_arg.desc? arg))
      ((parseBinary parse o p).2, emit arg ((parseBinary parse o p).1.code (place arg)))
      (compileBinary compile o.word p arg) := by
  apply Outcome.bindTree (f := Prod.mk _) (hc p arg h)
  intro arg1 harg1 hdesc1 hle1
  rw [← hdesc1]
  apply Outcome.bindTree (f := Prod.mk _) (hc _ arg1 hle1)
  intro arg2 harg2 hdesc2 hle2
  rw [← hdesc2]
  apply (stuff_outcome o.word hle2).map
  subst harg2 harg1
  cases arg with
  | none => rfl
  | some a => simp [parseBinary, Tree.code, place, pure, Except.pure]

/-! ## Saved expressions -/

/-- Where the expressions begin, the last one first. -/
def starts (parse : Parser) : ℕ → List UInt8 → List (List UInt8)
  | 0, _ => []
  | n + 1, p => starts parse n (parse p).2 ++ [p]

@[simp] theorem starts_length (parse : Parser) (m : ℕ) (p : List UInt8) :
    (starts parse m p).length = m := by
  induction m generalizing p with
  | zero => rfl
  | succ m ih => simp [starts, ih]

theorem Tree.extent_none_comm (s t : Tree) :
    (s.extent none).andThen (t.extent none) = (t.extent none).andThen (s.extent none) := by
  obtain hs | hs := s.extent_none <;> obtain ht | ht := t.extent_none <;> rw [hs, ht] <;> rfl

theorem saveExpressions_room {compile : Compiler} {parse : Parser} (hc : Outlines compile parse)
    {count : ℕ} (saved : List (List UInt8)) (p : List UInt8) (hn : n ≤ COMPILE_SIZE)
    (hroom : saved.length + count ≤ MAX_ARRAY_DIMENSIONS) :
    Outcome n ((parseSaved parse count p).1.extent none)
      ((parseSaved parse count p).2, starts parse count p ++ saved)
      (saveExpressions compile count p saved) := by
  induction count generalizing n p saved with
  | zero => exact Outcome.ok hn _
  | succ count ih =>
    have hstarts : starts parse (count + 1) p ++ saved = starts parse count (parse p).2 ++ p :: saved := by
      simp [starts]
    rw [saveExpressions, if_neg (by omega), hstarts]
    simp only [parseSaved, Tree.extent]
    rw [Tree.extent_none_comm]
    apply (hc.dry p hn).bind
    intro _ hle
    apply ih (p :: saved) (parse p).2 hle
    rw [List.length_cons]
    omega

theorem saveExpressions_full {compile : Compiler} {parse : Parser} (hc : Outlines compile parse)
    {count : ℕ} {saved : List (List UInt8)} (p : List UInt8) (hn : n ≤ COMPILE_SIZE)
    (hsaved : saved.length ≤ MAX_ARRAY_DIMENSIONS) (hfull : MAX_ARRAY_DIMENSIONS < saved.length + count)
    (done : List UInt8 × List (List UInt8)) :
    Outcome n .unguarded done (saveExpressions compile count p saved) := by
  induction count generalizing n p saved with
  | zero => omega
  | succ count ih =>
    rw [saveExpressions]
    split_ifs with hroom
    · exact Outcome.fault _ _ _
    · have hunguarded : ((parse p).1.extent none).andThen .unguarded = .unguarded := by
        obtain h | h := (parse p).1.extent_none <;> rw [h] <;> rfl
      rw [← hunguarded]
      apply (hc.dry p hn).bind
      intro _ hle
      exact ih (parse p).2 hle (by rw [List.length_cons]; omega) (by rw [List.length_cons]; omega)

/-- The expressions are passed over, or there is no room for them. -/
theorem saveExpressions_outcome {compile : Compiler} {parse : Parser} (hc : Outlines compile parse)
    (count : ℕ) (p : List UInt8) (hn : n ≤ COMPILE_SIZE) :
    Outcome n ((savedUnchecked count).andThen ((parseSaved parse count p).1.extent none))
      ((parseSaved parse count p).2, starts parse count p) (saveExpressions compile count p []) := by
  unfold savedUnchecked
  split_ifs with hroom
  · rw [Extent.stored_zero_andThen]
    have hsaved := saveExpressions_room hc [] p hn (by simpa using hroom)
    rw [List.append_nil] at hsaved
    exact hsaved
  · exact saveExpressions_full hc p hn (Nat.zero_le _) (by simpa using hroom) _

theorem compileSaved_append (compile : Compiler) (ps ps' : List (List UInt8)) (arg : Option sdl_arg) :
    compileSaved compile (ps ++ ps') arg = compileSaved compile ps arg >>= compileSaved compile ps' := by
  induction ps generalizing arg with
  | nil => rfl
  | cons p ps ih =>
    rw [List.cons_append, compileSaved, compileSaved]
    cases compile p arg with
    | error failure => rfl
    | ok r => exact ih r.2

/-- The last expression is compiled first. -/
theorem compileSaved_outcome {compile : Compiler} {parse : Parser} (hc : Outlines compile parse)
    (count : ℕ) (p : List UInt8) (h : place arg ≤ COMPILE_SIZE) :
    Outcome (place arg) ((parseSaved parse count p).1.extent (sdl_arg.desc? arg))
      (emit arg ((parseSaved parse count p).1.code (place arg)))
      (compileSaved compile (starts parse count p) arg) := by
  induction count generalizing arg p with
  | zero =>
    simp only [parseSaved, Tree.code, emit_nil]
    exact Outcome.ok h arg
  | succ count ih =>
    rw [starts, compileSaved_append]
    have hrest := ih (parse p).2 h
    apply hrest.bind
    intro hcomplete hle
    rw [← place_code hcomplete] at hle ⊢
    have hfirst := hc p _ hle
    rw [desc?_emit] at hfirst
    apply hfirst.map
    cases arg with
    | none => rfl
    | some a => simp [parseSaved, compileSaved, Tree.code, place]

/-- Expressions that are passed over first, and the words behind their code. -/
theorem compileParts_outcome {compile : Compiler} {parse : Parser} (hc : Outlines compile parse)
    (count : ℕ) (p : List UInt8) (values : List ℤ) (h : place arg ≤ COMPILE_SIZE) :
    Outcome (place arg) ((savedUnchecked count).andThen (((parseSaved parse count p).1.extent none).andThen
        (((parseSaved parse count p).1.extent (sdl_arg.desc? arg)).andThen
          (words (sdl_arg.desc? arg) values.length))))
      ((parseSaved parse count p).2, emit arg ((parseSaved parse count p).1.code (place arg) ++ values))
      (do
        let (p, expr) ← saveExpressions compile count p []
        let arg ← compileSaved compile expr arg
        let arg ← stuffAll values arg
        return (p, arg)) := by
  rw [← Extent.andThen_assoc]
  apply (saveExpressions_outcome hc count p h).bind
  intro _ hle
  have hwords : ((savedUnchecked count).andThen ((parseSaved parse count p).1.extent none)).words = 0 := by
    unfold savedUnchecked
    split_ifs
    · rw [Extent.stored_zero_andThen, Tree.extent_none_words]
    · rfl
  rw [hwords, Nat.add_zero]
  have hsaved := compileSaved_outcome hc count p h
  apply hsaved.bind
  intro hcomplete hle
  rw [← place_code hcomplete] at hle ⊢
  have hvalues := stuffAll_outcome values hle
  rw [desc?_emit, emit_emit] at hvalues
  exact hvalues.map rfl

theorem checkDimensions_outcome (count : ℕ) (h : place arg ≤ COMPILE_SIZE) :
    Outcome (place arg) (subscriptsChecked count (sdl_arg.desc? arg)) () (checkDimensions count arg) := by
  cases arg with
  | none => exact Outcome.ok h ()
  | some a =>
    simp only [checkDimensions, sdl_arg.desc?, Option.map_some, subscriptsChecked]
    by_cases hcount : count = a.sdl_arg_desc.iad_dimensions
    · rw [if_pos hcount, if_neg (not_not.2 hcount)]
      exact Outcome.ok h ()
    · rw [if_neg hcount, if_pos hcount]
      exact Outcome.error h _ _

theorem compileScalar_outcome {compile : Compiler} {parse : Parser} (hc : Outlines compile parse)
    (p : List UInt8) (h : place arg ≤ COMPILE_SIZE) :
    Outcome (place arg) ((parseScalar parse p).1.extent (sdl_arg.desc? arg))
      ((parseScalar parse p).2, emit arg ((parseScalar parse p).1.code (place arg)))
      (compileScalar compile p arg) := by
  match p with
  | [] => exact Outcome.fault _ _ _
  | [_] => exact Outcome.fault _ _ _
  | op :: count :: p =>
    have hparts := compileParts_outcome hc count.toNat p [op_scalar, (op.toNat : ℤ), (count.toNat : ℤ)] h
    apply (checkDimensions_outcome count.toNat h).bind
    intro _ _
    rw [subscriptsChecked_words, Nat.add_zero]
    exact hparts

theorem compileElement_outcome {compile : Compiler} {parse : Parser} (hc : Outlines compile parse)
    (p : List UInt8) (h : place arg ≤ COMPILE_SIZE) :
    Outcome (place arg) ((parseElement parse p).1.extent (sdl_arg.desc? arg))
      ((parseElement parse p).2, emit arg ((parseElement parse p).1.code (place arg)))
      (compileElement compile p arg) := by
  cases p with
  | nil => exact Outcome.fault _ _ _
  | cons count p =>
    have hparts := compileParts_outcome hc count.toNat p [op_element, (count.toNat : ℤ)] h
    have hone : count.toNat = 1 ↔ count = 1 := by
      rw [← UInt8.toNat_inj]
      rfl
    simp only [compileElement, next, parseElement, Tree.extent, Tree.code]
    simp only [bind, Except.bind]
    split_ifs with hbad
    · obtain ⟨hsome, hcount⟩ := hbad
      obtain ⟨a, rfl⟩ := Option.isSome_iff_exists.1 hsome
      simp only [sdl_arg.desc?, Option.map_some, partsChecked, hone, if_neg hcount,
        Extent.reported_andThen]
      exact Outcome.error h _ _
    · have hchecked : partsChecked count.toNat (sdl_arg.desc? arg) = .stored 0 := by
        cases arg with
        | none => rfl
        | some a =>
          have hcount : count = 1 := by simpa using hbad
          simp [sdl_arg.desc?, partsChecked, hcount]
      rw [hchecked, Extent.stored_zero_andThen]
      exact hparts

/-! ## Loops -/

theorem literal_one : literal [1] = 1 := by decide

theorem skipLower_outcome {compile : Compiler} {parse : Parser} (hc : Outlines compile parse)
    (verb : Verb) (p : List UInt8) (hn : n ≤ COMPILE_SIZE) :
    Outcome n ((parseLower parse verb p).1.extent none) (parseLower parse verb p).2
      (skipLower compile verb p) := by
  unfold parseLower skipLower
  split_ifs
  · exact Outcome.ok hn p
  · exact (hc.dry p hn).map rfl

theorem compileIncrement_outcome {compile : Compiler} {parse : Parser} (hc : Outlines compile parse)
    (verb : Verb) (p : List UInt8) (h : place arg ≤ COMPILE_SIZE) :
    Outcome (place arg) ((parseIncrement parse verb p).1.extent (sdl_arg.desc? arg))
      ((parseIncrement parse verb p).2, emit arg ((parseIncrement parse verb p).1.code (place arg)))
      (compileIncrement compile verb p arg) := by
  unfold parseIncrement compileIncrement
  split_ifs
  · exact hc p arg h
  · simp only [Tree.code, literal_one]
    exact (stuffAll_outcome [op_literal, 1] h).map rfl

theorem compileLower_outcome {compile : Compiler} {parse : Parser} (hc : Outlines compile parse)
    (verb : Verb) (p : List UInt8) (h : place arg ≤ COMPILE_SIZE) :
    Outcome (place arg) ((parseLower parse verb p).1.extent (sdl_arg.desc? arg))
      (emit arg ((parseLower parse verb p).1.code (place arg))) (compileLower compile verb p arg) := by
  unfold parseLower compileLower
  split_ifs
  · simp only [Tree.code, literal_one]
    exact stuffAll_outcome [op_literal, 1] h
  · exact (hc p arg h).map rfl

/-- The words of a loop that are stored one by one, with the exit address set in the end. -/
theorem patch_loop {arg1 arg2 arg3 arg4 arg5 arg6 : Option sdl_arg} (i : UInt8)
    (lower upper increment body : Tree) (h1 : arg1 = emit arg (upper.code (place arg)))
    (h2 : arg2 = emit arg1 (increment.code (place arg1))) (h3 : arg3 = emit arg2 (lower.code (place arg2)))
    (h4 : arg4 = emit arg3 [op_loop]) (h5 : arg5 = emit arg4 [op_iterate, (i.toNat : ℤ), 0])
    (h6 : arg6 = emit arg5 (body.code (place arg5))) :
    patch (place arg4) (emit arg6 [op_goto, (place arg4 : ℤ)]) =
      emit arg ((Tree.loop i lower upper increment body).code (place arg)) := by
  cases arg with
  | none =>
    subst h6 h5 h4 h3 h2 h1
    rfl
  | some a =>
    have hbase (ws : List ℤ) : place (emit (some a) ws) = place (some a) + ws.length := by simp [place]
    rw [Tree.code]
    generalize hlast : upper.code (place (some a)) = last at *
    rw [h1, hbase] at h2
    generalize hnext : increment.code (place (some a) + last.length) = next at *
    rw [emit_emit] at h2
    rw [h2, hbase] at h3
    generalize hfirst : lower.code (place (some a) + (last ++ next).length) = first at *
    rw [emit_emit] at h3
    generalize last ++ next ++ first = bounds at *
    rw [h3, emit_emit] at h4
    have hlabel : place arg4 = place (some a) + bounds.length + 1 := by
      rw [h4, hbase, List.length_append, List.length_singleton, Nat.add_assoc]
    generalize place (some a) + bounds.length + 1 = label at *
    have hinner : place arg5 = label + 3 := by
      rw [h5, place_emit, hlabel, h4]
      rfl
    rw [hinner] at h6
    generalize body.code (label + 3) = inner at *
    have hpatch := patch_spec a bounds inner i.toNat label
      (by rw [← hlabel, h4, hbase, List.length_append, List.length_singleton, Nat.add_assoc]; rfl)
    rw [hlabel, h6, h5, h4, emit_emit, emit_emit, emit_emit, ← hpatch]
    simp

theorem compileLoop_outcome {compile : Compiler} {parse : Parser} (hc : Outlines compile parse)
    (verb : Verb) (p : List UInt8) (h : place arg ≤ COMPILE_SIZE) :
    Outcome (place arg) ((parseLoop parse verb p).1.extent (sdl_arg.desc? arg))
      ((parseLoop parse verb p).2, emit arg ((parseLoop parse verb p).1.code (place arg)))
      (compileLoop compile verb p arg) := by
  cases p with
  | nil => exact Outcome.fault _ _ _
  | cons i p =>
    have hskip := skipLower_outcome hc verb p h
    apply hskip.bind
    intro _ hle
    rw [Tree.extent_none_words, Nat.add_zero]
    apply Outcome.bindTree (f := Prod.mk _) (hc _ arg h)
    intro arg1 harg1 hdesc1 hle1
    rw [← hdesc1]
    apply Outcome.bindTree (f := Prod.mk _) (compileIncrement_outcome hc verb _ hle1)
    intro arg2 harg2 hdesc2 hle2
    rw [← hdesc2]
    apply Outcome.bindTree (f := id) (compileLower_outcome hc verb p hle2)
    intro arg3 harg3 hdesc3 hle3
    rw [← hdesc3, words_andThen _ 1 3]
    apply Outcome.bindWords (stuff_outcome op_loop hle3) rfl
    intro arg4 harg4 hdesc4 hle4
    rw [← hdesc4]
    apply Outcome.bindWords (stuffAll_outcome [op_iterate, (i.toNat : ℤ), 0] hle4) rfl
    intro arg5 harg5 hdesc5 hle5
    rw [← hdesc5]
    apply Outcome.bindTree (f := Prod.mk _) (hc _ arg5 hle5)
    intro arg6 harg6 hdesc6 hle6
    rw [← hdesc6]
    apply (stuffAll_outcome [op_goto, (place arg4 : ℤ)] hle6).map
    have hpatch := patch_loop i _ _ _ _ harg1 harg2 harg3 harg4 harg5 harg6
    simp only [pure, Except.pure, hpatch, parseLoop]

/-! ## Descriptions -/

theorem compileVerb_outcome {compile : Compiler} {parse : Parser} (hc : Outlines compile parse)
    (verb : Verb) (p : List UInt8) (h : place arg ≤ COMPILE_SIZE) :
    Outcome (place arg) ((parseVerb parse verb p).1.extent (sdl_arg.desc? arg))
      ((parseVerb parse verb p).2, emit arg ((parseVerb parse verb p).1.code (place arg)))
      (compileVerb compile verb p arg) := by
  cases verb with
  | isc_sdl_variable => exact compileVariable_outcome p h
  | isc_sdl_scalar => exact compileScalar_outcome hc p h
  | isc_sdl_tiny_integer => exact compileLiteral_outcome 1 p h
  | isc_sdl_short_integer => exact compileLiteral_outcome 2 p h
  | isc_sdl_long_integer => exact compileLiteral_outcome 4 p h
  | isc_sdl_add => exact compileBinary_outcome hc .add p h
  | isc_sdl_subtract => exact compileBinary_outcome hc .subtract p h
  | isc_sdl_multiply => exact compileBinary_outcome hc .multiply p h
  | isc_sdl_divide => exact compileBinary_outcome hc .divide p h
  | isc_sdl_do3 => exact compileLoop_outcome hc .isc_sdl_do3 p h
  | isc_sdl_do2 => exact compileLoop_outcome hc .isc_sdl_do2 p h
  | isc_sdl_do1 => exact compileLoop_outcome hc .isc_sdl_do1 p h
  | isc_sdl_element => exact compileElement_outcome hc p h

/-- Any bytes are compiled as the extent of their outline tells. -/
theorem compile_outcome (fuel : ℕ) : Outlines (compile fuel) (parse fuel) := by
  induction fuel with
  | zero =>
    intro p arg h
    exact Outcome.fault _ _ _
  | succ fuel ih =>
    intro p arg h
    cases p with
    | nil => exact Outcome.fault _ _ _
    | cons op p =>
      simp only [parse, compile]
      cases hverb : verb? op with
      | some verb => exact compileVerb_outcome ih verb p h
      | none =>
        cases arg with
        | none => exact Outcome.fault _ _ _
        | some a => exact Outcome.error h _ _

/-- An element and its exit. -/
theorem compileDescription_outcome (desc : InternalArrayDesc) (sdl_length : ℕ) (p : List UInt8) :
    Outcome 0 (((parse p.length p).1.extent (some desc)).andThen (.stored 1))
      ((parse p.length p).2, (parse p.length p).1.code 0 ++ [op_exit])
      (compileDescription desc sdl_length p) := by
  apply Outcome.bindTree (f := Prod.mk _)
    (compile_outcome p.length p (some ⟨desc, sdl_length, []⟩) (Nat.zero_le _))
  intro arg harg hdesc hle
  have hexit := stuff_outcome op_exit hle
  rw [hdesc] at hexit
  apply hexit.map
  subst harg
  rfl

end FirebirdCore.Sdl
