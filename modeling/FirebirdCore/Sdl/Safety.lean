import FirebirdCore.Sdl.Tracking

/-!
# Which slice descriptions do no harm

A walk ends without a fault exactly if the outlines of its elements fit, and their readings end.
-/
namespace FirebirdCore.Sdl

open Lib.Machine

variable {w : Walk} {s : State} {rounds steps : ℕ} {vars : List ℤ} {argument : array_slice}

/-! ## Readings do not exit -/

def NoExit (result : State × Status) : Prop := result.2 ≠ .stopped .exit

theorem NoExit.after {result : State × Status} {k : State → State × Status} (h : NoExit result)
    (hk : ∀ s, NoExit (k s)) : NoExit (after result k) := by
  match result, h with
  | (s, .finished), _ => exact hk s
  | (s, .stopped stop), h => exact h
  | (s, .unfinished), h => exact h

theorem noExit_fault (f : Fault) (s : State) : NoExit (once (fault f s)) := by
  unfold NoExit
  simp [once, fault]

theorem noExit_push (value : ℤ) (s : State) : NoExit (once (push value s)) := by
  unfold NoExit push
  split_ifs <;> simp [once, fault]

theorem noExit_arithmetic (o : Operator) (s : State) : NoExit (once (arithmetic o s)) := by
  unfold NoExit arithmetic
  split
  · split <;> simp [once, fault]
  · simp [once, fault]

theorem subscripts_ne_exit (ranges : List iad_repeat) (stack : List ℤ) (x : ℤ) :
    subscripts ranges stack x ≠ .error .exit := by
  induction ranges generalizing stack x with
  | nil => simp [subscripts]
  | cons range ranges ih =>
    cases stack with
    | nil => simp [subscripts]
    | cons n stack =>
      rw [subscripts]
      split_ifs
      · simp
      · exact ih _ _

theorem noExit_executeScalar (value : ℤ) (s : State) : NoExit (once (executeScalar w value s)) := by
  unfold NoExit executeScalar
  split_ifs
  · simp [once, fault]
  · have hne := subscripts_ne_exit (w.sdl_arg_desc.iad_rpt.take w.sdl_arg_desc.iad_dimensions) s.stack 0
    split
    · rename_i stop hstop
      rw [hstop] at hne
      simpa [once] using hne
    · split <;> simp [once, fault]

theorem noExit_executeElement (count : ℤ) (s : State) : NoExit (once (executeElement w count s)) := by
  unfold NoExit executeElement
  split
  · simp [once, fault]
  · dsimp only
    split <;> simp [once]

theorem NoExit.bounded {i : ℕ} {value : ℤ} {round : State × Status} (h : NoExit round) (s : State) :
    NoExit (bounded i value s round) := by
  unfold Sdl.bounded
  split
  · split_ifs
    · simp [NoExit]
    · exact h
  · exact noExit_fault _ s

theorem noExit_readRounds {body : State → State × Status} (h : ∀ s, NoExit (body s)) (i n : ℕ) (value : ℤ)
    (s : State) : NoExit (readRounds body i n value s) := by
  induction n generalizing value s with
  | zero => simp [NoExit, readRounds]
  | succ n ih =>
    rw [readRounds]
    apply NoExit.bounded
    apply (h _).after
    intro s
    split
    · exact ih _ s
    · exact noExit_fault _ s
    · exact noExit_fault _ s

theorem noExit_read (t : Tree) (s : State) : NoExit (t.read w rounds s) := by
  induction t generalizing s with
  | missing => exact noExit_fault _ s
  | unknown => exact noExit_fault _ s
  | literal bytes => exact noExit_push _ s
  | var i =>
    rw [Tree.read]
    split
    · exact noExit_fault _ s
    · exact noExit_push _ s
  | binary o x y ihx ihy => exact (ihx s).after fun s => (ihy s).after fun s => noExit_arithmetic o s
  | nothing => simp [NoExit, Tree.read]
  | saved x rest ihx ihrest => exact (ihrest s).after ihx
  | scalar value count subscripts ih => exact (ih s).after fun s => noExit_executeScalar _ s
  | element count parts ih => exact (ih s).after fun s => noExit_executeElement _ s
  | loop i lower upper increment body ihl ihu ihi ihb =>
    apply (ihu s).after
    intro s
    apply (ihi s).after
    intro s
    apply (ihl s).after
    intro s
    unfold readEntry
    split
    · exact noExit_fault _ s
    · split_ifs
      · exact noExit_readRounds ihb _ _ _ _
      · exact noExit_fault _ s

/-! ## Executions -/

theorem execute_mono {r : Walked} (h : execute w steps vars argument = some r) {steps' : ℕ}
    (hle : steps ≤ steps') : execute w steps' vars argument = some r := by
  unfold execute at h ⊢
  cases hrun : run (step w) steps (entered vars argument) with
  | ok s =>
    rw [hrun] at h
    cases h
  | error t =>
    rw [run_of_error hrun hle]
    rw [hrun] at h
    exact h

theorem execute_error {r : Walked} (h : execute w steps vars argument = some r) :
    ∃ t, run (step w) steps (entered vars argument) = .error t := by
  unfold execute at h
  cases hrun : run (step w) steps (entered vars argument) with
  | ok s =>
    rw [hrun] at h
    cases h
  | error t => exact ⟨t, rfl⟩

/-- What is returned once the code has halted. -/
def Stop.walked : Stop × State → Walked
  | (.exit, s) => .ok (s.sdl_arg_variables, s.argument)
  | (stop, _) => .error stop

theorem execute_of_halts {t : Stop × State} (h : Halts (step w) (entered vars argument) t) :
    ∃ steps, execute w steps vars argument = some (Stop.walked t) := by
  obtain ⟨n, hrun⟩ := h
  refine ⟨n, ?_⟩
  unfold execute
  rw [hrun]
  obtain ⟨stop, s⟩ := t
  cases stop <;> rfl

theorem execute_unique {r : Walked} {t : Stop × State} (h : execute w steps vars argument = some r)
    (ht : Halts (step w) (entered vars argument) t) : r = Stop.walked t := by
  obtain ⟨steps', h'⟩ := execute_of_halts ht
  have hr := execute_mono h (Nat.le_max_left steps steps')
  rw [execute_mono h' (Nat.le_max_right steps steps')] at hr
  exact (Option.some.inj hr).symm

theorem walkClauses_mono {sdl_length fuel : ℕ} {p : List UInt8} {r : Walked}
    (h : walkClauses w sdl_length steps fuel p vars argument = some r) {steps' : ℕ} (hle : steps ≤ steps') :
    walkClauses w sdl_length steps' fuel p vars argument = some r := by
  induction fuel generalizing p vars argument with
  | zero => exact h
  | succ fuel ih =>
    cases p with
    | nil => exact h
    | cons op p =>
      rw [walkClauses] at h ⊢
      split_ifs at h ⊢
      · exact h
      · cases hskip : skipHeader sdl_length op p with
        | error failure =>
          rw [hskip] at h
          exact h
        | ok p =>
          rw [hskip] at h
          exact ih h
      · cases hcompile : compileDescription w.sdl_arg_desc sdl_length (op :: p) with
        | error failure =>
          rw [hcompile] at h
          exact h
        | ok result =>
          obtain ⟨p', code⟩ := result
          rw [hcompile] at h
          dsimp only at h ⊢
          cases hexecute : execute { w with sdl_arg_compiled := code } steps vars argument with
          | none =>
            rw [hexecute] at h
            cases h
          | some walked =>
            rw [execute_mono hexecute hle]
            rw [hexecute] at h
            cases walked with
            | error stop => exact h
            | ok r => exact ih h

/-! ## Safety -/

/-- The walk reports an error or completes. -/
def Safe (w : Walk) (sdl : List UInt8) (vars : List ℤ) (argument : array_slice) : Prop :=
  ∃ steps result, SDL_walk w steps sdl vars argument = some result ∧ ∀ f, result ≠ .error (.fault f)

/-- The clauses up to the first that reports an error. Bytes that are passed over have to be outlines of
expressions, where the code and the saved expressions have to fit. The reading of each element has to end,
without a fault. -/
def Harmless (w : Walk) (sdl_length : ℕ) : ℕ → List UInt8 → List ℤ → array_slice → Prop
  | 0, _, _, _ => False
  | _ + 1, [], _, _ => False
  | fuel + 1, op :: p, vars, argument =>
      if op = isc_sdl_eoc then True
      else if op ∈ headers then
        match skipHeader sdl_length op p with
        | .error (.error _) => True
        | .error (.fault _) => False
        | .ok p => Harmless w sdl_length fuel p vars argument
      else
        let outline := parse (op :: p).length (op :: p)
        let extent := outline.1.extent (some w.sdl_arg_desc)
        match extent.ending with
        | .unguarded => False
        | .reported => extent.words ≤ COMPILE_SIZE
        | .complete =>
            extent.words + 1 ≤ COMPILE_SIZE ∧ ∃ rounds,
              match outline.1.read w rounds (entered vars argument) with
              | (s, .finished) => Harmless w sdl_length fuel outline.2 s.sdl_arg_variables s.argument
              | (_, .stopped stop) => ∀ f, stop ≠ .fault f
              | (_, .unfinished) => False

theorem compileDescription_complete {desc : InternalArrayDesc} {p : List UInt8}
    (h : ((parse p.length p).1.extent (some desc)).ending = .complete) (sdl_length : ℕ) :
    if ((parse p.length p).1.extent (some desc)).words + 1 ≤ COMPILE_SIZE then
      compileDescription desc sdl_length p =
        .ok ((parse p.length p).2, (parse p.length p).1.code 0 ++ [op_exit])
    else ∃ f, compileDescription desc sdl_length p = .error (.fault f) := by
  have houtcome := compileDescription_outcome desc sdl_length p
  rw [Extent.andThen_of_complete h] at houtcome
  simp only [Outcome, Nat.zero_add, Extent.stored_words, Extent.stored_ending] at houtcome
  by_cases hroom : ((parse p.length p).1.extent (some desc)).words + 1 ≤ COMPILE_SIZE
  · rw [if_neg (Nat.not_lt.2 hroom)] at houtcome
    rw [if_pos hroom]
    exact houtcome
  · rw [if_pos (Nat.lt_of_not_le hroom)] at houtcome
    rw [if_neg hroom]
    exact houtcome

theorem compileDescription_incomplete {desc : InternalArrayDesc} {p : List UInt8}
    (h : ((parse p.length p).1.extent (some desc)).ending ≠ .complete) (sdl_length : ℕ) :
    if ((parse p.length p).1.extent (some desc)).ending = .reported ∧
        ((parse p.length p).1.extent (some desc)).words ≤ COMPILE_SIZE then
      ∃ e, compileDescription desc sdl_length p = .error (.error e)
    else ∃ f, compileDescription desc sdl_length p = .error (.fault f) := by
  have houtcome := compileDescription_outcome desc sdl_length p
  rw [Extent.andThen_of_ne h] at houtcome
  simp only [Outcome, Nat.zero_add] at houtcome
  by_cases hroom : ((parse p.length p).1.extent (some desc)).words ≤ COMPILE_SIZE
  · rw [if_neg (Nat.not_lt.2 hroom)] at houtcome
    cases hending : ((parse p.length p).1.extent (some desc)).ending with
    | complete => exact absurd hending h
    | reported =>
      rw [hending] at houtcome
      rw [if_pos ⟨rfl, hroom⟩]
      exact houtcome
    | unguarded =>
      rw [hending] at houtcome
      rw [if_neg (by simp)]
      exact houtcome
  · rw [if_pos (Nat.lt_of_not_le hroom)] at houtcome
    rw [if_neg fun hreported => hroom hreported.2]
    exact houtcome

/-- An element behind which the walk goes on. -/
theorem walkClauses_element {sdl_length fuel : ℕ} {op : UInt8} {p p' : List UInt8} {code : List ℤ}
    (heoc : op ≠ isc_sdl_eoc) (hheader : op ∉ headers)
    (hcompile : compileDescription w.sdl_arg_desc sdl_length (op :: p) = .ok (p', code)) :
    walkClauses w sdl_length steps (fuel + 1) (op :: p) vars argument =
      match execute { w with sdl_arg_compiled := code } steps vars argument with
      | some (.ok (vars, argument)) => walkClauses w sdl_length steps fuel p' vars argument
      | result => result := by
  rw [walkClauses, if_neg heoc, if_neg hheader, hcompile] <;> rfl

theorem walkClauses_failure {sdl_length fuel : ℕ} {op : UInt8} {p : List UInt8} {failure : Failure}
    (heoc : op ≠ isc_sdl_eoc) (hheader : op ∉ headers)
    (hcompile : compileDescription w.sdl_arg_desc sdl_length (op :: p) = .error failure) :
    walkClauses w sdl_length steps (fuel + 1) (op :: p) vars argument = some (.error failure.stop) := by
  rw [walkClauses, if_neg heoc, if_neg hheader, hcompile]

theorem safe_error {walked : Option Walked} {e : SdlError} (h : walked = some (.error (.error e))) :
    ∃ result, walked = some result ∧ ∀ f, result ≠ .error (.fault f) :=
  ⟨_, h, fun f hf => by cases hf⟩

theorem not_safe_fault {walked : Option Walked} {f : Fault} (h : walked = some (.error (.fault f))) :
    ¬ ∃ result, walked = some result ∧ ∀ f, result ≠ .error (.fault f) := by
  rintro ⟨result, hresult, hsafe⟩
  rw [h] at hresult
  cases hresult
  exact hsafe f rfl

/-- An element whose code is executed. -/
theorem element_safe_iff {sdl_length fuel : ℕ} {p' : List UInt8} {t : Tree}
    (hcomplete : (t.extent (some w.sdl_arg_desc)).ending = .complete)
    (ih : ∀ vars argument, (∃ steps result,
      walkClauses w sdl_length steps fuel p' vars argument = some result ∧ ∀ f, result ≠ .error (.fault f)) ↔
        Harmless w sdl_length fuel p' vars argument) :
    (∃ steps result,
      (match execute { w with sdl_arg_compiled := t.code 0 ++ [op_exit] } steps vars argument with
      | some (.ok (vars, argument)) => walkClauses w sdl_length steps fuel p' vars argument
      | result => result) = some result ∧ ∀ f, result ≠ .error (.fault f)) ↔
    ∃ rounds,
      match t.read w rounds (entered vars argument) with
      | (s, .finished) => Harmless w sdl_length fuel p' s.sdl_arg_variables s.argument
      | (_, .stopped stop) => ∀ f, stop ≠ .fault f
      | (_, .unfinished) => False := by
  constructor
  · rintro ⟨steps, result, hwalk, hsafe⟩
    refine ⟨steps + 1, ?_⟩
    have htracks := execute_tracks (steps + 1) hcomplete vars argument
    cases hexecute : execute { w with sdl_arg_compiled := t.code 0 ++ [op_exit] } steps vars argument with
    | none =>
      rw [hexecute] at hwalk
      cases hwalk
    | some walked =>
      rw [hexecute] at hwalk
      match hread : t.read w (steps + 1) (entered vars argument), htracks with
      | (s, .finished), ⟨s', hhalts, hvars, hargument⟩ =>
        have hunique := execute_unique hexecute hhalts
        simp only [Stop.walked] at hunique
        rw [hunique, hvars, hargument] at hwalk
        exact (ih _ _).1 ⟨steps, result, hwalk, hsafe⟩
      | (s, .stopped stop), ⟨s', hhalts⟩ =>
        intro f hf
        rw [hf] at hhalts
        have hunique := execute_unique hexecute hhalts
        simp only [Stop.walked] at hunique
        rw [hunique] at hwalk
        cases hwalk
        exact hsafe f rfl
      | (s, .unfinished), ⟨s', hgoes⟩ =>
        obtain ⟨t', hrun⟩ := execute_error hexecute
        exact hgoes.ne_error (Nat.le_succ steps) hrun
  · rintro ⟨rounds, hread⟩
    have htracks := execute_tracks rounds hcomplete vars argument
    have hexit : NoExit (t.read w rounds (entered vars argument)) := noExit_read t _
    match hresult : t.read w rounds (entered vars argument), htracks with
    | (s, .finished), ⟨s', hhalts, hvars, hargument⟩ =>
      rw [hresult] at hread
      obtain ⟨steps, result, hwalk, hsafe⟩ := (ih _ _).2 hread
      obtain ⟨n, hexecute⟩ := execute_of_halts hhalts
      simp only [Stop.walked, hvars, hargument] at hexecute
      refine ⟨max n steps, result, ?_, hsafe⟩
      rw [execute_mono hexecute (Nat.le_max_left n steps)]
      exact walkClauses_mono hwalk (Nat.le_max_right n steps)
    | (s, .stopped stop), ⟨s', hhalts⟩ =>
      rw [hresult] at hread hexit
      obtain ⟨n, hexecute⟩ := execute_of_halts hhalts
      refine ⟨n, .error stop, ?_, fun f hf => hread f (Except.error.inj hf)⟩
      rw [hexecute]
      cases stop with
      | exit => exact absurd rfl hexit
      | error e => rfl
      | raised => rfl
      | fault f => rfl
    | (s, .unfinished), _ =>
      rw [hresult] at hread
      exact hread.elim

theorem walkClauses_header {sdl_length fuel : ℕ} {op : UInt8} {p : List UInt8} (heoc : op ≠ isc_sdl_eoc)
    (hheader : op ∈ headers) : walkClauses w sdl_length steps (fuel + 1) (op :: p) vars argument =
      match skipHeader sdl_length op p with
      | .error failure => some (.error failure.stop)
      | .ok p => walkClauses w sdl_length steps fuel p vars argument := by
  rw [walkClauses, if_neg heoc, if_pos hheader] <;> rfl

/-- A walk all of whose attempts end the same way. -/
theorem exists_safe_iff {walk : ℕ → Option Walked} {r : Walked} (h : ∀ steps, walk steps = some r) :
    (∃ steps result, walk steps = some result ∧ ∀ f, result ≠ .error (.fault f)) ↔
      ∀ f, r ≠ .error (.fault f) := by
  constructor
  · rintro ⟨steps, result, hresult, hsafe⟩
    rw [h steps] at hresult
    cases hresult
    exact hsafe
  · intro hsafe
    exact ⟨0, r, h 0, hsafe⟩

theorem fault_safe_iff {walk : ℕ → Option Walked} {f : Fault}
    (h : ∀ steps, walk steps = some (.error (.fault f))) :
    (∃ steps result, walk steps = some result ∧ ∀ f, result ≠ .error (.fault f)) ↔ False := by
  rw [exists_safe_iff h]
  exact iff_of_false (fun hsafe => hsafe f rfl) not_false

theorem error_safe_iff {walk : ℕ → Option Walked} {e : SdlError}
    (h : ∀ steps, walk steps = some (.error (.error e))) :
    (∃ steps result, walk steps = some result ∧ ∀ f, result ≠ .error (.fault f)) ↔ True := by
  rw [exists_safe_iff h]
  exact iff_of_true (fun f hf => by cases hf) trivial

theorem walkClauses_safe_iff (w : Walk) (sdl_length fuel : ℕ) (p : List UInt8) (vars : List ℤ)
    (argument : array_slice) :
    (∃ steps result, walkClauses w sdl_length steps fuel p vars argument = some result ∧
      ∀ f, result ≠ .error (.fault f)) ↔ Harmless w sdl_length fuel p vars argument := by
  induction fuel generalizing p vars argument with
  | zero => exact fault_safe_iff fun steps => rfl
  | succ fuel ih =>
    cases p with
    | nil => exact fault_safe_iff fun steps => rfl
    | cons op p =>
      by_cases heoc : op = isc_sdl_eoc
      · have hend (steps : ℕ) : walkClauses w sdl_length steps (fuel + 1) (op :: p) vars argument =
            some (.ok (vars, argument)) := by
          rw [walkClauses, if_pos heoc]
        rw [exists_safe_iff hend, Harmless, if_pos heoc]
        exact iff_of_true (fun f hf => by cases hf) trivial
      by_cases hheader : op ∈ headers
      · simp only [walkClauses_header heoc hheader]
        rw [Harmless, if_neg heoc, if_pos hheader]
        cases skipHeader sdl_length op p with
        | ok p => exact ih p vars argument
        | error failure =>
          cases failure with
          | error e => exact error_safe_iff fun steps => rfl
          | fault f => exact fault_safe_iff fun steps => rfl
      rw [Harmless, if_neg heoc, if_neg hheader]
      dsimp only
      cases hending : ((parse (op :: p).length (op :: p)).1.extent (some w.sdl_arg_desc)).ending with
      | complete =>
        have hcompile := compileDescription_complete hending sdl_length
        split_ifs at hcompile with hroom
        · rw [and_iff_right hroom]
          simp only [walkClauses_element heoc hheader hcompile]
          exact element_safe_iff hending fun vars argument => ih _ vars argument
        · obtain ⟨f, hcompile⟩ := hcompile
          rw [fault_safe_iff fun steps => walkClauses_failure heoc hheader hcompile, false_iff]
          exact fun h => hroom h.1
      | reported =>
        have hcompile := compileDescription_incomplete (by rw [hending]; simp) sdl_length
        by_cases hroom : ((parse (op :: p).length (op :: p)).1.extent (some w.sdl_arg_desc)).words ≤
            COMPILE_SIZE
        · rw [if_pos ⟨hending, hroom⟩] at hcompile
          obtain ⟨e, hcompile⟩ := hcompile
          rw [error_safe_iff fun steps => walkClauses_failure heoc hheader hcompile, true_iff]
          exact hroom
        · rw [if_neg fun h => hroom h.2] at hcompile
          obtain ⟨f, hcompile⟩ := hcompile
          rw [fault_safe_iff fun steps => walkClauses_failure heoc hheader hcompile, false_iff]
          exact hroom
      | unguarded =>
        have hcompile := compileDescription_incomplete (by rw [hending]; simp) sdl_length
        rw [if_neg (by rw [hending]; simp)] at hcompile
        obtain ⟨f, hcompile⟩ := hcompile
        rw [fault_safe_iff fun steps => walkClauses_failure heoc hheader hcompile]

/-- A walk reports an error or completes exactly if the clauses do no harm. -/
theorem SDL_walk_safe_iff (w : Walk) (sdl : List UInt8) (vars : List ℤ) (argument : array_slice) :
    Safe w sdl vars argument ↔ Harmless w sdl.length sdl.length (sdl.drop 1) vars argument :=
  walkClauses_safe_iff w sdl.length sdl.length (sdl.drop 1) vars argument

/-- A walk over the array of two elements, the callback of which does nothing. -/
def pass : Walk := ⟨twoElements, 1000, fun argument _ _ => some argument, []⟩

/-- The parameter block is missing where a lower bound is no verb, the seventeenth subscript of a lower
bound is saved, a word is stored behind the buffer, and a quotient by zero does not exist. -/
theorem SDL_walk_unsafe :
    SDL_walk pass 30 [1, 34, 0, 0, 9, 1, 36, 1, 8, 0, 1, 7, 0, 255] [0] unstored =
      some (.error (.fault .argument)) ∧
    SDL_walk pass 30 ([1, 34, 0, 8, 0, 17] ++ (List.replicate 17 [9, 1]).flatten ++ [9, 1, 255]) [0]
      unstored = some (.error (.fault .expressions)) ∧
    SDL_walk pass 30 ([1] ++ List.replicate 85 13 ++ (List.replicate 86 [9, 1]).flatten ++ [255]) [0]
      unstored = some (.error (.fault .compiled)) ∧
    SDL_walk pass 30 [1, 36, 1, 8, 0, 1, 16, 9, 1, 9, 0, 255] [0] unstored =
      some (.error (.fault .divide)) := by
  decide +kernel

end FirebirdCore.Sdl
