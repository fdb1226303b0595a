import FirebirdCore.Sdl.Outlined
import FirebirdCore.Sdl.Simulation
import FirebirdCore.Sdl.Walk

/-!
# Reading outlines

An outline is read with an evaluation stack, one node after the other. The machine goes through the code
of the outline as the reading does.
-/
namespace FirebirdCore.Sdl

open Lib.Machine

variable {w : Walk} {s : State} {result : State × Status} {rounds : ℕ}

/-! ## Reading -/

/-- What is read next, unless the reading has stopped. -/
def after (result : State × Status) (k : State → State × Status) : State × Status :=
  match result with
  | (s, .finished) => k s
  | (s, .stopped stop) => (s, .stopped stop)
  | (s, .unfinished) => (s, .unfinished)

/-- One step of the reading. -/
def once : StepResult → State × Status
  | .ok s => (s, .finished)
  | .error (stop, s) => (s, .stopped stop)

def State.assign (s : State) (i : ℕ) (value : ℤ) : State :=
  { s with sdl_arg_variables := s.sdl_arg_variables.set i value }

def State.drop (s : State) (stack : List ℤ) : State := { s with stack }

/-- The variable gets its value, and is compared with the upper bound below the increment. -/
def bounded (i : ℕ) (value : ℤ) (s : State) (round : State × Status) : State × Status :=
  match s.stack with
  | _ :: upper :: stack =>
      if value > upper then ((s.assign i value).drop stack, .finished) else round
  | _ => once (fault .underflow s)

/-- The rounds of a loop. -/
def readRounds (body : State → State × Status) (i : ℕ) : ℕ → ℤ → State → State × Status
  | 0, _, s => (s, .unfinished)
  | rounds + 1, value, s =>
      bounded i value s
        (after (body (s.assign i value)) fun s =>
          match s.stack, s.sdl_arg_variables[i]? with
          | increment :: _, some value => readRounds body i rounds (SLONG (value + increment)) s
          | [], _ => once (fault .underflow s)
          | _, none => once (fault .noVariable s))

/-- The initial value is on top of the stack. -/
def readEntry (body : State → State × Status) (i rounds : ℕ) (s : State) : State × Status :=
  match s.stack with
  | [] => once (fault .underflow s)
  | value :: stack =>
      if i < s.sdl_arg_variables.length then readRounds body i rounds value (s.drop stack)
      else once (fault .noVariable s)

/-- The bounds of a loop are computed once, the lower one last. -/
def Tree.read (w : Walk) (rounds : ℕ) : Tree → State → State × Status
  | missing, s => once (fault .description s)
  | unknown, s => once (fault .code s)
  | literal bytes, s => once (push (SLONG (Sdl.literal bytes)) s)
  | var i, s =>
      match s.sdl_arg_variables[i.toNat]? with
      | none => once (fault .noVariable s)
      | some value => once (push value s)
  | binary o x y, s =>
      after (x.read w rounds s) fun s => after (y.read w rounds s) fun s => once (arithmetic o s)
  | nothing, s => (s, .finished)
  | saved x rest, s => after (rest.read w rounds s) (x.read w rounds)
  | scalar value _ subscripts, s =>
      after (subscripts.read w rounds s) fun s => once (executeScalar w value.toNat s)
  | element count parts, s =>
      after (parts.read w rounds s) fun s => once (executeElement w count s)
  | loop i lower upper increment body, s =>
      after (upper.read w rounds s) fun s =>
        after (increment.read w rounds s) fun s =>
          after (lower.read w rounds s) (readEntry (body.read w rounds) i.toNat rounds)

/-- The code is not read. -/
theorem Tree.read_compiled (w : Walk) (code : List ℤ) (t : Tree) :
    t.read { w with sdl_arg_compiled := code } rounds = t.read w rounds := by
  funext s
  induction t generalizing s with
  | missing => rfl
  | unknown => rfl
  | literal bytes => rfl
  | var i => rfl
  | binary o x y ihx ihy => simp only [read, ihx, ihy]
  | nothing => rfl
  | saved x rest ihx ihrest => simp only [read, ihrest, funext ihx]
  | scalar value count subscripts ih =>
    simp only [read, ih]
    rfl
  | element count parts ih =>
    simp only [read, ih]
    rfl
  | loop i lower upper increment body ihl ihu ihi ihb =>
    simp only [read, ihl, ihu, ihi, funext ihb]

/-! ## Tracking -/

def State.goto (s : State) (pc : ℕ) : State := { s with next := pc }

/-- The machine gets where the reading gets, apart from the place in the code. -/
def Tracks (w : Walk) (s : State) (rounds exit : ℕ) : State × Status → Prop
  | (s', .finished) => Goes (step w) 0 s (s'.goto exit)
  | (_, .stopped stop) => ∃ s', Halts (step w) s (stop, s')
  | (_, .unfinished) => ∃ s', Goes (step w) rounds s s'

theorem Tracks.of_goes {s' : State} {exit k m : ℕ} (h : Tracks w s' rounds exit result)
    (hgoes : Goes (step w) k s s') (hle : m ≤ k + rounds) : Tracks w s m exit result := by
  match result, h with
  | (_, .finished), h => exact (hgoes.trans h).mono (Nat.zero_le _)
  | (_, .stopped stop), ⟨s'', hhalts⟩ => exact ⟨s'', hgoes.halts hhalts⟩
  | (_, .unfinished), ⟨s'', hgoes'⟩ => exact ⟨s'', (hgoes.trans hgoes').mono hle⟩

theorem Tracks.mono {exit m : ℕ} (h : Tracks w s rounds exit result) (hle : m ≤ rounds) :
    Tracks w s m exit result :=
  h.of_goes (Goes.refl s) (hle.trans_eq (Nat.zero_add _).symm)

theorem Tracks.after {k : State → State × Status} {middle exit : ℕ} (h : Tracks w s rounds middle result)
    (hk : ∀ s', Tracks w (s'.goto middle) rounds exit (k s')) :
    Tracks w s rounds exit (after result k) := by
  match result, h with
  | (s', .finished), h => exact (hk s').of_goes h (Nat.le_add_left _ _)
  | (_, .stopped stop), h => exact h
  | (_, .unfinished), h => exact h

/-- The same step at another place in the code. -/
def moved (pc exit : ℕ) : StepResult → StepResult
  | .ok s => .ok (s.goto exit)
  | .error (stop, s) => .error (stop, s.goto pc)

theorem tracks_once (pc : ℕ) {exit : ℕ} {made : StepResult} (h : step w s = moved pc exit made) :
    Tracks w s rounds exit (once made) := by
  cases made with
  | ok s' => exact (Goes.of_step h).mono (Nat.zero_le _)
  | error e =>
    obtain ⟨stop, s'⟩ := e
    exact ⟨_, Halts.of_step h⟩

/-! ## Steps -/

theorem push_goto (value : ℤ) (pc : ℕ) : push value (s.goto pc) = moved pc pc (push value s) := by
  unfold push
  by_cases hfull : s.stack.length ≥ STACK_SIZE
  · have hfull' : (s.goto pc).stack.length ≥ STACK_SIZE := hfull
    rw [if_pos hfull, if_pos hfull']
    rfl
  · have hfull' : ¬ (s.goto pc).stack.length ≥ STACK_SIZE := hfull
    rw [if_neg hfull, if_neg hfull']
    rfl

theorem arithmetic_goto (o : Operator) (pc : ℕ) :
    arithmetic o (s.goto pc) = moved pc (pc + 1) (arithmetic o s) := by
  obtain ⟨next, stack, vars, desc, argument, calls⟩ := s
  match stack with
  | [] => rfl
  | [_] => rfl
  | value :: x :: stack =>
    simp only [arithmetic, State.goto]
    cases o.apply x value with
    | none => rfl
    | some result => rfl

theorem executeScalar_goto (value : ℤ) (pc : ℕ) :
    executeScalar w value (s.goto pc) = moved pc (pc + 3) (executeScalar w value s) := by
  obtain ⟨next, stack, vars, desc, argument, calls⟩ := s
  simp only [executeScalar, State.goto]
  split
  · rfl
  · cases subscripts (w.sdl_arg_desc.iad_rpt.take w.sdl_arg_desc.iad_dimensions) stack 0 with
    | error stop => rfl
    | ok r =>
      obtain ⟨subscript, stack⟩ := r
      cases hrange : w.sdl_arg_desc.iad_rpt[value.toNat]? with
      | none => rfl
      | some range => rfl

theorem executeElement_goto (count : ℤ) (pc : ℕ) :
    executeElement w count (s.goto pc) = moved pc (pc + 2) (executeElement w count s) := by
  obtain ⟨next, stack, vars, desc, argument, calls⟩ := s
  cases desc with
  | none => rfl
  | some desc =>
    simp only [executeElement, State.goto]
    cases (element w argument count.toNat desc).2 with
    | none => rfl
    | some argument => rfl

theorem literal_tracks {pc : ℕ} {value : ℤ} (hcode : CodeAt w.sdl_arg_compiled pc [op_literal, value]) :
    Tracks w (s.goto pc) rounds (pc + 2) (once (push (SLONG value) s)) := by
  obtain ⟨hop, hcode⟩ := codeAt_cons.1 hcode
  obtain ⟨hvalue, -⟩ := codeAt_cons.1 hcode
  apply tracks_once (pc + 2)
  rw [← push_goto]
  simp [step, word, State.goto, hop, hvalue]

theorem var_tracks {pc i : ℕ} (hcode : CodeAt w.sdl_arg_compiled pc [op_variable, (i : ℤ)]) :
    Tracks w (s.goto pc) rounds (pc + 2)
      (match s.sdl_arg_variables[i]? with
      | none => once (fault .noVariable s)
      | some value => once (push value s)) := by
  obtain ⟨hop, hcode⟩ := codeAt_cons.1 hcode
  obtain ⟨hi, -⟩ := codeAt_cons.1 hcode
  cases hvalue : s.sdl_arg_variables[i]? with
  | none =>
    have hstep : step w (s.goto pc) = fault .noVariable (s.goto pc) := by
      simp [step, word, State.goto, hop, hi, hvalue, op_variable, op_literal]
    exact tracks_once pc hstep
  | some value =>
    have hstep : step w (s.goto pc) = push value (s.goto (pc + 2)) := by
      simp [step, word, State.goto, hop, hi, hvalue, op_variable, op_literal]
    exact tracks_once (pc + 2) (hstep.trans (push_goto value _))

/-! ## Loops -/

/-- The variable is compared with the bound: the loop is left, or its body is entered. -/
theorem iterate_tracks {i label exit pc n : ℕ} {value : ℤ} {s' : State}
    (hstep : step w s' = iterate i value exit (label + 3) (s.goto pc))
    (hround : Tracks w ((s.assign i value).goto (label + 3)) n exit result) :
    Tracks w s' (n + 1) exit (bounded i value s result) := by
  have hempty (h : iterate i value exit (label + 3) (s.goto pc) = fault .underflow (s.goto pc)) :
      Tracks w s' (n + 1) exit (once (fault .underflow s)) := tracks_once pc (hstep.trans h)
  obtain ⟨next, stack, vars, desc, argument, calls⟩ := s
  match stack with
  | [] => exact hempty rfl
  | [_] => exact hempty rfl
  | _ :: upper :: stack =>
    simp only [iterate, State.goto] at hstep
    simp only [bounded]
    split_ifs at hstep ⊢ with habove
    · exact (Goes.of_step hstep).mono (Nat.zero_le _)
    · exact hround.of_goes (Goes.of_step hstep) (Nat.add_comm _ _).le

/-- The rounds of a loop from where the machine is about to compare the variable with the bound. -/
theorem readRounds_tracks {body : State → State × Status} {i label inner exit : ℕ} {value : ℤ}
    (hbody : ∀ s, Tracks w (s.goto (label + 3)) rounds inner (body s))
    (hiterate : CodeAt w.sdl_arg_compiled label [op_iterate, (i : ℤ), (exit : ℤ)])
    (hgoto : CodeAt w.sdl_arg_compiled inner [op_goto, (label : ℤ)]) {n : ℕ} (hn : n ≤ rounds) {s' : State}
    {pc : ℕ} (hstep : step w s' = iterate i value exit (label + 3) (s.goto pc)) :
    Tracks w s' n exit (readRounds body i n value s) := by
  induction n generalizing value s s' pc with
  | zero => exact ⟨s', Goes.refl s'⟩
  | succ n ih =>
    apply iterate_tracks hstep
    apply ((hbody _).mono (by omega)).after
    intro s2
    obtain ⟨hop, htarget⟩ := codeAt_cons.1 hgoto
    obtain ⟨htarget, -⟩ := codeAt_cons.1 htarget
    have hback : step w (s2.goto inner) = .ok (s2.goto label) := step_goto (s := s2.goto inner) hop htarget
    apply Tracks.of_goes _ (Goes.of_step hback) (Nat.le_add_left _ _)
    obtain ⟨hop', hi⟩ := codeAt_cons.1 hiterate
    obtain ⟨hi, hexit⟩ := codeAt_cons.1 hi
    obtain ⟨hexit, -⟩ := codeAt_cons.1 hexit
    cases hstack : s2.stack with
    | nil =>
      have hfault : step w (s2.goto label) = fault .underflow (s2.goto label) := by
        simp [step, word, State.goto, hop', hi, hexit, hstack, op_iterate, op_loop, op_goto, op_variable,
          op_literal, op_add, op_subtract, op_multiply, op_divide]
      exact tracks_once label hfault
    | cons increment stack =>
      cases hvalue : s2.sdl_arg_variables[i]? with
      | none =>
        have hfault : step w (s2.goto label) = fault .noVariable (s2.goto label) := by
          simp [step, word, State.goto, hop', hi, hexit, hstack, hvalue, op_iterate, op_loop, op_goto,
            op_variable, op_literal, op_add, op_subtract, op_multiply, op_divide]
        exact tracks_once label hfault
      | some value' =>
        have hagain : step w (s2.goto label) =
            iterate i (SLONG (value' + increment)) exit (label + 3) (s2.goto label) := by
          simp [step, word, State.goto, hop', hi, hexit, hstack, hvalue, op_iterate, op_loop, op_goto,
            op_variable, op_literal, op_add, op_subtract, op_multiply, op_divide]
        exact ih (by omega) hagain

/-- The loop behind the code of its bounds. -/
theorem readEntry_tracks {body : State → State × Status} {i pc inner exit : ℕ}
    (hbody : ∀ s, Tracks w (s.goto (pc + 1 + 3)) rounds inner (body s))
    (hcode : CodeAt w.sdl_arg_compiled pc [op_loop, op_iterate, (i : ℤ), (exit : ℤ)])
    (hgoto : CodeAt w.sdl_arg_compiled inner [op_goto, ((pc + 1 : ℕ) : ℤ)]) (s : State) :
    Tracks w (s.goto pc) rounds exit (readEntry body i rounds s) := by
  obtain ⟨hop, hiterate⟩ := codeAt_cons.1 hcode
  obtain ⟨-, hi⟩ := codeAt_cons.1 hiterate
  obtain ⟨hi, hexit⟩ := codeAt_cons.1 hi
  obtain ⟨hexit, -⟩ := codeAt_cons.1 hexit
  unfold readEntry
  cases hstack : s.stack with
  | nil =>
    have hfault : step w (s.goto pc) = fault .underflow (s.goto pc) := by
      simp [step, word, State.goto, hop, hi, hexit, hstack, op_loop, op_goto, op_variable, op_literal,
        op_add, op_subtract, op_multiply, op_divide]
    exact tracks_once pc hfault
  | cons value stack =>
    dsimp only
    split_ifs with hlt
    · have hstep : step w (s.goto pc) = iterate i value exit (pc + 1 + 3) ((s.drop stack).goto pc) :=
        step_loop (s := s.goto pc) hop hi hexit hlt hstack
      exact readRounds_tracks hbody hiterate hgoto le_rfl hstep
    · have hfault : step w (s.goto pc) = fault .noVariable (s.goto pc) := by
        simp [step, word, State.goto, hop, hi, hexit, hstack, hlt, op_loop, op_goto, op_variable,
          op_literal, op_add, op_subtract, op_multiply, op_divide]
      exact tracks_once pc hfault

/-! ## Outlines -/

/-- The machine goes through the code of an outline as the outline is read. -/
theorem read_tracks {t : Tree} {pc : ℕ}
    (hcomplete : (t.extent (some w.sdl_arg_desc)).ending = .complete)
    (hcode : CodeAt w.sdl_arg_compiled pc (t.code pc)) (s : State) :
    Tracks w (s.goto pc) rounds (pc + (t.code pc).length) (t.read w rounds s) := by
  induction t generalizing pc s with
  | missing => cases hcomplete
  | unknown => cases hcomplete
  | literal bytes => exact literal_tracks hcode
  | var i => exact var_tracks hcode
  | binary o x y ihx ihy =>
    simp only [Tree.extent, Extent.andThen_complete] at hcomplete
    obtain ⟨hx, hcode⟩ := codeAt_append.1 hcode
    obtain ⟨hy, hcode⟩ := codeAt_append.1 hcode
    obtain ⟨hop, -⟩ := codeAt_cons.1 hcode
    apply (ihx hcomplete.1 hx s).after
    intro s1
    apply (ihy hcomplete.2.1 hy s1).after
    intro s2
    have hexit : pc + ((Tree.binary o x y).code pc).length =
        pc + (x.code pc).length + (y.code (pc + (x.code pc).length)).length + 1 := by
      simp [Tree.code, Nat.add_assoc]
    rw [hexit]
    exact tracks_once _ (step_arithmetic hop |>.trans (arithmetic_goto o _))
  | nothing => exact Goes.refl _
  | saved x rest ihx ihrest =>
    simp only [Tree.extent, Extent.andThen_complete] at hcomplete
    obtain ⟨hrest, hx⟩ := codeAt_append.1 hcode
    apply (ihrest hcomplete.1 hrest s).after
    intro s1
    have hexit : pc + ((Tree.saved x rest).code pc).length =
        pc + (rest.code pc).length + (x.code (pc + (rest.code pc).length)).length := by
      simp [Tree.code, Nat.add_assoc]
    rw [hexit]
    exact ihx hcomplete.2 hx s1
  | scalar value count subscripts ih =>
    simp only [Tree.extent, Extent.andThen_complete] at hcomplete
    obtain ⟨hparts, hcode⟩ := codeAt_append.1 hcode
    obtain ⟨hop, hcode⟩ := codeAt_cons.1 hcode
    obtain ⟨hvalue, -⟩ := codeAt_cons.1 hcode
    apply (ih hcomplete.2.2.2.1 hparts s).after
    intro s1
    have hexit : pc + ((Tree.scalar value count subscripts).code pc).length =
        pc + (subscripts.code pc).length + 3 := by
      simp [Tree.code, Nat.add_assoc]
    rw [hexit]
    exact tracks_once _ ((step_scalar hop hvalue).trans (executeScalar_goto _ _))
  | element count parts ih =>
    simp only [Tree.extent, Extent.andThen_complete] at hcomplete
    obtain ⟨hparts, hcode⟩ := codeAt_append.1 hcode
    obtain ⟨hop, hcode⟩ := codeAt_cons.1 hcode
    obtain ⟨hcount, -⟩ := codeAt_cons.1 hcode
    apply (ih hcomplete.2.2.2.1 hparts s).after
    intro s1
    have hexit : pc + ((Tree.element count parts).code pc).length =
        pc + (parts.code pc).length + 2 := by
      simp [Tree.code, Nat.add_assoc]
    rw [hexit]
    exact tracks_once _ ((step_element hop hcount).trans (executeElement_goto _ _))
  | loop i lower upper increment body ihl ihu ihi ihb =>
    simp only [Tree.extent, Extent.andThen_complete] at hcomplete
    obtain ⟨-, hupper, hincrement, hlower, -, hbody, -⟩ := hcomplete
    have hend : pc + ((Tree.loop i lower upper increment body).code pc).length =
        pc + (upper.code pc ++ increment.code (pc + (upper.code pc).length) ++ lower.code (pc +
          (upper.code pc ++ increment.code (pc + (upper.code pc).length)).length)).length + 1 + 3 +
        (body.code (pc + (upper.code pc ++ increment.code (pc + (upper.code pc).length) ++ lower.code (pc +
          (upper.code pc ++ increment.code (pc + (upper.code pc).length)).length)).length + 1 + 3)).length +
        2 := by
      simp only [Tree.code, List.length_append, List.length_cons, List.length_nil]
      omega
    rw [hend]
    rw [Tree.code] at hcode
    obtain ⟨hbounds, hcode⟩ := codeAt_append.1 hcode
    obtain ⟨hhead, hcode⟩ := codeAt_append.1 hcode
    obtain ⟨hinner, hgoto⟩ := codeAt_append.1 hcode
    obtain ⟨hboth, hfirst⟩ := codeAt_append.1 hbounds
    obtain ⟨hlast, hnext⟩ := codeAt_append.1 hboth
    apply (ihu hupper hlast s).after
    intro s1
    apply (ihi hincrement hnext s1).after
    intro s2
    rw [Nat.add_assoc pc, ← List.length_append]
    apply (ihl hlower hfirst s2).after
    intro s3
    rw [Nat.add_assoc pc, ← List.length_append]
    exact readEntry_tracks (fun s => ihb hbody hinner s) hhead hgoto s3

/-! ## Descriptions -/

/-- An element is executed as its outline is read. -/
theorem execute_tracks (rounds : ℕ) {t : Tree} {w : Walk}
    (hcomplete : (t.extent (some w.sdl_arg_desc)).ending = .complete) (vars : List ℤ)
    (argument : array_slice) :
    match t.read w rounds (entered vars argument) with
    | (s, .finished) => ∃ s', Halts (step { w with sdl_arg_compiled := t.code 0 ++ [op_exit] })
        (entered vars argument) (.exit, s') ∧ s'.sdl_arg_variables = s.sdl_arg_variables ∧
          s'.argument = s.argument
    | (_, .stopped stop) => ∃ s', Halts (step { w with sdl_arg_compiled := t.code 0 ++ [op_exit] })
        (entered vars argument) (stop, s')
    | (_, .unfinished) => ∃ s', Goes (step { w with sdl_arg_compiled := t.code 0 ++ [op_exit] }) rounds
        (entered vars argument) s' := by
  have hall := codeAt_zero (t.code 0 ++ [op_exit])
  obtain ⟨hcode, hexit⟩ := codeAt_append.1 hall
  obtain ⟨hexit, -⟩ := codeAt_cons.1 hexit
  have htracks := @read_tracks { w with sdl_arg_compiled := t.code 0 ++ [op_exit] } rounds t 0
    hcomplete hcode (entered vars argument)
  rw [Tree.read_compiled] at htracks
  match t.read w rounds (entered vars argument), htracks with
  | (s, .finished), hgoes => exact ⟨_, Goes.halts hgoes (Halts.of_step (step_exit hexit)), rfl, rfl⟩
  | (_, .stopped stop), h => exact h
  | (_, .unfinished), h => exact h

end FirebirdCore.Sdl
