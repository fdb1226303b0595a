import FirebirdCore.Lib.Machine
import FirebirdCore.Sdl.Compiled

/-!
# The machine follows the reading

The code of a description goes through the elements in the order of the direct reading, and stops where
the reading stops.
-/
namespace FirebirdCore.Sdl

open Lib.Machine

variable {w : Walk} {s s' : State} {r : Reading}

/-! ## Steps -/

theorem step_literal {value : ℤ} (hop : w.sdl_arg_compiled[s.next]? = some op_literal)
    (hvalue : w.sdl_arg_compiled[s.next + 1]? = some value) (hroom : s.stack.length < STACK_SIZE) :
    step w s = .ok { s with next := s.next + 2, stack := SLONG value :: s.stack } := by
  simp [step, word, hop, hvalue, push, hroom]

theorem step_variable {i : ℕ} (hop : w.sdl_arg_compiled[s.next]? = some op_variable)
    (hi : w.sdl_arg_compiled[s.next + 1]? = some (i : ℤ)) (hlt : i < s.sdl_arg_variables.length)
    (hroom : s.stack.length < STACK_SIZE) :
    step w s = .ok { s with next := s.next + 2, stack := s.sdl_arg_variables.getD i 0 :: s.stack } := by
  simp [step, word, hop, hi, hlt, push, hroom, op_variable, op_literal]

theorem step_arithmetic {o : Operator} (hop : w.sdl_arg_compiled[s.next]? = some o.word) :
    step w s = arithmetic o s := by
  cases o <;> simp [step, word, hop, Operator.word, op_variable, op_literal, op_add, op_subtract,
    op_multiply, op_divide]

theorem step_goto {target : ℕ} (hop : w.sdl_arg_compiled[s.next]? = some op_goto)
    (htarget : w.sdl_arg_compiled[s.next + 1]? = some (target : ℤ)) :
    step w s = .ok { s with next := target } := by
  simp [step, word, hop, htarget, op_goto, op_variable, op_literal, op_add, op_subtract, op_multiply,
    op_divide]

theorem step_loop {i exit : ℕ} {value : ℤ} {stack : List ℤ}
    (hop : w.sdl_arg_compiled[s.next]? = some op_loop)
    (hi : w.sdl_arg_compiled[s.next + 2]? = some (i : ℤ))
    (hexit : w.sdl_arg_compiled[s.next + 3]? = some (exit : ℤ)) (hlt : i < s.sdl_arg_variables.length)
    (hstack : s.stack = value :: stack) :
    step w s = iterate i value exit (s.next + 4) { s with stack } := by
  simp [step, word, hop, hi, hexit, hlt, hstack, op_loop, op_goto, op_variable, op_literal, op_add,
    op_subtract, op_multiply, op_divide]

theorem step_iterate {i exit : ℕ} {increment : ℤ} {stack : List ℤ}
    (hop : w.sdl_arg_compiled[s.next]? = some op_iterate)
    (hi : w.sdl_arg_compiled[s.next + 1]? = some (i : ℤ))
    (hexit : w.sdl_arg_compiled[s.next + 2]? = some (exit : ℤ)) (hlt : i < s.sdl_arg_variables.length)
    (hstack : s.stack = increment :: stack) :
    step w s = iterate i (SLONG (s.sdl_arg_variables.getD i 0 + increment)) exit (s.next + 3) s := by
  simp [step, word, hop, hi, hexit, hlt, hstack, op_iterate, op_loop, op_goto, op_variable, op_literal,
    op_add, op_subtract, op_multiply, op_divide]

theorem step_scalar {value : ℤ} (hop : w.sdl_arg_compiled[s.next]? = some op_scalar)
    (hvalue : w.sdl_arg_compiled[s.next + 1]? = some value) : step w s = executeScalar w value s := by
  simp [step, word, hop, hvalue, op_scalar, op_iterate, op_loop, op_goto, op_variable, op_literal,
    op_add, op_subtract, op_multiply, op_divide]

theorem step_element {count : ℤ} (hop : w.sdl_arg_compiled[s.next]? = some op_element)
    (hcount : w.sdl_arg_compiled[s.next + 1]? = some count) : step w s = executeElement w count s := by
  simp [step, word, hop, hcount, op_element, op_scalar, op_iterate, op_loop, op_goto, op_variable,
    op_literal, op_add, op_subtract, op_multiply, op_divide]

theorem step_exit (hop : w.sdl_arg_compiled[s.next]? = some op_exit) : step w s = .error (.exit, s) := by
  simp [step, word, hop, op_exit, op_element, op_scalar, op_iterate, op_loop, op_goto, op_variable,
    op_literal, op_add, op_subtract, op_multiply, op_divide]

/-! ## Expressions -/

/-- The machine has got as far as the reading. -/
structure Agrees (s : State) (r : Reading) : Prop where
  variables_eq : s.sdl_arg_variables = r.sdl_arg_variables
  argument_eq : s.argument = r.argument
  calls_eq : s.calls = r.calls

theorem SLONG_literal {bytes : List UInt8} (h : bytes.length ≤ 4) :
    SLONG (literal bytes) = literal bytes := by
  have hpow : 256 ^ bytes.length ≤ 256 ^ 4 := Nat.pow_le_pow_right (by norm_num) h
  have hpos : 0 < 256 ^ bytes.length := Nat.pow_pos (by norm_num)
  unfold SLONG literal
  generalize ((bytes.foldr (fun b n => b.toNat + 256 * n) 0 : ℕ) : ℤ) = n
  generalize 256 ^ bytes.length = m at *
  have hle := Int.le_bmod (x := n) hpos
  have hlt := Int.bmod_lt (x := n) hpos
  rw [Int.bmod_eq_of_le] <;> norm_num at * <;> omega

theorem literal_goes {bytes : List UInt8} (h : bytes.length ≤ 4)
    (hcode : CodeAt w.sdl_arg_compiled s.next [op_literal, literal bytes])
    (hroom : s.stack.length + 1 ≤ STACK_SIZE) :
    Goes (step w) 0 s { s with next := s.next + 2, stack := literal bytes :: s.stack } := by
  obtain ⟨hop, hcode⟩ := codeAt_cons.1 hcode
  obtain ⟨hvalue, -⟩ := codeAt_cons.1 hcode
  have hstep := step_literal hop hvalue hroom
  rw [SLONG_literal h] at hstep
  exact (Goes.of_step hstep).mono (Nat.zero_le _)

/-- A literal or a variable is pushed, and an operator is applied to what is on top of the stack. -/
theorem expr_goes (e : Expr) (hcode : CodeAt w.sdl_arg_compiled s.next e.code)
    (hwf : e.WellFormed s.sdl_arg_variables.length) (hroom : s.stack.length + e.height ≤ STACK_SIZE) :
    match e.value s.sdl_arg_variables with
    | some v => Goes (step w) 0 s { s with next := s.next + e.code.length, stack := v :: s.stack }
    | none => ∃ next stack, Halts (step w) s (.fault .divide, { s with next, stack }) := by
  induction e generalizing s with
  | tiny b0 => exact @literal_goes _ _ [b0] (by simp) hcode hroom
  | short b0 b1 => exact @literal_goes _ _ [b0, b1] (by simp) hcode hroom
  | long b0 b1 b2 b3 => exact @literal_goes _ _ [b0, b1, b2, b3] (by simp) hcode hroom
  | var i =>
    obtain ⟨hop, hcode⟩ := codeAt_cons.1 hcode
    obtain ⟨hi, -⟩ := codeAt_cons.1 hcode
    exact (Goes.of_step (step_variable hop hi hwf (by simpa [Expr.height] using hroom))).mono
      (Nat.zero_le _)
  | binary o x y ihx ihy =>
    obtain ⟨hx, hcode⟩ := codeAt_append.1 hcode
    obtain ⟨hy, hcode⟩ := codeAt_append.1 hcode
    obtain ⟨hop, -⟩ := codeAt_cons.1 hcode
    simp only [Expr.height] at hroom
    have hgoesx := ihx hx hwf.1 (by omega)
    rw [Expr.value]
    cases hvx : x.value s.sdl_arg_variables with
    | none =>
      rw [hvx] at hgoesx
      exact hgoesx
    | some vx =>
      rw [hvx] at hgoesx
      have hgoesy := ihy (s := { s with next := s.next + x.code.length, stack := vx :: s.stack }) hy hwf.2
        (by simp only [List.length_cons]; omega)
      simp only [Option.bind_eq_bind, Option.bind_some]
      cases hvy : y.value s.sdl_arg_variables with
      | none =>
        simp only [hvy] at hgoesy
        obtain ⟨next, stack, hhalts⟩ := hgoesy
        exact ⟨next, stack, hgoesx.halts hhalts⟩
      | some vy =>
        simp only [hvy] at hgoesy
        have hgoes := hgoesx.trans hgoesy
        have hstep := step_arithmetic (w := w) (o := o)
          (s := { s with next := s.next + x.code.length + y.code.length, stack := vy :: vx :: s.stack }) hop
        simp only [arithmetic] at hstep
        simp only [Option.bind_some]
        cases hv : o.apply vx vy with
        | none =>
          rw [hv] at hstep
          exact ⟨_, _, hgoes.halts (Halts.of_step hstep)⟩
        | some v =>
          rw [hv] at hstep
          have hall := hgoes.trans (Goes.of_step hstep)
          have hlength : s.next + (Expr.binary o x y).code.length =
              s.next + x.code.length + y.code.length + 1 := by
            simp [Expr.code]
            omega
          rw [hlength]
          exact hall.mono (Nat.zero_le _)

/-- The values of several expressions are pushed one by one. -/
theorem exprs_goes (es : List Expr) (hcode : CodeAt w.sdl_arg_compiled s.next (es.flatMap Expr.code))
    (hwf : ∀ e ∈ es, e.WellFormed s.sdl_arg_variables.length)
    (hroom : s.stack.length + heights es ≤ STACK_SIZE) :
    match values s.sdl_arg_variables es with
    | some vs => Goes (step w) 0 s
        { s with next := s.next + (es.flatMap Expr.code).length, stack := vs.reverse ++ s.stack }
    | none => ∃ next stack, Halts (step w) s (.fault .divide, { s with next, stack }) := by
  induction es generalizing s with
  | nil => exact Goes.refl s
  | cons e es ih =>
    obtain ⟨hwfe, hwf⟩ := List.forall_mem_cons.1 hwf
    rw [List.flatMap_cons] at hcode
    obtain ⟨he, hcode⟩ := codeAt_append.1 hcode
    simp only [heights] at hroom
    have hgoes := expr_goes e he hwfe (by omega)
    rw [values]
    cases hv : e.value s.sdl_arg_variables with
    | none =>
      rw [hv] at hgoes
      exact hgoes
    | some v =>
      rw [hv] at hgoes
      have hrest := ih (s := { s with next := s.next + e.code.length, stack := v :: s.stack }) hcode hwf
        (by simp only [List.length_cons]; omega)
      simp only [Option.bind_eq_bind, Option.bind_some]
      cases hvs : values s.sdl_arg_variables es with
      | none =>
        simp only [hvs] at hrest
        obtain ⟨next, stack, hhalts⟩ := hrest
        exact ⟨next, stack, hgoes.halts hhalts⟩
      | some vs =>
        simp only [hvs] at hrest
        have hall := hgoes.trans hrest
        have hlength : s.next + ((e :: es).flatMap Expr.code).length =
            s.next + e.code.length + (es.flatMap Expr.code).length := by
          rw [List.flatMap_cons, List.length_append, Nat.add_assoc]
        have hstack : (v :: vs).reverse ++ s.stack = vs.reverse ++ v :: s.stack := by simp
        simp only [Option.bind_some, Option.pure_def, hlength, hstack]
        exact hall

theorem values_append (vars : List ℤ) (es es' : List Expr) : values vars (es ++ es') =
    (values vars es).bind fun vs => (values vars es').map (vs ++ ·) := by
  induction es with
  | nil => simp [values]
  | cons e es ih =>
    simp only [List.cons_append, values, ih]
    cases e.value vars with
    | none => rfl
    | some v =>
      cases values vars es with
      | none => rfl
      | some vs => cases values vars es' <;> rfl

/-- The order in which the subscripts are computed does not matter. -/
theorem values_reverse (vars : List ℤ) (es : List Expr) :
    values vars es.reverse = (values vars es).map List.reverse := by
  induction es with
  | nil => rfl
  | cons e es ih =>
    rw [List.reverse_cons, values_append, ih]
    simp only [values]
    cases e.value vars with
    | none => cases values vars es <;> rfl
    | some v => cases values vars es <;> simp

theorem values_length {vars : List ℤ} {es : List Expr} {vs : List ℤ} (h : values vars es = some vs) :
    vs.length = es.length := by
  induction es generalizing vs with
  | nil =>
    cases h
    rfl
  | cons e es ih =>
    simp only [values, Option.bind_eq_bind, Option.bind_eq_some_iff] at h
    obtain ⟨v, -, vs, hvs, h⟩ := h
    cases h
    rw [List.length_cons, ih hvs, List.length_cons]

/-! ## Elements -/

theorem subscripts_spec (ranges : List iad_repeat) (ns stack : List ℤ)
    (hlength : ns.length = ranges.length) (x : ℤ) :
    match outside? ranges ns with
    | some e => subscripts ranges (ns ++ stack) x = .error (.error e)
    | none => ∃ y, subscripts ranges (ns ++ stack) x = .ok (y, stack) ∧
        SLONG y = SLONG (x + position ranges ns) := by
  induction ranges generalizing ns x with
  | nil =>
    obtain rfl := List.eq_nil_of_length_eq_zero hlength
    exact ⟨x, rfl, by simp [position]⟩
  | cons range ranges ih =>
    cases ns with
    | nil => cases hlength
    | cons n ns =>
      rw [outside?, List.cons_append, subscripts]
      by_cases hout : n < range.iad_lower ∨ n > range.iad_upper
      · rw [if_pos hout, if_pos hout]
      · rw [if_neg hout, if_neg hout]
        have hrest := ih ns (by simpa using hlength)
          (SLONG (x + (n - range.iad_lower) * range.iad_length))
        cases houts : outside? ranges ns with
        | some e =>
          rw [houts] at hrest
          exact hrest
        | none =>
          rw [houts] at hrest
          obtain ⟨y, hy, hsum⟩ := hrest
          refine ⟨y, hy, hsum.trans ?_⟩
          unfold SLONG
          rw [Int.bmod_add_bmod]
          simp [position, add_assoc]

theorem SLONG_mul (x y z : ℤ) (h : SLONG y = SLONG z) : SLONG (x * y) = SLONG (x * z) := by
  unfold SLONG at *
  rw [← Int.mul_bmod_bmod, h, Int.mul_bmod_bmod]

/-- What follows from a state if the reading goes on as `result`. A reading that finishes leaves the
stack and goes on at `exit`, and one that is unfinished has made a step for each of the rounds. -/
def Follows (w : Walk) (s : State) (rounds exit : ℕ) (stack : List ℤ) : Reading × Status → Prop
  | (r, .finished) => ∃ s', Goes (step w) 0 s s' ∧ s'.next = exit ∧ s'.stack = stack ∧ Agrees s' r
  | (r, .stopped stop) => ∃ s', Halts (step w) s (stop, s') ∧ Agrees s' r
  | (r, .unfinished) => ∃ s', Goes (step w) rounds s s' ∧ Agrees s' r

theorem Follows.of_goes {rounds exit : ℕ} {stack : List ℤ} {result : Reading × Status}
    (h : Follows w s' rounds exit stack result) (hgoes : Goes (step w) 0 s s') :
    Follows w s rounds exit stack result := by
  match result, h with
  | (r, .finished), ⟨s'', hgoes', hnext, hstack, hagrees⟩ =>
    exact ⟨s'', hgoes.trans hgoes', hnext, hstack, hagrees⟩
  | (r, .stopped stop), ⟨s'', hhalts, hagrees⟩ => exact ⟨s'', hgoes.halts hhalts, hagrees⟩
  | (r, .unfinished), ⟨s'', hgoes', hagrees⟩ =>
    have hall := hgoes.trans hgoes'
    rw [Nat.zero_add] at hall
    exact ⟨s'', hall, hagrees⟩

theorem Agrees.of_eq {s' : State} (h : Agrees s r) (hvariables : s'.sdl_arg_variables = s.sdl_arg_variables)
    (hargument : s'.argument = s.argument) (hcalls : s'.calls = s.calls) : Agrees s' r :=
  ⟨hvariables.trans h.variables_eq, hargument.trans h.argument_eq, hcalls.trans h.calls_eq⟩

/-- An element whose descriptor has been computed is called or passed. -/
theorem readElement_follows {desc : dsc} (pc : ℕ) (hagrees : Agrees s r) (hnext : s.next = pc)
    (hdesc : s.element_desc = some desc) (hcode : CodeAt w.sdl_arg_compiled pc [op_element, 1])
    (rounds : ℕ) : Follows w s rounds (pc + 2) s.stack (readElement w r desc) := by
  obtain ⟨hop, hcode⟩ := codeAt_cons.1 hcode
  obtain ⟨hcount, -⟩ := codeAt_cons.1 hcode
  rw [← hnext] at hop hcount
  have hstep := step_element hop hcount
  have hone : (1 : ℤ).toNat = 1 := rfl
  simp only [executeElement, hdesc, hone] at hstep
  unfold readElement
  dsimp only
  rw [← hagrees.argument_eq, ← hagrees.calls_eq]
  cases hargument : (element w s.argument 1 desc).2 with
  | none =>
    simp only [hargument] at hstep
    exact ⟨_, Halts.of_step hstep, hagrees.variables_eq, rfl, rfl⟩
  | some argument =>
    simp only [hargument] at hstep
    refine ⟨_, (Goes.of_step hstep).mono (Nat.zero_le _), ?_, rfl, hagrees.variables_eq, rfl, rfl⟩
    rw [hnext]

theorem element_follows {scalar : UInt8} {es : List Expr} {pc : ℕ}
    (hdims : w.sdl_arg_desc.iad_dimensions ≤ w.sdl_arg_desc.iad_rpt.length)
    (hcode : CodeAt w.sdl_arg_compiled pc ((Stmt.element scalar es).code pc))
    (hwf : (Stmt.element scalar es).WellFormed w.sdl_arg_desc s.sdl_arg_variables.length)
    (hroom : s.stack.length + heights es.reverse ≤ STACK_SIZE) (hagrees : Agrees s r) (hnext : s.next = pc)
    (rounds : ℕ) : Follows w s rounds (pc + ((Stmt.element scalar es).code pc).length) s.stack
      ((Stmt.element scalar es).read w rounds r) := by
  obtain ⟨hscalar, hcount, hwf⟩ := hwf
  rw [element_code, scalarCode] at hcode ⊢
  obtain ⟨hcode, helement⟩ := codeAt_append.1 hcode
  obtain ⟨hexprs, hop⟩ := codeAt_append.1 hcode
  obtain ⟨hop, hvalue⟩ := codeAt_cons.1 hop
  obtain ⟨hvalue, -⟩ := codeAt_cons.1 hvalue
  have hgoes := exprs_goes es.reverse (by rw [hnext]; exact hexprs)
    (fun e he => hwf e (List.mem_reverse.1 he)) hroom
  rw [values_reverse] at hgoes
  unfold Stmt.read
  rw [← hagrees.variables_eq]
  cases hvs : values s.sdl_arg_variables es with
  | none =>
    simp only [hvs, Option.map_none] at hgoes
    obtain ⟨next, stack, hhalts⟩ := hgoes
    exact ⟨_, hhalts, hagrees.of_eq rfl rfl rfl⟩
  | some ns =>
    simp only [hvs, Option.map_some, List.reverse_reverse, hnext] at hgoes
    refine Follows.of_goes ?_ hgoes
    generalize hs1 : ({ s with
      next := pc + (es.reverse.flatMap Expr.code).length
      stack := ns ++ s.stack } : State) = s1 at *
    have hnext1 : s1.next = pc + (es.reverse.flatMap Expr.code).length := by rw [← hs1]
    have hstack1 : s1.stack = ns ++ s.stack := by rw [← hs1]
    have hagrees1 : Agrees s1 r := by
      rw [← hs1]
      exact hagrees.of_eq rfl rfl rfl
    rw [← hnext1] at hop hvalue
    have hstep := step_scalar hop hvalue
    have hsub := subscripts_spec (w.sdl_arg_desc.iad_rpt.take w.sdl_arg_desc.iad_dimensions) ns s.stack
      (by rw [values_length hvs, hcount, List.length_take, Nat.min_eq_left hdims]) 0
    have hindex : w.sdl_arg_desc.iad_rpt[((scalar.toNat : ℕ) : ℤ).toNat]? =
        some w.sdl_arg_desc.iad_rpt[scalar.toNat] := by
      rw [Int.toNat_natCast, List.getElem?_eq_getElem hscalar]
    have hindex' : w.sdl_arg_desc.iad_rpt[scalar.toNat]? = some w.sdl_arg_desc.iad_rpt[scalar.toNat] :=
      List.getElem?_eq_getElem hscalar
    unfold executeScalar at hstep
    rw [if_neg (by omega), hstack1] at hstep
    simp only [elementAt]
    cases hout : outside? (w.sdl_arg_desc.iad_rpt.take w.sdl_arg_desc.iad_dimensions) ns with
    | some e =>
      simp only [hout] at hsub
      simp only [hsub] at hstep
      exact ⟨s1, Halts.of_step hstep, hagrees1⟩
    | none =>
      simp only [hout] at hsub
      obtain ⟨y, hy, hsum⟩ := hsub
      rw [zero_add] at hsum
      simp only [hy, hindex, SLONG_mul _ _ _ hsum] at hstep
      simp only [hindex']
      refine Follows.of_goes ?_ ((Goes.of_step hstep).mono (Nat.zero_le _))
      have hcodeElement : CodeAt w.sdl_arg_compiled (s1.next + 3) [op_element, 1] := by
        rw [hnext1]
        simpa [Nat.add_assoc] using helement
      have hlength : pc + ((es.reverse.flatMap Expr.code ++
          [op_scalar, (scalar.toNat : ℤ), (es.length : ℤ)]) ++ [op_element, 1]).length =
          s1.next + 3 + 2 := by
        rw [hnext1]
        simp
        omega
      rw [hlength]
      refine readElement_follows (s1.next + 3) ?_ ?_ ?_ hcodeElement rounds
      · exact hagrees1.of_eq rfl rfl rfl
      · rfl
      · rfl

/-! ## Loops -/

theorem readLoop_length {body : Reading → Reading × Status}
    (hbody : ∀ r, (body r).1.sdl_arg_variables.length = r.sdl_arg_variables.length) (i : ℕ)
    (upper increment : ℤ) (rounds : ℕ) (r : Reading) :
    (readLoop body i upper increment rounds r).1.sdl_arg_variables.length =
      r.sdl_arg_variables.length := by
  induction rounds generalizing r with
  | zero => rfl
  | succ rounds ih =>
    rw [readLoop]
    split_ifs
    · rfl
    · have hlength := hbody r
      match hresult : body r with
      | (r', .finished) =>
        rw [hresult] at hlength
        refine (ih _).trans ?_
        rw [← hlength]
        exact List.length_set
      | (r', .stopped stop) =>
        rw [hresult] at hlength
        exact hlength
      | (r', .unfinished) =>
        rw [hresult] at hlength
        exact hlength

/-- There are as many variables as before. -/
theorem read_length (w : Walk) (rounds : ℕ) (stmt : Stmt) (r : Reading) :
    (stmt.read w rounds r).1.sdl_arg_variables.length = r.sdl_arg_variables.length := by
  induction stmt generalizing r with
  | loop i range body ih =>
    unfold Stmt.read
    split
    · refine (readLoop_length ih ..).trans ?_
      exact List.length_set
    · rfl
  | element scalar es =>
    unfold Stmt.read
    split
    · rfl
    · split
      · rfl
      · unfold readElement
        dsimp only
        split <;> rfl

/-- The steps of one round: the variable is assigned and compared, and the body is followed by the jump
back. -/
theorem readLoop_follows {body : Reading → Reading × Status} {i : ℕ} {upper increment : ℤ}
    {stack : List ℤ} {exit label pc k : ℕ} {rounds n : ℕ} (hle : n ≤ rounds)
    (hlength : ∀ r, (body r).1.sdl_arg_variables.length = r.sdl_arg_variables.length)
    (hbody : ∀ (s : State) (r : Reading), s.next = label + 3 → s.stack = increment :: upper :: stack →
      r.sdl_arg_variables.length = k → Agrees s r →
      Follows w s rounds pc (increment :: upper :: stack) (body r))
    (hlabel : CodeAt w.sdl_arg_compiled label [op_iterate, (i : ℤ), (exit : ℤ)])
    (hgoto : CodeAt w.sdl_arg_compiled pc [op_goto, (label : ℤ)])
    (s0 : State) (hlt : i < k) (hk : s0.sdl_arg_variables.length = k)
    (hstack : s0.stack = increment :: upper :: stack) {value : ℤ}
    (hstep : step w s = iterate i value exit (label + 3) s0)
    (hagrees : Agrees { s0 with sdl_arg_variables := s0.sdl_arg_variables.set i value } r) :
    Follows w s n exit stack (readLoop body i upper increment n r) := by
  induction n generalizing s s0 value r with
  | zero =>
    unfold iterate at hstep
    rw [hstack] at hstep
    dsimp only at hstep
    by_cases hover : value > upper
    · rw [if_pos hover] at hstep
      exact ⟨_, (Goes.of_step hstep).mono (Nat.zero_le _), hagrees.of_eq rfl rfl rfl⟩
    · rw [if_neg hover] at hstep
      exact ⟨_, (Goes.of_step hstep).mono (Nat.zero_le _), hagrees.of_eq rfl rfl rfl⟩
  | succ n ih =>
    have hvalue : r.sdl_arg_variables.getD i 0 = value := by
      have hvars : s0.sdl_arg_variables.set i value = r.sdl_arg_variables := hagrees.variables_eq
      rw [← hvars]
      simp [hk, hlt]
    have hlt' : r.sdl_arg_variables.length = k := by
      have hvars : s0.sdl_arg_variables.set i value = r.sdl_arg_variables := hagrees.variables_eq
      rw [← hvars, List.length_set, hk]
    unfold iterate at hstep
    rw [hstack] at hstep
    dsimp only at hstep
    rw [readLoop, hvalue]
    by_cases hover : value > upper
    · rw [if_pos hover] at hstep ⊢
      exact ⟨_, (Goes.of_step hstep).mono (Nat.zero_le _), rfl, rfl, hagrees.of_eq rfl rfl rfl⟩
    · rw [if_neg hover] at hstep ⊢
      generalize hs1 : ({ s0 with
        next := label + 3, sdl_arg_variables := s0.sdl_arg_variables.set i value } : State) = s1 at hstep
      have hagrees1 : Agrees s1 r := by
        rw [← hs1]
        exact hagrees.of_eq rfl rfl rfl
      have hround := hbody s1 r (by rw [← hs1]) (by rw [← hs1]; exact hstack) hlt' hagrees1
      have hlength' := hlength r
      have hgoes : Goes (step w) 1 s s1 := Goes.of_step (by rw [hstep, ← hs1, hstack])
      match hresult : body r with
      | (r', .stopped stop) =>
        rw [hresult] at hround
        exact hround.of_goes (hgoes.mono (Nat.zero_le _))
      | (r', .unfinished) =>
        rw [hresult] at hround
        obtain ⟨s2, hgoes2, hagrees2⟩ := hround
        exact ⟨s2, (hgoes.trans hgoes2).mono (by omega), hagrees2⟩
      | (r', .finished) =>
        rw [hresult] at hround hlength'
        dsimp only at hlength'
        obtain ⟨s2, hgoes2, hnext2, hstack2, hagrees2⟩ := hround
        -- the jump back to `op_iterate`
        obtain ⟨hop, htarget⟩ := codeAt_cons.1 hgoto
        obtain ⟨htarget, -⟩ := codeAt_cons.1 htarget
        rw [← hnext2] at hop htarget
        have hback := step_goto hop htarget
        obtain ⟨hop', hi⟩ := codeAt_cons.1 hlabel
        obtain ⟨hi, hexit⟩ := codeAt_cons.1 hi
        obtain ⟨hexit, -⟩ := codeAt_cons.1 hexit
        have hk2 : s2.sdl_arg_variables.length = k := by
          rw [hagrees2.variables_eq, hlength', hlt']
        have hassigned : s2.sdl_arg_variables.set i (SLONG (s2.sdl_arg_variables.getD i 0 + increment)) =
            (r'.assign i (SLONG (r'.sdl_arg_variables.getD i 0 + increment))).sdl_arg_variables := by
          rw [hagrees2.variables_eq]
          rfl
        have hall : Goes (step w) 1 s { s2 with next := label } :=
          (hgoes.trans (hgoes2.trans (Goes.of_step hback))).mono (by omega)
        have hfields : ({ s2 with next := label } : State).next = label ∧
            ({ s2 with next := label } : State).stack = increment :: upper :: stack ∧
            ({ s2 with next := label } : State).sdl_arg_variables.length = k ∧
            Agrees { ({ s2 with next := label } : State) with
              sdl_arg_variables := ({ s2 with next := label } : State).sdl_arg_variables.set i
                (SLONG (({ s2 with next := label } : State).sdl_arg_variables.getD i 0 + increment)) }
              (r'.assign i (SLONG (r'.sdl_arg_variables.getD i 0 + increment))) :=
          ⟨rfl, hstack2, hk2, hassigned, hagrees2.argument_eq, hagrees2.calls_eq⟩
        generalize ({ s2 with next := label } : State) = s3 at hall hfields
        obtain ⟨hnext3, hstack3, hk3, hagrees3⟩ := hfields
        rw [← hnext3] at hop' hi hexit
        have hagain := step_iterate hop' hi hexit (hlt.trans_eq hk3.symm) hstack3
        rw [hnext3] at hagain
        have hnextRound := ih (by omega) s3 hk3 hstack3 hagain hagrees3
        dsimp only
        match hrest : readLoop body i upper increment n
            (r'.assign i (SLONG (r'.sdl_arg_variables.getD i 0 + increment))), hnextRound with
        | (r'', .finished), ⟨s3, hgoes3, hdone⟩ =>
          exact ⟨s3, (hall.trans hgoes3).mono (Nat.zero_le _), hdone⟩
        | (r'', .stopped stop), ⟨s3, hhalts, hdone⟩ => exact ⟨s3, hall.halts hhalts, hdone⟩
        | (r'', .unfinished), ⟨s3, hgoes3, hdone⟩ =>
          exact ⟨s3, (hall.trans hgoes3).mono (by omega), hdone⟩

/-- The machine follows the reading of a description from where its code begins. -/
theorem stmt_follows {stmt : Stmt} {pc : ℕ}
    (hdims : w.sdl_arg_desc.iad_dimensions ≤ w.sdl_arg_desc.iad_rpt.length)
    (hcode : CodeAt w.sdl_arg_compiled pc (stmt.code pc))
    (hwf : stmt.WellFormed w.sdl_arg_desc s.sdl_arg_variables.length)
    (hroom : s.stack.length + stmt.height ≤ STACK_SIZE) (hagrees : Agrees s r) (hnext : s.next = pc)
    (rounds : ℕ) :
    Follows w s rounds (pc + (stmt.code pc).length) s.stack (stmt.read w rounds r) := by
  induction stmt generalizing s r pc with
  | element scalar es => exact element_follows hdims hcode hwf hroom hagrees hnext rounds
  | loop i range body ih =>
    obtain ⟨hi, ⟨hlower, hupper, hincrement⟩, hbody⟩ := hwf
    simp only [Stmt.height] at hroom
    have hbounds : range.code = [range.upper, range.increment, range.lower].flatMap Expr.code := by
      simp [Range.code]
    rw [Stmt.code] at hcode ⊢
    generalize hl : pc + range.code.length + 1 = label at *
    have hexit : pc + (range.code ++ ([op_loop, op_iterate, (i.toNat : ℤ),
        ((label + 3 + (body.code (label + 3)).length + 2 : ℕ) : ℤ)] ++ (body.code (label + 3) ++
          [op_goto, (label : ℤ)]))).length = label + 3 + (body.code (label + 3)).length + 2 := by
      simp only [List.length_append, List.length_cons, List.length_nil]
      omega
    rw [hexit]
    generalize label + 3 + (body.code (label + 3)).length + 2 = exit at *
    obtain ⟨hrange, hcode⟩ := codeAt_append.1 hcode
    obtain ⟨hhead, hcode⟩ := codeAt_append.1 hcode
    obtain ⟨hinner, hgoto⟩ := codeAt_append.1 hcode
    obtain ⟨hop, hlabel⟩ := codeAt_cons.1 hhead
    obtain ⟨hop', hlabel'⟩ := codeAt_cons.1 hlabel
    obtain ⟨hivar, hlabel'⟩ := codeAt_cons.1 hlabel'
    obtain ⟨hexitWord, -⟩ := codeAt_cons.1 hlabel'
    have hstart : pc + range.code.length + [op_loop, op_iterate, (i.toNat : ℤ), (exit : ℤ)].length =
        label + 3 := by
      simp only [List.length_cons, List.length_nil]
      omega
    rw [hstart] at hinner hgoto
    rw [hl] at hlabel
    have hgoes := exprs_goes [range.upper, range.increment, range.lower]
      (by rw [hnext, ← hbounds]; exact hrange) (by simp [hlower, hupper, hincrement]) (by omega)
    rw [← hbounds] at hgoes
    unfold Stmt.read
    rw [← hagrees.variables_eq]
    cases hvs : values s.sdl_arg_variables [range.upper, range.increment, range.lower] with
    | none =>
      rw [hvs] at hgoes
      obtain ⟨next, stack, hhalts⟩ := hgoes
      exact ⟨_, hhalts, hagrees.of_eq rfl rfl rfl⟩
    | some vs =>
      obtain ⟨upper, increment, lower, rfl⟩ : ∃ x y z, vs = [x, y, z] :=
        List.length_eq_three.1 (values_length hvs)
      rw [hvs] at hgoes
      refine Follows.of_goes ?_ hgoes
      dsimp only
      have hnext1 : s.next + range.code.length = pc + range.code.length := by rw [hnext]
      have hagain : s.next + range.code.length + 4 = label + 3 := by omega
      have hloop : step w { s with
            next := s.next + range.code.length
            stack := [upper, increment, lower].reverse ++ s.stack } =
          iterate i.toNat lower exit (s.next + range.code.length + 4)
            { s with next := s.next + range.code.length, stack := increment :: upper :: s.stack } :=
        step_loop (by rw [hnext]; exact hop) (by rw [hnext]; exact hivar)
          (by rw [hnext]; exact hexitWord) hi rfl
      rw [hagain] at hloop
      refine readLoop_follows le_rfl (read_length w rounds body) ?_ hlabel hgoto
        { s with next := s.next + range.code.length, stack := increment :: upper :: s.stack } hi rfl rfl hloop
        ⟨?_, hagrees.argument_eq, hagrees.calls_eq⟩
      · intro s1 r1 hnext1 hstack1 hk1 hagrees1
        have hroom1 : s1.stack.length + body.height ≤ STACK_SIZE := by
          rw [hstack1]
          simp only [List.length_cons]
          omega
        have hfollows := ih hinner (by rw [hagrees1.variables_eq, hk1]; exact hbody) hroom1 hagrees1 hnext1
        rw [hstack1] at hfollows
        exact hfollows
      · show s.sdl_arg_variables.set i.toNat lower = r.sdl_arg_variables.set i.toNat lower
        rw [hagrees.variables_eq]

/-! ## Calls -/

/-- Elements are called when the array is written, or else in front of the high water. -/
def called (argument : array_slice) (desc : dsc) : Bool :=
  argument.slice_direction = .slc_writing_array ∨ desc.dsc_address < argument.slice_high_water

/-- A callback does not change the direction, and not the high water either when it fetches. -/
def Keeps (callback : array_slice → ℕ → dsc → Option array_slice) : Prop :=
  ∀ argument count desc argument', callback argument count desc = some argument' →
    ∀ d, called argument' d = called argument d

/-- The calls are those of the elements that have to be called. -/
structure CallsElements (argument : array_slice) (r : Reading) : Prop where
  calls : r.calls = (r.elements.filter (called argument)).map (Prod.mk 1)
  same : ∀ d, called r.argument d = called argument d

theorem readElement_calls {argument : array_slice} (hkeeps : Keeps w.sdl_arg_callback)
    (h : CallsElements argument r) (desc : dsc) : CallsElements argument (readElement w r desc).1 := by
  have hcalls : (if (element w r.argument 1 desc).1 = true then r.calls ++ [(1, desc)] else r.calls) =
      ((r.elements ++ [desc]).filter (called argument)).map (Prod.mk 1) := by
    have hfirst : (element w r.argument 1 desc).1 = called argument desc := by
      rw [← h.same desc]
      unfold element called
      split_ifs with hcalled <;> simp [hcalled]
    rw [hfirst, List.filter_append, List.map_append, ← h.calls]
    cases hcalled : called argument desc <;> simp [hcalled]
  unfold readElement
  dsimp only
  cases hresult : (element w r.argument 1 desc).2 with
  | none => exact ⟨hcalls, h.same⟩
  | some argument' =>
    refine ⟨hcalls, fun d => Eq.trans ?_ (h.same d)⟩
    unfold element at hresult
    split_ifs at hresult with hcalled
    · exact hkeeps _ _ _ _ hresult d
    · cases hresult
      rfl

theorem read_calls {argument : array_slice} (hkeeps : Keeps w.sdl_arg_callback) (stmt : Stmt)
    (h : CallsElements argument r) (rounds : ℕ) :
    CallsElements argument (stmt.read w rounds r).1 := by
  induction stmt generalizing r with
  | element scalar es =>
    unfold Stmt.read
    split
    · exact h
    · split
      · exact h
      · exact readElement_calls hkeeps h _
  | loop i range body ih =>
    have hloop (upper increment : ℤ) (n : ℕ) {r : Reading} (h : CallsElements argument r) :
        CallsElements argument (readLoop (body.read w rounds) i.toNat upper increment n r).1 := by
      induction n generalizing r with
      | zero => exact h
      | succ n ihn =>
        rw [readLoop]
        split_ifs
        · exact h
        · have hbody := ih h
          match hresult : body.read w rounds r with
          | (r', .finished) =>
            rw [hresult] at hbody
            exact ihn ⟨hbody.calls, hbody.same⟩
          | (r', .stopped stop) =>
            rw [hresult] at hbody
            exact hbody
          | (r', .unfinished) =>
            rw [hresult] at hbody
            exact hbody
    unfold Stmt.read
    split
    · exact hloop _ _ _ ⟨h.calls, h.same⟩
    · exact h

/-! ## Descriptions -/

/-- A well-formed description, the code of which fits the buffer and the evaluation stack. -/
structure Fits (desc : InternalArrayDesc) (vars : ℕ) (stmt : Stmt) : Prop where
  dimensions_le : desc.iad_dimensions ≤ MAX_ARRAY_DIMENSIONS
  repeats : desc.iad_dimensions ≤ desc.iad_rpt.length
  wellFormed : stmt.WellFormed desc vars
  code_le : (stmt.code 0).length + 1 ≤ COMPILE_SIZE
  height_le : stmt.height ≤ STACK_SIZE

theorem compileDescription_spec {desc : InternalArrayDesc} {vars : ℕ} {stmt : Stmt}
    (h : Fits desc vars stmt) (sdl_length : ℕ) (rest : List UInt8) :
    compileDescription desc sdl_length (stmt.bytes ++ rest) = .ok (rest, stmt.code 0 ++ [op_exit]) := by
  have hcode := h.code_le
  have hplace : place (some ⟨desc, sdl_length, []⟩) = 0 := rfl
  have hroom : Room (some ⟨desc, sdl_length, []⟩)
      (stmt.code (place (some ⟨desc, sdl_length, []⟩))).length := by
    rw [room_some, hplace, List.length_nil]
    omega
  have hcompile := @compile_stmt (stmt.bytes ++ rest).length rest _ _ _ h.dimensions_le h.wellFormed
    (by simp) hroom
  rw [hplace] at hcompile
  have hexit : stuff op_exit (emit (some ⟨desc, sdl_length, []⟩) (stmt.code 0)) =
      .ok (emit (some ⟨desc, sdl_length, []⟩) (stmt.code 0 ++ [op_exit])) := by
    rw [stuff_spec (by simpa using hcode), emit_emit]
  unfold compileDescription
  simp only [bind, Except.bind, hcompile, hexit]
  rfl

/-- The reading at the start. -/
def begun (vars : List ℤ) (argument : array_slice) : Reading := ⟨vars, argument, [], []⟩

/-- What the code of a description has done when it stops, or when it has made a step for each of the
rounds. -/
def Executes (w : Walk) (start : State) (rounds : ℕ) : Reading × Status → Prop
  | (r, .finished) => ∃ s, Halts (step w) start (.exit, s) ∧ s.stack = start.stack ∧ Agrees s r
  | (r, .stopped stop) => ∃ s, Halts (step w) start (stop, s) ∧ Agrees s r
  | (r, .unfinished) => ∃ s, Goes (step w) rounds start s ∧ Agrees s r

/-- Compiled and executed, a description calls the elements that its direct reading calls, in the same
order, and stops where the reading does. Calls are left out only for elements behind the high water. -/
theorem execute_follows_reading {desc : InternalArrayDesc} {stmt : Stmt} {vars : List ℤ}
    (h : Fits desc vars.length stmt) (array : ℤ)
    (callback : array_slice → ℕ → dsc → Option array_slice) (argument : array_slice) (sdl_length : ℕ)
    (rest : List UInt8) : ∃ code,
      compileDescription desc sdl_length (stmt.bytes ++ rest) = .ok (rest, code) ∧
      ∀ rounds,
        Executes ⟨desc, array, callback, code⟩ (entered vars argument) rounds
          (stmt.read ⟨desc, array, callback, code⟩ rounds (begun vars argument)) ∧
        (Keeps callback → CallsElements argument
          (stmt.read ⟨desc, array, callback, code⟩ rounds (begun vars argument)).1) := by
  refine ⟨_, compileDescription_spec h sdl_length rest, fun rounds => ⟨?_, fun hkeeps => ?_⟩⟩
  · have hall := codeAt_zero (stmt.code 0 ++ [op_exit])
    obtain ⟨hcode, hexit⟩ := codeAt_append.1 hall
    obtain ⟨hexit, -⟩ := codeAt_cons.1 hexit
    rw [Nat.zero_add] at hexit
    have hfollows := @stmt_follows ⟨desc, array, callback, stmt.code 0 ++ [op_exit]⟩
      (entered vars argument) (begun vars argument) _ _ h.repeats hcode h.wellFormed
      (by simpa [entered] using h.height_le) ⟨rfl, rfl, rfl⟩ rfl rounds
    rw [Nat.zero_add] at hfollows
    match hread : stmt.read ⟨desc, array, callback, stmt.code 0 ++ [op_exit]⟩ rounds
        (begun vars argument), hfollows with
    | (r, .finished), ⟨s, hgoes, hnext, hstack, hagrees⟩ =>
      rw [← hnext] at hexit
      exact ⟨s, hgoes.halts (Halts.of_step (step_exit hexit)), hstack, hagrees⟩
    | (r, .stopped stop), ⟨s, hhalts, hagrees⟩ => exact ⟨s, hhalts, hagrees⟩
    | (r, .unfinished), ⟨s, hgoes, hagrees⟩ => exact ⟨s, hgoes, hagrees⟩
  · have hbegun : CallsElements argument (begun vars argument) := ⟨rfl, fun _ => rfl⟩
    exact read_calls hkeeps stmt hbegun rounds

/-- An array of the elements 1 and 2. -/
def twoElements : InternalArrayDesc := ⟨1, 4, [⟨⟨9, 0, 4, 0, 0, 0⟩, 1, 1, 2⟩]⟩

/-- A slice that is fetched from an array of which nothing is stored. -/
def unstored : array_slice := ⟨⟨9, 0, 4, 0, 0, 5000⟩, 5008, 1000, 1000, 4, .slc_reading_array, 0⟩

/-- All elements of the array. -/
def wholeArray : Stmt := .loop 0 (.do1 (.tiny 2)) (.element 0 [.var 0])

theorem execute_follows_reading_wholeArray : ∃ code,
    compileDescription twoElements 20 (wholeArray.bytes ++ [255]) = .ok ([255], code) ∧
    ∀ rounds,
      Executes ⟨twoElements, 1000, fun a _ _ => some a, code⟩ (entered [0] unstored) rounds
        (wholeArray.read ⟨twoElements, 1000, fun a _ _ => some a, code⟩ rounds (begun [0] unstored)) ∧
      (Keeps (fun a _ _ => some a) → CallsElements unstored
        (wholeArray.read ⟨twoElements, 1000, fun a _ _ => some a, code⟩ rounds (begun [0] unstored)).1) := by
  have hfits : Fits twoElements [(0 : ℤ)].length wholeArray :=
    ⟨by decide, by decide, ⟨by decide, ⟨trivial, trivial, trivial⟩, by decide, rfl, by
      intro e he
      rw [List.mem_singleton.1 he]
      exact Nat.zero_lt_one⟩, by decide, by decide⟩
  exact execute_follows_reading hfits 1000 (fun a _ _ => some a) unstored 20 [255]

/-- Both elements are read, but the callback is called for none of them. -/
theorem unstored_passed : ∃ s, Halts
      (step ⟨twoElements, 1000, fun a _ _ => some a, wholeArray.code 0 ++ [op_exit]⟩)
      (entered [0] unstored) (.exit, s) ∧ s.calls = [] ∧
    (wholeArray.read ⟨twoElements, 1000, fun a _ _ => some a, []⟩ 3 (begun [0] unstored)).2 = .finished ∧
    (wholeArray.read ⟨twoElements, 1000, fun a _ _ => some a, []⟩ 3
      (begun [0] unstored)).1.elements.map dsc.dsc_address = [1000, 1004] := by
  refine ⟨_, ⟨30, rfl⟩, rfl, ?_, ?_⟩
  · decide +kernel
  · decide +kernel

end FirebirdCore.Sdl
