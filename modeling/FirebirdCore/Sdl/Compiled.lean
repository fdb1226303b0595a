import FirebirdCore.Sdl.Reading

/-!
# What is compiled

A well-formed description is compiled to its code, and what is only parsed leaves no code.
-/
namespace FirebirdCore.Sdl

variable {arg : Option sdl_arg} {fuel : ℕ} {rest : List UInt8}

/-! ## Words -/

/-- The parameter block with further words. -/
def emit (arg : Option sdl_arg) (words : List ℤ) : Option sdl_arg :=
  arg.map fun a => { a with sdl_arg_compiled := a.sdl_arg_compiled ++ words }

/-- There is room for so many words. -/
def Room (arg : Option sdl_arg) (words : ℕ) : Prop :=
  ∀ a ∈ arg, a.sdl_arg_compiled.length + words ≤ COMPILE_SIZE

@[simp] theorem emit_none (words : List ℤ) : emit none words = none := rfl

@[simp] theorem emit_some (a : sdl_arg) (words : List ℤ) :
    emit (some a) words = some { a with sdl_arg_compiled := a.sdl_arg_compiled ++ words } := rfl

@[simp] theorem emit_nil (arg : Option sdl_arg) : emit arg [] = arg := by
  cases arg <;> simp

@[simp] theorem emit_emit (arg : Option sdl_arg) (words words' : List ℤ) :
    emit (emit arg words) words' = emit arg (words ++ words') := by
  cases arg <;> simp

theorem room_none (words : ℕ) : Room none words := fun _ h => by cases h

@[simp] theorem room_some (a : sdl_arg) (words : ℕ) :
    Room (some a) words ↔ a.sdl_arg_compiled.length + words ≤ COMPILE_SIZE := by
  simp [Room]

theorem Room.mono {m n : ℕ} (h : Room arg n) (hle : m ≤ n) : Room arg m :=
  fun a ha => (Nat.add_le_add_left hle _).trans (h a ha)

theorem Room.emit {words : List ℤ} {n m : ℕ} (h : Room arg n) (hle : words.length + m ≤ n) :
    Room (Sdl.emit arg words) m := by
  cases arg with
  | none => exact room_none m
  | some a =>
    rw [room_some] at h
    rw [emit_some, room_some, List.length_append]
    omega

theorem stuff_spec {value : ℤ} (h : Room arg 1) : stuff value arg = .ok (emit arg [value]) := by
  cases arg with
  | none => rfl
  | some a =>
    rw [room_some] at h
    rw [stuff, if_neg (by omega)]
    rfl

theorem stuffAll_spec {words : List ℤ} (h : Room arg words.length) :
    stuffAll words arg = .ok (emit arg words) := by
  induction words generalizing arg with
  | nil => rw [stuffAll, emit_nil]
  | cons value words ih =>
    rw [List.length_cons] at h
    rw [stuffAll, stuff_spec (h.mono (by omega))]
    have hroom : Room (emit arg [value]) words.length := h.emit (by simp; omega)
    have hrest := ih hroom
    rw [emit_emit] at hrest
    exact hrest

/-! ## Expressions -/

theorem compile_byte (v : Verb) (p : List UInt8) :
    compile (fuel + 1) (v.byte :: p) arg = compileVerb (compile fuel) v p arg := by
  simp only [compile, verb?_byte]

theorem nextBytes_spec (bytes : List UInt8) : nextBytes bytes.length (bytes ++ rest) =
    .ok (bytes.foldr (fun b n => b.toNat + 256 * n) 0, rest) := by
  induction bytes with
  | nil => rfl
  | cons b bytes ih =>
    rw [List.length_cons, List.cons_append, nextBytes]
    simp only [next, bind, Except.bind, ih, pure, Except.pure, List.foldr_cons]

theorem compileLiteral_spec (bytes : List UInt8) (h : Room arg 2) :
    compileLiteral bytes.length (bytes ++ rest) arg =
      .ok (rest, emit arg [op_literal, literal bytes]) := by
  unfold compileLiteral
  rw [nextBytes_spec]
  simp only [bind, Except.bind]
  rw [stuffAll_spec h]
  rfl

/-- An expression is compiled to its code. -/
def Compiles (compile : Compiler) (bytes : List UInt8) (code : List ℤ) : Prop :=
  ∀ rest arg, Room arg code.length → compile (bytes ++ rest) arg = .ok (rest, emit arg code)

theorem compileBinary_spec {compile : Compiler} {x y : Expr} (hx : Compiles compile x.bytes x.code)
    (hy : Compiles compile y.bytes y.code) (o : ℤ)
    (h : Room arg (x.code ++ (y.code ++ [o])).length) :
    compileBinary compile o (x.bytes ++ (y.bytes ++ rest)) arg =
      .ok (rest, emit arg (x.code ++ (y.code ++ [o]))) := by
  simp only [List.length_append, List.length_singleton] at h
  unfold compileBinary
  rw [hx _ _ (h.mono (by omega))]
  simp only [bind, Except.bind]
  rw [hy _ _ (h.emit (by omega)), emit_emit]
  dsimp only
  rw [stuff_spec (h.emit (by rw [List.length_append]; omega)), emit_emit, List.append_assoc]
  rfl

theorem compile_expr (e : Expr) (hfuel : e.bytes.length ≤ fuel) :
    Compiles (compile fuel) e.bytes e.code := by
  induction e generalizing fuel with
  | tiny b0 =>
    intro rest arg h
    obtain ⟨fuel, rfl⟩ : ∃ n, fuel = n + 1 := Nat.exists_eq_add_one_of_ne_zero (by simp [Expr.bytes] at hfuel; omega)
    exact (compile_byte _ _).trans (compileLiteral_spec [b0] h)
  | short b0 b1 =>
    intro rest arg h
    obtain ⟨fuel, rfl⟩ : ∃ n, fuel = n + 1 := Nat.exists_eq_add_one_of_ne_zero (by simp [Expr.bytes] at hfuel; omega)
    exact (compile_byte _ _).trans (compileLiteral_spec [b0, b1] h)
  | long b0 b1 b2 b3 =>
    intro rest arg h
    obtain ⟨fuel, rfl⟩ : ∃ n, fuel = n + 1 := Nat.exists_eq_add_one_of_ne_zero (by simp [Expr.bytes] at hfuel; omega)
    exact (compile_byte _ _).trans (compileLiteral_spec [b0, b1, b2, b3] h)
  | var i =>
    intro rest arg h
    obtain ⟨fuel, rfl⟩ : ∃ n, fuel = n + 1 := Nat.exists_eq_add_one_of_ne_zero (by simp [Expr.bytes] at hfuel; omega)
    have hwords : stuffAll [op_variable, (i.toNat : ℤ)] arg = .ok (emit arg (Expr.var i).code) :=
      stuffAll_spec h
    refine (compile_byte _ _).trans ?_
    simp only [compileVerb, List.append_eq, List.cons_append, List.nil_append, next, bind, Except.bind,
      hwords]
    rfl
  | binary o x y ihx ihy =>
    intro rest arg h
    simp only [Expr.bytes, List.length_cons, List.length_append] at hfuel
    obtain ⟨fuel, rfl⟩ : ∃ n, fuel = n + 1 := Nat.exists_eq_add_one_of_ne_zero (by omega)
    have hx : Compiles (compile fuel) x.bytes x.code := ihx (by omega)
    have hy : Compiles (compile fuel) y.bytes y.code := ihy (by omega)
    have hspec : compileBinary (compile fuel) o.word (x.bytes ++ (y.bytes ++ rest)) arg =
        .ok (rest, emit arg (x.code ++ (y.code ++ [o.word]))) := compileBinary_spec hx hy o.word h
    rw [← List.append_assoc] at hspec
    refine (compile_byte _ _).trans ?_
    cases o <;> exact hspec

/-! ## Elements -/

/-- Where the expressions begin. -/
def begins (rest : List UInt8) : List Expr → List (List UInt8)
  | [] => []
  | e :: es => ((e :: es).flatMap Expr.bytes ++ rest) :: begins rest es

@[simp] theorem begins_length (rest : List UInt8) (es : List Expr) : (begins rest es).length = es.length := by
  induction es with
  | nil => rfl
  | cons e es ih => simp [begins, ih]

theorem forall₂_begins (rest : List UInt8) (es : List Expr) :
    List.Forall₂ (fun p e => ∃ t, p = Expr.bytes e ++ t) (begins rest es) es := by
  induction es with
  | nil => exact .nil
  | cons e es ih => exact .cons ⟨_, by rw [List.flatMap_cons, List.append_assoc]⟩ ih

theorem saveExpressions_spec {compile : Compiler} {es : List Expr}
    (hes : ∀ e ∈ es, Compiles compile e.bytes e.code) {saved : List (List UInt8)}
    (hlength : saved.length + es.length ≤ MAX_ARRAY_DIMENSIONS) :
    saveExpressions compile es.length (es.flatMap Expr.bytes ++ rest) saved =
      .ok (rest, (begins rest es).reverse ++ saved) := by
  induction es generalizing saved with
  | nil => rfl
  | cons e es ih =>
    obtain ⟨he, hes⟩ := List.forall_mem_cons.1 hes
    rw [List.length_cons] at hlength
    rw [List.length_cons, saveExpressions, if_neg (by omega), List.flatMap_cons, List.append_assoc,
      he _ none (room_none _)]
    simp only [bind, Except.bind]
    rw [ih hes (by rw [List.length_cons]; omega)]
    simp [begins]

theorem compileSaved_spec {compile : Compiler} {ps : List (List UInt8)} {es : List Expr}
    (h : List.Forall₂ (fun p e => ∃ t, p = Expr.bytes e ++ t) ps es)
    (hes : ∀ e ∈ es, Compiles compile e.bytes e.code) (hroom : Room arg (es.flatMap Expr.code).length) :
    compileSaved compile ps arg = .ok (emit arg (es.flatMap Expr.code)) := by
  induction h generalizing arg with
  | nil => simp [compileSaved]
  | cons hp _ ih =>
    obtain ⟨t, rfl⟩ := hp
    obtain ⟨he, hes⟩ := List.forall_mem_cons.1 hes
    rw [List.flatMap_cons, List.length_append] at hroom
    rw [compileSaved, he _ _ (hroom.mono (by omega))]
    simp only [bind, Except.bind]
    rw [ih hes (hroom.emit le_rfl), emit_emit, List.flatMap_cons]

/-- What is compiled for a scalar. -/
def scalarCode (scalar : UInt8) (subscripts : List Expr) : List ℤ :=
  subscripts.reverse.flatMap Expr.code ++
    [op_scalar, (scalar.toNat : ℤ), (subscripts.length : ℤ)]

/-- The array has as many dimensions, where a parameter block is given. -/
def Dimensions (arg : Option sdl_arg) (n : ℕ) : Prop :=
  n ≤ MAX_ARRAY_DIMENSIONS ∧ ∀ a ∈ arg, n = a.sdl_arg_desc.iad_dimensions

theorem checkDimensions_spec {n : ℕ} (h : Dimensions arg n) : checkDimensions n arg = .ok () := by
  cases arg with
  | none => rfl
  | some a => exact if_neg (not_not.2 (h.2 a rfl))

theorem compileScalar_spec {compile : Compiler} {scalar : UInt8} {subscripts : List Expr}
    (hes : ∀ e ∈ subscripts, Compiles compile e.bytes e.code) (hdims : Dimensions arg subscripts.length)
    (hroom : Room arg (scalarCode scalar subscripts).length) :
    compileScalar compile (scalar :: UInt8.ofNat subscripts.length ::
        (subscripts.flatMap Expr.bytes ++ rest)) arg = .ok (rest, emit arg (scalarCode scalar subscripts)) := by
  have hcount : (UInt8.ofNat subscripts.length).toNat = subscripts.length := by
    have := hdims.1
    unfold MAX_ARRAY_DIMENSIONS at this
    rw [UInt8.toNat_ofNat']
    omega
  have hsaved : saveExpressions compile subscripts.length (subscripts.flatMap Expr.bytes ++ rest) [] =
      .ok (rest, (begins rest subscripts).reverse ++ []) :=
    saveExpressions_spec hes (by simpa using hdims.1)
  have hreverse : List.Forall₂ (fun p e => ∃ t, p = Expr.bytes e ++ t)
      (begins rest subscripts).reverse subscripts.reverse :=
    List.rel_reverse (forall₂_begins rest subscripts)
  have hcode : (scalarCode scalar subscripts).length =
      (subscripts.reverse.flatMap Expr.code).length + 3 := by
    simp [scalarCode]
  rw [hcode] at hroom
  have hcompiled : compileSaved compile (begins rest subscripts).reverse arg =
      .ok (emit arg (subscripts.reverse.flatMap Expr.code)) := compileSaved_spec hreverse
    (fun e he => hes e (List.mem_reverse.1 he)) (hroom.mono (by omega))
  have hwords : stuffAll [op_scalar, (scalar.toNat : ℤ), (subscripts.length : ℤ)]
      (emit arg (subscripts.reverse.flatMap Expr.code)) = .ok (emit arg (scalarCode scalar subscripts)) := by
    rw [stuffAll_spec (hroom.emit (by simp)), emit_emit]
    rfl
  rw [List.append_nil] at hsaved
  unfold compileScalar
  simp only [next, bind, Except.bind, hcount, checkDimensions_spec hdims, hsaved, hcompiled, hwords]
  rfl

theorem compile_scalar {scalar : UInt8} {subscripts : List Expr}
    (hfuel : (subscripts.flatMap Expr.bytes).length < fuel) (hdims : Dimensions arg subscripts.length)
    (hroom : Room arg (scalarCode scalar subscripts).length) :
    compile fuel (Verb.isc_sdl_scalar.byte :: scalar :: UInt8.ofNat subscripts.length ::
        (subscripts.flatMap Expr.bytes ++ rest)) arg = .ok (rest, emit arg (scalarCode scalar subscripts)) := by
  obtain ⟨fuel, rfl⟩ : ∃ n, fuel = n + 1 := Nat.exists_eq_add_one_of_ne_zero (by omega)
  rw [compile_byte]
  refine compileScalar_spec (fun e he => compile_expr e ?_) hdims hroom
  obtain ⟨front, back, rfl⟩ := List.append_of_mem he
  simp only [List.flatMap_append, List.flatMap_cons, List.length_append] at hfuel
  omega

theorem element_code (base : ℕ) (scalar : UInt8) (subscripts : List Expr) :
    (Stmt.element scalar subscripts).code base = scalarCode scalar subscripts ++ [op_element, 1] := by
  simp [Stmt.code, scalarCode]

theorem compile_element {scalar : UInt8} {subscripts : List Expr} {a : sdl_arg}
    (hfuel : (Stmt.element scalar subscripts).bytes.length ≤ fuel)
    (hdims : Dimensions (some a) subscripts.length)
    (hroom : Room (some a) ((Stmt.element scalar subscripts).code (place (some a))).length) :
    compile fuel ((Stmt.element scalar subscripts).bytes ++ rest) (some a) =
      .ok (rest, emit (some a) ((Stmt.element scalar subscripts).code (place (some a)))) := by
  rw [element_code, List.length_append] at hroom
  rw [element_code]
  simp only [Stmt.bytes, List.length_cons] at hfuel
  obtain ⟨fuel, rfl⟩ : ∃ n, fuel = n + 1 := Nat.exists_eq_add_one_of_ne_zero (by omega)
  have hparsed : compile fuel (Verb.isc_sdl_scalar.byte :: scalar :: UInt8.ofNat subscripts.length ::
      (subscripts.flatMap Expr.bytes ++ rest)) none = .ok (rest, emit none (scalarCode scalar subscripts)) :=
    compile_scalar (by omega) ⟨hdims.1, fun a h => by cases h⟩ (room_none _)
  have hcompiled : compile fuel (Verb.isc_sdl_scalar.byte :: scalar :: UInt8.ofNat subscripts.length ::
      (subscripts.flatMap Expr.bytes ++ rest)) (some a) =
      .ok (rest, emit (some a) (scalarCode scalar subscripts)) :=
    compile_scalar (by omega) hdims (hroom.mono (by omega))
  have hwords : stuffAll [op_element, ((1 : UInt8).toNat : ℤ)] (emit (some a) (scalarCode scalar subscripts)) =
      .ok (emit (some a) (scalarCode scalar subscripts ++ [op_element, 1])) := by
    rw [stuffAll_spec (hroom.emit (by simp)), emit_emit]
    rfl
  have hone : (1 : UInt8).toNat = 1 := rfl
  have hnot : ¬ ((some a).isSome = true ∧ (1 : UInt8) ≠ 1) := fun h => h.2 rfl
  have hsave : saveExpressions (compile fuel) 1 (Verb.isc_sdl_scalar.byte :: scalar ::
      UInt8.ofNat subscripts.length :: (subscripts.flatMap Expr.bytes ++ rest)) [] =
      .ok (rest, [Verb.isc_sdl_scalar.byte :: scalar ::
        UInt8.ofNat subscripts.length :: (subscripts.flatMap Expr.bytes ++ rest)]) := by
    rw [saveExpressions, if_neg (by decide), hparsed]
    rfl
  have hsaved : compileSaved (compile fuel) [Verb.isc_sdl_scalar.byte :: scalar ::
      UInt8.ofNat subscripts.length :: (subscripts.flatMap Expr.bytes ++ rest)] (some a) =
      .ok (emit (some a) (scalarCode scalar subscripts)) := by
    rw [compileSaved, hcompiled]
    rfl
  rw [hone] at hwords
  refine (compile_byte _ _).trans ?_
  simp only [compileVerb, compileElement, List.append_eq, List.cons_append, next, bind, Except.bind,
    hnot, if_false, hone, hsave, hsaved, hwords]
  rfl

/-! ## Loops -/

theorem code_length (s : Stmt) (base base' : ℕ) : (s.code base).length = (s.code base').length := by
  induction s generalizing base base' with
  | loop i range body ih =>
    simp only [Stmt.code, List.length_append, List.length_cons]
    rw [ih _ (base' + range.code.length + 1 + 3)]
  | element scalar subscripts => rfl

/-- The exit address is set where a zero was left for it. -/
theorem patch_spec (a : sdl_arg) (head inner : List ℤ) (i : ℤ) (label : ℕ)
    (hlabel : label = a.sdl_arg_compiled.length + head.length + 1) :
    patch label (emit (some a) (head ++ ([op_loop, op_iterate, i, 0] ++
        (inner ++ [op_goto, (label : ℤ)])))) =
      emit (some a) (head ++ ([op_loop, op_iterate, i, ((label + 3 + inner.length + 2 : ℕ) : ℤ)] ++
        (inner ++ [op_goto, (label : ℤ)]))) := by
  have hset (front back : List ℤ) (x y : ℤ) (n : ℕ) (hn : n = front.length) :
      (front ++ x :: back).set n y = front ++ y :: back := by
    subst hn
    rw [List.set_append_right _ _ le_rfl, Nat.sub_self, List.set_cons_zero]
  simp only [patch, emit, Option.map_some, Option.some_inj, sdl_arg.mk.injEq, true_and]
  have hsplit (exit : ℤ) : a.sdl_arg_compiled ++ (head ++ ([op_loop, op_iterate, i, exit] ++
      (inner ++ [op_goto, (label : ℤ)]))) = (a.sdl_arg_compiled ++ (head ++ [op_loop, op_iterate, i])) ++
        exit :: (inner ++ [op_goto, (label : ℤ)]) := by
    simp
  rw [hsplit, hsplit, hset _ _ _ _ _ (by simp [hlabel]; omega)]
  congr 2
  simp only [List.length_append, List.length_cons, List.length_nil]
  omega

/-- The bounds that are not given. -/
theorem stuff_one (h : Room arg (Expr.tiny 1).code.length) :
    stuffAll [op_literal, 1] arg = .ok (emit arg (Expr.tiny 1).code) := by
  have hone : literal [1] = 1 := by decide
  have hcode : (Expr.tiny 1).code = [op_literal, 1] := by rw [Expr.code, hone]
  rw [hcode] at h ⊢
  exact stuffAll_spec h

/-- The bounds are compiled one behind the other, the lower one last. -/
theorem bounds_spec {compile : Compiler} {range : Range}
    (hlower : Compiles compile range.lower.bytes range.lower.code)
    (hupper : Compiles compile range.upper.bytes range.upper.code)
    (hincrement : Compiles compile range.increment.bytes range.increment.code)
    (hroom : Room arg range.code.length) : ∃ p1 p2 arg1 arg2,
      skipLower compile range.verb (range.bytes ++ rest) = .ok p1 ∧
      compile p1 arg = .ok (p2, arg1) ∧
      compileIncrement compile range.verb p2 arg1 = .ok (rest, arg2) ∧
      compileLower compile range.verb (range.bytes ++ rest) arg2 = .ok (emit arg range.code) := by
  simp only [Range.code, List.length_append] at hroom
  have hroom0 : Room arg range.upper.code.length := hroom.mono (by omega)
  have hrooms : Room (emit arg range.upper.code)
      (range.increment.code.length + range.lower.code.length) := hroom.emit le_rfl
  have hroom1 : Room (emit arg range.upper.code) range.increment.code.length := hrooms.mono (by omega)
  have hroom2 : Room (emit (emit arg range.upper.code) range.increment.code) range.lower.code.length :=
    hrooms.emit le_rfl
  have hcode : emit arg range.code =
      emit (emit (emit arg range.upper.code) range.increment.code) range.lower.code := by
    rw [emit_emit, emit_emit]
    rfl
  have hskip (verb : Verb) (hverb : verb ≠ .isc_sdl_do1) (t : List UInt8) :
      skipLower compile verb (range.lower.bytes ++ t) = .ok t := by
    rw [skipLower, if_neg hverb, hlower _ _ (room_none _)] <;> rfl
  have hcompile (verb : Verb) (hverb : verb ≠ .isc_sdl_do1) (t : List UInt8) :
      compileLower compile verb (range.lower.bytes ++ t)
        (emit (emit arg range.upper.code) range.increment.code) = .ok (emit arg range.code) := by
    rw [compileLower, if_neg hverb, hlower _ _ hroom2, hcode] <;> rfl
  have hdefault (verb : Verb) (hverb : verb ≠ .isc_sdl_do3) (p : List UInt8)
      (h : range.increment = .tiny 1) :
      compileIncrement compile verb p (emit arg range.upper.code) =
        .ok (p, emit (emit arg range.upper.code) range.increment.code) := by
    rw [h] at hroom1 ⊢
    rw [compileIncrement, if_neg hverb, stuff_one hroom1] <;> rfl
  cases range with
  | do1 upper =>
    refine ⟨upper.bytes ++ rest, rest, emit arg upper.code, _, if_pos rfl, hupper _ _ hroom0,
      hdefault _ (by simp [Range.verb]) rest rfl, ?_⟩
    rw [hcode]
    exact stuff_one hroom2
  | do2 lower upper =>
    refine ⟨upper.bytes ++ rest, rest, emit arg upper.code, _, ?_, hupper _ _ hroom0,
      hdefault _ (by simp [Range.verb]) rest rfl, ?_⟩
    · rw [Range.bytes, List.append_assoc]
      exact hskip _ (by simp [Range.verb]) _
    · rw [Range.bytes, List.append_assoc]
      exact hcompile _ (by simp [Range.verb]) _
  | do3 lower upper increment =>
    refine ⟨upper.bytes ++ (increment.bytes ++ rest), increment.bytes ++ rest, emit arg upper.code, _, ?_,
      hupper _ _ hroom0, hincrement _ _ hroom1, ?_⟩
    · rw [Range.bytes, List.append_assoc, List.append_assoc]
      exact hskip _ (by simp [Range.verb]) _
    · rw [Range.bytes, List.append_assoc, List.append_assoc]
      exact hcompile _ (by simp [Range.verb]) _

theorem compileLoop_spec {compile : Compiler} {i : UInt8} {range : Range} {body : Stmt} {a : sdl_arg}
    (hlower : Compiles compile range.lower.bytes range.lower.code)
    (hupper : Compiles compile range.upper.bytes range.upper.code)
    (hincrement : Compiles compile range.increment.bytes range.increment.code)
    (hbody : ∀ a' : sdl_arg, a'.sdl_arg_desc = a.sdl_arg_desc →
      Room (some a') (body.code (place (some a'))).length →
      compile (body.bytes ++ rest) (some a') =
        .ok (rest, emit (some a') (body.code (place (some a')))))
    (hroom : Room (some a) ((Stmt.loop i range body).code (place (some a))).length) :
    compileLoop compile range.verb (i :: (range.bytes ++ (body.bytes ++ rest))) (some a) =
      .ok (rest, emit (some a) ((Stmt.loop i range body).code (place (some a)))) := by
  have hplace : place (some a) = a.sdl_arg_compiled.length := rfl
  simp only [Stmt.code, List.length_append, List.length_cons, List.length_nil] at hroom
  have hroomRange : Room (some a) range.code.length := hroom.mono (by omega)
  obtain ⟨p1, p2, arg1, arg2, hskip, hup, hinc, hlow⟩ :=
    @bounds_spec _ (body.bytes ++ rest) _ _ hlower hupper hincrement hroomRange
  have hloop : stuff op_loop (emit (some a) range.code) = .ok (emit (some a) (range.code ++ [op_loop])) := by
    rw [stuff_spec (hroom.emit (by omega)), emit_emit]
  have hlabel : place (emit (some a) (range.code ++ [op_loop])) =
      a.sdl_arg_compiled.length + range.code.length + 1 := by
    simp [place, Nat.add_assoc]
  generalize hl : a.sdl_arg_compiled.length + range.code.length + 1 = label at *
  have hiterate : stuffAll [op_iterate, (i.toNat : ℤ), 0] (emit (some a) (range.code ++ [op_loop])) =
      .ok (emit (some a) (range.code ++ [op_loop, op_iterate, (i.toNat : ℤ), 0])) := by
    rw [stuffAll_spec (hroom.emit (by simp; omega)), emit_emit, List.append_assoc]
    rfl
  have hinner := hbody { a with sdl_arg_compiled :=
    a.sdl_arg_compiled ++ (range.code ++ [op_loop, op_iterate, (i.toNat : ℤ), 0]) } rfl
  have hplace' : place (some { a with sdl_arg_compiled :=
      a.sdl_arg_compiled ++ (range.code ++ [op_loop, op_iterate, (i.toNat : ℤ), 0]) }) = label + 3 := by
    simp [place]
    omega
  rw [hplace'] at hinner
  have hinner' := hinner (by
    rw [room_some, List.length_append, List.length_append]
    rw [room_some] at hroom
    simp only [List.length_cons, List.length_nil]
    rw [hplace, hl] at hroom
    omega)
  have hgoto : stuffAll [op_goto, (label : ℤ)] (emit (some a) (range.code ++
      ([op_loop, op_iterate, (i.toNat : ℤ), 0] ++ body.code (label + 3)))) =
      .ok (emit (some a) (range.code ++ ([op_loop, op_iterate, (i.toNat : ℤ), 0] ++
        (body.code (label + 3) ++ [op_goto, (label : ℤ)])))) := by
    rw [hplace, hl] at hroom
    rw [stuffAll_spec (hroom.emit (by simp; omega)), emit_emit]
    simp
  have hpatch := patch_spec a range.code (body.code (label + 3)) i.toNat label hl.symm
  have hcompiled : compile (body.bytes ++ rest) (emit (some a) (range.code ++
      [op_loop, op_iterate, (i.toNat : ℤ), 0])) = .ok (rest, emit (some a) (range.code ++
        ([op_loop, op_iterate, (i.toNat : ℤ), 0] ++ body.code (label + 3)))) := by
    rw [emit_some, hinner', emit_some]
    simp
  have hresult : (Stmt.loop i range body).code (place (some a)) =
      range.code ++ ([op_loop, op_iterate, (i.toNat : ℤ),
        ((label + 3 + (body.code (label + 3)).length + 2 : ℕ) : ℤ)] ++
          (body.code (label + 3) ++ [op_goto, (label : ℤ)])) := by
    rw [Stmt.code, hplace, hl]
  unfold compileLoop
  simp only [next, bind, Except.bind, hskip, hup, hinc, hlow, hloop, hlabel, hiterate, hcompiled, hgoto,
    hpatch, hresult]
  rfl

theorem bytes_length_pos (s : Stmt) : 0 < s.bytes.length := by
  cases s <;> simp [Stmt.bytes]

theorem compileVerb_range {compile : Compiler} (range : Range) (p : List UInt8) :
    compileVerb compile range.verb p arg = compileLoop compile range.verb p arg := by
  cases range <;> rfl

/-- A description is compiled to its code. -/
theorem compile_stmt {s : Stmt} {a : sdl_arg} {vars : ℕ}
    (hdims : a.sdl_arg_desc.iad_dimensions ≤ MAX_ARRAY_DIMENSIONS)
    (hwf : s.WellFormed a.sdl_arg_desc vars) (hfuel : s.bytes.length ≤ fuel)
    (hroom : Room (some a) (s.code (place (some a))).length) :
    compile fuel (s.bytes ++ rest) (some a) = .ok (rest, emit (some a) (s.code (place (some a)))) := by
  induction s generalizing fuel a with
  | element scalar subscripts =>
    refine compile_element hfuel ⟨hwf.2.1.trans_le hdims, ?_⟩ hroom
    rintro a' h
    cases h
    exact hwf.2.1
  | loop i range body ih =>
    have hpos := bytes_length_pos body
    simp only [Stmt.bytes, List.length_cons, List.length_append] at hfuel
    obtain ⟨fuel, rfl⟩ : ∃ n, fuel = n + 1 := Nat.exists_eq_add_one_of_ne_zero (by omega)
    have hbytes : range.lower.bytes.length ≤ fuel ∧ range.upper.bytes.length ≤ fuel ∧
        range.increment.bytes.length ≤ fuel := by
      cases range <;> simp [Range.lower, Range.upper, Range.increment, Range.bytes, Expr.bytes] at hfuel ⊢ <;>
        omega
    have hspec : compileLoop (compile fuel) range.verb (i :: (range.bytes ++ (body.bytes ++ rest)))
        (some a) = .ok (rest, emit (some a) ((Stmt.loop i range body).code (place (some a)))) :=
      compileLoop_spec (compile_expr _ hbytes.1) (compile_expr _ hbytes.2.1)
        (compile_expr _ hbytes.2.2) (fun a' ha' hroom' => ih (by rw [ha']; exact hdims)
          (by rw [ha']; exact hwf.2.2) (by omega) hroom') hroom
    rw [← List.append_assoc range.bytes] at hspec
    exact (compile_byte _ _).trans ((compileVerb_range _ _).trans hspec)

end FirebirdCore.Sdl
