import FirebirdCore.Sdl.Walk
import FirebirdCore.Sdl.Outlined

/-!
# The ranges of subscripts

`get_range` finds the bounds of the subscripts of a slice description, and `SDL_info` reports them.
-/
namespace FirebirdCore.Sdl

/-! ## Ranges -/

/-- The dimensions and their bounds. There is room for `MAX_ARRAY_DIMENSIONS`. -/
structure sdl_info where
  sdl_info_dimensions : ℕ
  sdl_info_lower : List ℤ
  sdl_info_upper : List ℤ
  deriving DecidableEq, Repr

structure array_range where
  rng_minima : List ℤ
  rng_maxima : List ℤ
  rng_info : sdl_info
  deriving DecidableEq, Repr

/-- Why there is no range: the null pointer is returned, or the code does not guard against something. -/
inductive RangeStop where
  | null
  /-- Bytes behind the description are read. -/
  | description
  /-- There is no such variable. -/
  | noVariable
  /-- There is no such dimension. -/
  | noDimension
  /-- A bound is used that has not been set. -/
  | unset
  deriving DecidableEq, Repr

/-- What is stored through `min` and `max` last. -/
abbrev Bounds := Option (ℤ × ℤ)

/-- What is behind an element, the ranges of the variables, and the bounds of the element. -/
abbrev Ranger := List UInt8 → array_range → Except RangeStop (List UInt8 × array_range × Bounds)

/-- A value is stored, if there is one. -/
def store (missing : RangeStop) (i : ℕ) (value : Option ℤ) (values : List ℤ) : Except RangeStop (List ℤ) :=
  match value with
  | none => .ok values
  | some value => if i < values.length then .ok (values.set i value) else .error missing

def storeMinimum (i : ℕ) (value : Option ℤ) (arg : array_range) : Except RangeStop array_range := do
  let rng_minima ← store .noVariable i value arg.rng_minima
  return { arg with rng_minima }

def storeMaximum (i : ℕ) (value : Option ℤ) (arg : array_range) : Except RangeStop array_range := do
  let rng_maxima ← store .noVariable i value arg.rng_maxima
  return { arg with rng_maxima }

/-- The bounds of a dimension. -/
def storeDimension (n : ℕ) (bounds : Bounds) (arg : array_range) : Except RangeStop array_range := do
  let sdl_info_lower ← store .noDimension n (bounds.map Prod.fst) arg.rng_info.sdl_info_lower
  let sdl_info_upper ← store .noDimension n (bounds.map Prod.snd) arg.rng_info.sdl_info_upper
  return { arg with rng_info := { arg.rng_info with sdl_info_lower, sdl_info_upper } }

/-- The bounds of a variable. -/
def variableBounds (i : ℕ) (arg : array_range) : Except RangeStop (ℤ × ℤ) :=
  match arg.rng_minima[i]?, arg.rng_maxima[i]? with
  | some min, some max => .ok (min, max)
  | _, _ => .error .noVariable

/-- The ends are added, subtracted or multiplied. -/
def operatorBounds (o : Operator) : Bounds → Bounds → Except RangeStop (ℤ × ℤ)
  | some (min1, max1), some (min2, max2) =>
      match o with
      | .add => .ok (SLONG (min1 + min2), SLONG (max1 + max2))
      | .subtract => .ok (SLONG (min1 - max2), SLONG (max1 - min2))
      | .multiply => .ok (SLONG (min1 * min2), SLONG (max1 * max2))
      | .divide => .error .null
  | _, _ => if o = .divide then .error .null else .error .unset

/-! ## Elements -/

def rangeLiteral (bytes : ℕ) : Ranger := fun p arg =>
  match nextBytes bytes p with
  | .error _ => .error .description
  | .ok (value, p) =>
      let value := SLONG (Int.bmod value (256 ^ bytes))
      .ok (p, arg, some (value, value))

def rangeVariable : Ranger
  | [], _ => .error .description
  | i :: p, arg => do
      let bounds ← variableBounds i.toNat arg
      return (p, arg, some bounds)

def rangeBinary (range : Ranger) (o : Operator) : Ranger := fun p arg => do
  let (p, arg, bounds1) ← range p arg
  let (p, arg, bounds2) ← range p arg
  let bounds ← operatorBounds o bounds1 bounds2
  return (p, arg, some bounds)

/-- The lower bound of a loop. -/
def rangeLower (range : Ranger) (verb : Verb) (i : ℕ) (p : List UInt8) (arg : array_range) :
    Except RangeStop (List UInt8 × array_range) :=
  if verb = .isc_sdl_do1 then do
    let arg ← storeMinimum i (some 1) arg
    return (p, arg)
  else do
    let (p, arg, bounds) ← range p arg
    let arg ← storeMinimum i (bounds.map Prod.fst) arg
    return (p, arg)

/-- The increment is not used. -/
def rangeIncrement (range : Ranger) (verb : Verb) (p : List UInt8) (arg : array_range) :
    Except RangeStop (List UInt8 × array_range) :=
  if verb = .isc_sdl_do3 then do
    let (p, arg, _) ← range p arg
    return (p, arg)
  else .ok (p, arg)

def rangeLoop (range : Ranger) (verb : Verb) : Ranger
  | [], _ => .error .description
  | i :: p, arg => do
      let (p, arg) ← rangeLower range verb i.toNat p arg
      let (p, arg, bounds) ← range p arg
      let arg ← storeMaximum i.toNat (bounds.map Prod.snd) arg
      let (p, arg) ← rangeIncrement range verb p arg
      range p arg

/-- The subscripts from the `n`-th dimension on. -/
def rangeSubscripts (range : Ranger) : ℕ → ℕ → List UInt8 → array_range →
    Except RangeStop (List UInt8 × array_range)
  | 0, _, p, arg => .ok (p, arg)
  | count + 1, n, p, arg => do
      let (p, arg, bounds) ← range p arg
      let arg ← storeDimension n bounds arg
      rangeSubscripts range count (n + 1) p arg

def rangeScalar (range : Ranger) : Ranger
  | _ :: count :: p, arg => do
      let arg := { arg with rng_info := { arg.rng_info with sdl_info_dimensions := count.toNat } }
      let (p, arg) ← rangeSubscripts range count.toNat 0 p arg
      return (p, arg, none)
  | _, _ => .error .description

def rangeParts (range : Ranger) : ℕ → List UInt8 → array_range → Bounds →
    Except RangeStop (List UInt8 × array_range × Bounds)
  | 0, p, arg, bounds => .ok (p, arg, bounds)
  | n + 1, p, arg, bounds => do
      let (p, arg, bounds') ← range p arg
      rangeParts range n p arg (bounds' <|> bounds)

def rangeElement (range : Ranger) : Ranger
  | [], _ => .error .description
  | n :: p, arg => rangeParts range n.toNat p arg none

def rangeVerb (range : Ranger) (verb : Verb) : Ranger :=
  match verb with
  | .isc_sdl_do1 => rangeLoop range verb
  | .isc_sdl_do2 => rangeLoop range verb
  | .isc_sdl_do3 => rangeLoop range verb
  | .isc_sdl_variable => rangeVariable
  | .isc_sdl_tiny_integer => rangeLiteral 1
  | .isc_sdl_short_integer => rangeLiteral 2
  | .isc_sdl_long_integer => rangeLiteral 4
  | .isc_sdl_add => rangeBinary range .add
  | .isc_sdl_subtract => rangeBinary range .subtract
  | .isc_sdl_multiply => rangeBinary range .multiply
  | .isc_sdl_divide => rangeBinary range .divide
  | .isc_sdl_scalar => rangeScalar range
  | .isc_sdl_element => rangeElement range

/-- The recursion gets no deeper than the description is long. -/
def get_range : ℕ → Ranger
  | 0, _, _ => .error .description
  | _ + 1, [], _ => .error .description
  | fuel + 1, op :: p, arg =>
      match verb? op with
      | some verb => rangeVerb (get_range fuel) verb p arg
      | none => .error .null

/-! ## Descriptions -/

def isc_sdl_version1 : UInt8 := 1

/-- A clause in front of the element. A structure has one descriptor. -/
def infoHeader (sdl_length : ℕ) (op : UInt8) (p : List UInt8) : Except Failure (List UInt8) :=
  if op = isc_sdl_struct then do
    let (n, p) ← next p
    if n ≠ 1 then .error (.error (.invalid_sdl (sdl_length - p.length - 1)))
    else
      match ← sdl_desc p with
      | none => .error (.error (.invalid_sdl (sdl_length - p.length)))
      | some p => return p
  else skipHeader sdl_length op p

/-- What is in front of the element is skipped. -/
def infoClauses (sdl_length : ℕ) : ℕ → List UInt8 → Except Failure (List UInt8)
  | 0, _ => .error (.fault .description)
  | _ + 1, [] => .error (.fault .description)
  | fuel + 1, op :: p =>
      if op ∈ headers then do
        let p ← infoHeader sdl_length op p
        infoClauses sdl_length fuel p
      else .ok (op :: p)

/-- The bounds of the element, if it is all of the description. -/
def elementInfo (p : List UInt8) (info : sdl_info) (vector : List ℤ) : Except RangeStop sdl_info :=
  let info := { info with sdl_info_dimensions := 0 }
  match get_range p.length p ⟨vector, vector, info⟩ with
  | .error .null => .ok info
  | .error stop => .error stop
  | .ok (p, range, _) =>
      match p with
      | [] => .error .description
      | op :: _ => .ok (if op = isc_sdl_eoc then range.rng_info else { range.rng_info with sdl_info_dimensions := 0 })

/-- Why there is no information: what is reported or not guarded against in front of the element, or in it. -/
inductive InfoStop where
  | failure (failure : Failure)
  | range (stop : RangeStop)
  deriving DecidableEq, Repr

/-- Without a vector of the variables there is no search for bounds. -/
def SDL_info (sdl : List UInt8) (info : sdl_info) (vector : Option (List ℤ)) : Except InfoStop sdl_info :=
  match sdl with
  | [] => .error (.failure (.fault .description))
  | version :: p =>
      if version ≠ isc_sdl_version1 then .error (.failure (.error (.invalid_sdl 0)))
      else
        match infoClauses sdl.length sdl.length p with
        | .error failure => .error (.failure failure)
        | .ok p =>
            match vector with
            | none => .ok { info with sdl_info_dimensions := 0 }
            | some vector =>
                match elementInfo p info vector with
                | .error stop => .error (.range stop)
                | .ok info => .ok info

/-! ## Outlines -/

/-- The bounds of an outline. With a slot, those of the expressions are stored there for the dimensions from
it on. -/
def Tree.range : Option ℕ → Tree → array_range → Except RangeStop (array_range × Bounds)
  | _, missing, _ => .error .description
  | _, unknown, _ => .error .null
  | _, literal bytes, arg => .ok (arg, some (SLONG (Sdl.literal bytes), SLONG (Sdl.literal bytes)))
  | _, var i, arg => do
      let bounds ← variableBounds i.toNat arg
      return (arg, some bounds)
  | _, binary o x y, arg => do
      let (arg, bounds1) ← x.range none arg
      let (arg, bounds2) ← y.range none arg
      let bounds ← operatorBounds o bounds1 bounds2
      return (arg, some bounds)
  | _, nothing, arg => .ok (arg, none)
  | none, saved x rest, arg => do
      let (arg, bounds) ← x.range none arg
      let (arg, bounds') ← rest.range none arg
      return (arg, bounds' <|> bounds)
  | some n, saved x rest, arg => do
      let (arg, bounds) ← x.range none arg
      let arg ← storeDimension n bounds arg
      let (arg, _) ← rest.range (some (n + 1)) arg
      return (arg, none)
  | _, scalar _ count subscripts, arg => do
      let arg := { arg with rng_info := { arg.rng_info with sdl_info_dimensions := count } }
      let (arg, _) ← subscripts.range (some 0) arg
      return (arg, none)
  | _, element _ parts, arg => parts.range none arg
  | _, loop i lower upper increment body, arg => do
      let (arg, bounds) ← lower.range none arg
      let arg ← storeMinimum i.toNat (bounds.map Prod.fst) arg
      let (arg, bounds) ← upper.range none arg
      let arg ← storeMaximum i.toNat (bounds.map Prod.snd) arg
      let (arg, _) ← increment.range none arg
      body.range none arg

/-- The bounds that are found in bytes are those of a tree, with what is behind it. -/
def Ranges (range : Ranger) (parse : Parser) : Prop := ∀ p arg,
  range p arg = ((parse p).1.range none arg).map fun r => ((parse p).2, r.1, r.2)

section
-- The equations are derived once, before the proofs that rewrite with them.
attribute [local simp] Tree.range
end

section Ranges
variable {range : Ranger} {parse : Parser}

theorem ranges_literal (bytes : ℕ) : Ranges (rangeLiteral bytes) (parseLiteral bytes) := by
  intro p arg
  rw [rangeLiteral, parseLiteral]
  by_cases hle : bytes ≤ p.length
  · have hread := @nextBytes_spec (p.drop bytes) (p.take bytes)
    rw [List.take_append_drop, List.length_take, Nat.min_eq_left hle] at hread
    rw [if_pos hle, hread, Tree.range, literal, List.length_take, Nat.min_eq_left hle]
    rfl
  · rw [if_neg hle, nextBytes_short (Nat.lt_of_not_le hle)]
    rfl

theorem ranges_variable : Ranges rangeVariable parseVariable := by
  intro p arg
  cases p with
  | nil => rfl
  | cons i p =>
    rw [rangeVariable, parseVariable, Tree.range]
    cases variableBounds i.toNat arg <;> rfl

theorem ranges_binary (h : Ranges range parse) (o : Operator) :
    Ranges (rangeBinary range o) (parseBinary parse o) := by
  intro p arg
  rw [rangeBinary, parseBinary, h]
  dsimp only
  rw [Tree.range]
  cases (parse p).1.range none arg with
  | error e => rfl
  | ok r =>
    dsimp only [Except.map, bind, Except.bind]
    rw [h]
    cases (parse (parse p).2).1.range none r.1 with
    | error e => rfl
    | ok r' =>
      dsimp only [Except.map, bind, Except.bind]
      cases operatorBounds o r.2 r'.2 <;> rfl

theorem rangeLower_eq (h : Ranges range parse) (verb : Verb) (i : ℕ) (p : List UInt8) (arg : array_range) :
    rangeLower range verb i p arg = (do
      let (arg, bounds) ← (parseLower parse verb p).1.range none arg
      let arg ← storeMinimum i (bounds.map Prod.fst) arg
      return ((parseLower parse verb p).2, arg)) := by
  have hone : SLONG (literal [1]) = 1 := by decide
  rw [rangeLower, parseLower]
  split_ifs
  · dsimp only
    rw [Tree.range, hone]
    rfl
  · rw [h]
    cases (parse p).1.range none arg <;> rfl

theorem rangeIncrement_eq (h : Ranges range parse) (verb : Verb) (p : List UInt8) (arg : array_range) :
    rangeIncrement range verb p arg = (do
      let (arg, _) ← (parseIncrement parse verb p).1.range none arg
      return ((parseIncrement parse verb p).2, arg)) := by
  rw [rangeIncrement, parseIncrement]
  split_ifs
  · rw [h]
    cases (parse p).1.range none arg <;> rfl
  · rfl

theorem ranges_loop (h : Ranges range parse) (verb : Verb) :
    Ranges (rangeLoop range verb) (parseLoop parse verb) := by
  intro p arg
  cases p with
  | nil => rfl
  | cons i p =>
    rw [rangeLoop, parseLoop, rangeLower_eq h]
    dsimp only
    rw [Tree.range]
    generalize parseLower parse verb p = lower
    cases lower.1.range none arg with
    | error e => rfl
    | ok r =>
      dsimp only [bind, Except.bind, pure, Except.pure]
      cases storeMinimum i.toNat (r.2.map Prod.fst) r.1 with
      | error e => rfl
      | ok arg =>
        dsimp only
        rw [h]
        cases (parse lower.2).1.range none arg with
        | error e => rfl
        | ok r =>
          dsimp only [Except.map]
          cases storeMaximum i.toNat (r.2.map Prod.snd) r.1 with
          | error e => rfl
          | ok arg =>
            dsimp only
            rw [rangeIncrement_eq h]
            generalize parseIncrement parse verb (parse lower.2).2 = increment
            cases increment.1.range none arg with
            | error e => rfl
            | ok r => exact h increment.2 r.1

theorem rangeSubscripts_eq (h : Ranges range parse) (count n : ℕ) (p : List UInt8) (arg : array_range) :
    rangeSubscripts range count n p arg = ((parseSaved parse count p).1.range (some n) arg).map fun r =>
      ((parseSaved parse count p).2, r.1) := by
  induction count generalizing n p arg with
  | zero => rfl
  | succ count ih =>
    rw [rangeSubscripts, parseSaved, h]
    dsimp only
    rw [Tree.range]
    cases (parse p).1.range none arg with
    | error e => rfl
    | ok r =>
      dsimp only [Except.map, bind, Except.bind]
      cases storeDimension n r.2 r.1 with
      | error e => rfl
      | ok arg =>
        dsimp only
        rw [ih]
        cases (parseSaved parse count (parse p).2).1.range (some (n + 1)) arg <;> rfl

theorem ranges_scalar (h : Ranges range parse) : Ranges (rangeScalar range) (parseScalar parse) := by
  intro p arg
  match p with
  | [] => rfl
  | [_] => rfl
  | value :: count :: p =>
    rw [rangeScalar, parseScalar, rangeSubscripts_eq h]
    dsimp only
    rw [Tree.range]
    cases (parseSaved parse count.toNat p).1.range (some 0)
      { arg with rng_info := { arg.rng_info with sdl_info_dimensions := count.toNat } } <;> rfl

theorem rangeParts_eq (h : Ranges range parse) (n : ℕ) (p : List UInt8) (arg : array_range) (bounds : Bounds) :
    rangeParts range n p arg bounds = ((parseSaved parse n p).1.range none arg).map fun r =>
      ((parseSaved parse n p).2, r.1, r.2 <|> bounds) := by
  induction n generalizing p arg bounds with
  | zero => rfl
  | succ n ih =>
    rw [rangeParts, parseSaved, h]
    dsimp only
    rw [Tree.range]
    cases (parse p).1.range none arg with
    | error e => rfl
    | ok r =>
      dsimp only [Except.map, bind, Except.bind]
      rw [ih]
      cases (parseSaved parse n (parse p).2).1.range none r.1 with
      | error e => rfl
      | ok r' =>
        dsimp only [Except.map, pure, Except.pure]
        cases r'.2 <;> rfl

theorem ranges_element (h : Ranges range parse) : Ranges (rangeElement range) (parseElement parse) := by
  intro p arg
  cases p with
  | nil => rfl
  | cons n p =>
    rw [rangeElement, parseElement, rangeParts_eq h]
    dsimp only
    rw [Tree.range]
    cases (parseSaved parse n.toNat p).1.range none arg with
    | error e => rfl
    | ok r =>
      dsimp only [Except.map]
      cases r.2 <;> rfl

theorem ranges_verb (h : Ranges range parse) (verb : Verb) :
    Ranges (rangeVerb range verb) (parseVerb parse verb) := by
  cases verb with
  | isc_sdl_do1 => exact ranges_loop h _
  | isc_sdl_do2 => exact ranges_loop h _
  | isc_sdl_do3 => exact ranges_loop h _
  | isc_sdl_variable => exact ranges_variable
  | isc_sdl_tiny_integer => exact ranges_literal 1
  | isc_sdl_short_integer => exact ranges_literal 2
  | isc_sdl_long_integer => exact ranges_literal 4
  | isc_sdl_add => exact ranges_binary h .add
  | isc_sdl_subtract => exact ranges_binary h .subtract
  | isc_sdl_multiply => exact ranges_binary h .multiply
  | isc_sdl_divide => exact ranges_binary h .divide
  | isc_sdl_scalar => exact ranges_scalar h
  | isc_sdl_element => exact ranges_element h

end Ranges

/-- The bounds of a description are those of its outline. -/
theorem get_range_eq (fuel : ℕ) : Ranges (get_range fuel) (parse fuel) := by
  induction fuel with
  | zero => exact fun p arg => rfl
  | succ fuel ih =>
    intro p arg
    cases p with
    | nil => rfl
    | cons op p =>
      rw [get_range, parse]
      cases verb? op with
      | none => rfl
      | some verb => exact ranges_verb ih verb p arg

end FirebirdCore.Sdl
