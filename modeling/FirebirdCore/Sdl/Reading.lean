import FirebirdCore.Sdl.Execute

/-!
# The direct reading of slice descriptions

Slice descriptions as trees, with the bytes that they are given as, and the elements that the loops go
through one by one.
-/
namespace FirebirdCore.Sdl

/-! ## Trees -/

inductive Expr where
  | tiny (b0 : UInt8)
  | short (b0 b1 : UInt8)
  | long (b0 b1 b2 b3 : UInt8)
  | var (i : UInt8)
  | binary (o : Operator) (x y : Expr)
  deriving DecidableEq, Repr

/-- The bounds of a loop. -/
inductive Range where
  | do1 (upper : Expr)
  | do2 (lower upper : Expr)
  | do3 (lower upper increment : Expr)
  deriving DecidableEq, Repr

/-- A loop, or an element of the array. `scalar` is the number of the repeat that describes it. -/
inductive Stmt where
  | loop (i : UInt8) (range : Range) (body : Stmt)
  | element (scalar : UInt8) (subscripts : List Expr)
  deriving DecidableEq, Repr

namespace Range

/-- The bounds that are not given are 1. -/
def lower : Range → Expr
  | do1 _ => .tiny 1
  | do2 lower _ => lower
  | do3 lower _ _ => lower

def upper : Range → Expr
  | do1 upper => upper
  | do2 _ upper => upper
  | do3 _ upper _ => upper

def increment : Range → Expr
  | do1 _ => .tiny 1
  | do2 _ _ => .tiny 1
  | do3 _ _ increment => increment

def verb : Range → Verb
  | do1 _ => .isc_sdl_do1
  | do2 _ _ => .isc_sdl_do2
  | do3 _ _ _ => .isc_sdl_do3

end Range

def Operator.verb : Operator → Verb
  | add => .isc_sdl_add
  | subtract => .isc_sdl_subtract
  | multiply => .isc_sdl_multiply
  | divide => .isc_sdl_divide

/-! ## Bytes -/

def Expr.bytes : Expr → List UInt8
  | tiny b0 => [Verb.isc_sdl_tiny_integer.byte, b0]
  | short b0 b1 => [Verb.isc_sdl_short_integer.byte, b0, b1]
  | long b0 b1 b2 b3 => [Verb.isc_sdl_long_integer.byte, b0, b1, b2, b3]
  | var i => [Verb.isc_sdl_variable.byte, i]
  | binary o x y => o.verb.byte :: (x.bytes ++ y.bytes)

def Range.bytes : Range → List UInt8
  | do1 upper => upper.bytes
  | do2 lower upper => lower.bytes ++ upper.bytes
  | do3 lower upper increment => lower.bytes ++ (upper.bytes ++ increment.bytes)

def Stmt.bytes : Stmt → List UInt8
  | loop i range body => range.verb.byte :: i :: (range.bytes ++ body.bytes)
  | element scalar subscripts =>
      Verb.isc_sdl_element.byte :: 1 :: Verb.isc_sdl_scalar.byte :: scalar ::
        UInt8.ofNat subscripts.length :: subscripts.flatMap Expr.bytes

/-! ## Values -/

/-- A literal with its sign. -/
def literal (bytes : List UInt8) : ℤ :=
  Int.bmod (bytes.foldr (fun b n => b.toNat + 256 * n) 0 : ℕ) (256 ^ bytes.length)

/-- The value of an expression, or nothing where a quotient does not exist. -/
def Expr.value (vars : List ℤ) : Expr → Option ℤ
  | tiny b0 => some (literal [b0])
  | short b0 b1 => some (literal [b0, b1])
  | long b0 b1 b2 b3 => some (literal [b0, b1, b2, b3])
  | var i => some (vars.getD i.toNat 0)
  | binary o x y => do
      let x ← x.value vars
      let y ← y.value vars
      o.apply x y

/-- The values of all the expressions. -/
def values (vars : List ℤ) : List Expr → Option (List ℤ)
  | [] => some []
  | e :: es => do
      let v ← e.value vars
      let vs ← values vars es
      return v :: vs

/-- The first subscript that is out of the bounds of its dimension. -/
def outside? : List iad_repeat → List ℤ → Option SdlError
  | range :: ranges, n :: ns =>
      if n < range.iad_lower ∨ n > range.iad_upper then
        some (.ss_out_of_bounds n range.iad_lower range.iad_upper)
      else outside? ranges ns
  | _, _ => none

/-- The elements in front of the one with the subscripts. -/
def position (ranges : List iad_repeat) (ns : List ℤ) : ℤ :=
  (List.zipWith (fun (range : iad_repeat) (n : ℤ) => (n - range.iad_lower) * (range.iad_length : ℤ)) ranges
    ns).sum

/-- The descriptor of the element with the subscripts. -/
def elementAt (w : Walk) (scalar : ℕ) (ns : List ℤ) : Except Stop dsc :=
  let ranges := w.sdl_arg_desc.iad_rpt.take w.sdl_arg_desc.iad_dimensions
  match outside? ranges ns with
  | some e => .error (.error e)
  | none =>
      match w.sdl_arg_desc.iad_rpt[scalar]? with
      | none => .error (.fault .noRepeat)
      | some range =>
          .ok { range.iad_desc with
            dsc_address := w.sdl_arg_array + range.iad_desc.dsc_address +
              SLONG (w.sdl_arg_desc.iad_element_length * position ranges ns) }

/-! ## Loops -/

/-- The variables and the slice while a description is read, with the elements and the calls so far. -/
structure Reading where
  sdl_arg_variables : List ℤ
  argument : array_slice
  elements : List dsc
  calls : List (ℕ × dsc)
  deriving DecidableEq, Repr

def Reading.assign (r : Reading) (i : ℕ) (value : ℤ) : Reading :=
  { r with sdl_arg_variables := r.sdl_arg_variables.set i value }

/-- How far the reading has got. A reading is unfinished where its loops do not end in the given number
of rounds. -/
inductive Status where
  | finished
  | stopped (stop : Stop)
  | unfinished
  deriving DecidableEq, Repr

/-- The loop behind the assignment of its variable. -/
def readLoop (body : Reading → Reading × Status) (i : ℕ) (upper increment : ℤ) :
    ℕ → Reading → Reading × Status
  | 0, r => (r, .unfinished)
  | rounds + 1, r =>
      if r.sdl_arg_variables.getD i 0 > upper then (r, .finished)
      else
        match body r with
        | (r, .finished) =>
            readLoop body i upper increment rounds
              (r.assign i (SLONG (r.sdl_arg_variables.getD i 0 + increment)))
        | result => result

def readElement (w : Walk) (r : Reading) (desc : dsc) : Reading × Status :=
  let result := element w r.argument 1 desc
  let r := { r with
    elements := r.elements ++ [desc]
    calls := if result.1 then r.calls ++ [(1, desc)] else r.calls }
  match result.2 with
  | none => (r, .stopped .raised)
  | some argument => ({ r with argument }, .finished)

def Stmt.read (w : Walk) (rounds : ℕ) : Stmt → Reading → Reading × Status
  | loop i range body, r =>
      match values r.sdl_arg_variables [range.upper, range.increment, range.lower] with
      | some [upper, increment, lower] =>
          readLoop (body.read w rounds) i.toNat upper increment rounds
            (r.assign i.toNat lower)
      | _ => (r, .stopped (.fault .divide))
  | element scalar subscripts, r =>
      match values r.sdl_arg_variables subscripts with
      | none => (r, .stopped (.fault .divide))
      | some ns =>
          match elementAt w scalar.toNat ns with
          | .error stop => (r, .stopped stop)
          | .ok desc => readElement w r desc

/-! ## Well-formed descriptions -/

/-- The variables exist. -/
def Expr.WellFormed (vars : ℕ) : Expr → Prop
  | var i => i.toNat < vars
  | binary _ x y => x.WellFormed vars ∧ y.WellFormed vars
  | _ => True

def Range.WellFormed (vars : ℕ) (range : Range) : Prop :=
  range.lower.WellFormed vars ∧ range.upper.WellFormed vars ∧
    range.increment.WellFormed vars

/-- The variables exist, and elements have as many subscripts as the array has dimensions. -/
def Stmt.WellFormed (desc : InternalArrayDesc) (vars : ℕ) : Stmt → Prop
  | loop i range body => i.toNat < vars ∧ range.WellFormed vars ∧
      body.WellFormed desc vars
  | element scalar subscripts => scalar.toNat < desc.iad_rpt.length ∧
      subscripts.length = desc.iad_dimensions ∧ ∀ e ∈ subscripts, e.WellFormed vars

/-! ## Code -/

def Operator.word : Operator → ℤ
  | add => op_add
  | subtract => op_subtract
  | multiply => op_multiply
  | divide => op_divide

def Expr.code : Expr → List ℤ
  | tiny b0 => [op_literal, literal [b0]]
  | short b0 b1 => [op_literal, literal [b0, b1]]
  | long b0 b1 b2 b3 => [op_literal, literal [b0, b1, b2, b3]]
  | var i => [op_variable, i.toNat]
  | binary o x y => x.code ++ (y.code ++ [o.word])

/-- The upper bound, the increment and the initial value. -/
def Range.code (range : Range) : List ℤ :=
  range.upper.code ++ (range.increment.code ++ range.lower.code)

/-- The code of a description that is compiled to `base`. -/
def Stmt.code (base : ℕ) : Stmt → List ℤ
  | loop i range body =>
      let label := base + range.code.length + 1
      let inner := body.code (label + 3)
      range.code ++ ([op_loop, op_iterate, (i.toNat : ℤ), ((label + 3 + inner.length + 2 : ℕ) : ℤ)] ++
        (inner ++ [op_goto, (label : ℤ)]))
  | element scalar subscripts =>
      subscripts.reverse.flatMap Expr.code ++
        [op_scalar, (scalar.toNat : ℤ), (subscripts.length : ℤ), op_element, 1]

/-- The entries of the evaluation stack that are used. -/
def Expr.height : Expr → ℕ
  | binary _ x y => max x.height (1 + y.height)
  | _ => 1

def heights : List Expr → ℕ
  | [] => 0
  | e :: es => max e.height (1 + heights es)

def Stmt.height : Stmt → ℕ
  | loop _ range body => max (heights [range.upper, range.increment, range.lower]) (2 + body.height)
  | element _ subscripts => heights subscripts.reverse

end FirebirdCore.Sdl
