import Mathlib.Data.Int.Basic
import Mathlib.Data.List.Basic
import Mathlib.Tactic

/-!
# The compiler of slice descriptions

`compile` turns an element of a slice description into words of code. A parameter block that is `none`
stands for the null pointer with which an element is parsed only.
-/
namespace FirebirdCore.Sdl

def COMPILE_SIZE : ℕ := 256

def MAX_ARRAY_DIMENSIONS : ℕ := 16

def SLONG (x : ℤ) : ℤ := Int.bmod x (2 ^ 32)

structure dsc where
  dsc_dtype : ℕ
  dsc_scale : ℤ
  dsc_length : ℕ
  dsc_sub_type : ℤ
  dsc_flags : ℕ
  dsc_address : ℤ
  deriving DecidableEq, Repr

structure iad_repeat where
  iad_desc : dsc
  iad_length : ℕ
  iad_lower : ℤ
  iad_upper : ℤ
  deriving DecidableEq, Repr

/-- The array descriptor. `iad_rpt` has as many entries as there is memory for. -/
structure InternalArrayDesc where
  iad_dimensions : ℕ
  iad_element_length : ℕ
  iad_rpt : List iad_repeat
  deriving DecidableEq, Repr

/-! ## Verbs and operators -/

inductive Verb where
  | isc_sdl_variable
  | isc_sdl_scalar
  | isc_sdl_tiny_integer
  | isc_sdl_short_integer
  | isc_sdl_long_integer
  | isc_sdl_add
  | isc_sdl_subtract
  | isc_sdl_multiply
  | isc_sdl_divide
  | isc_sdl_do3
  | isc_sdl_do2
  | isc_sdl_do1
  | isc_sdl_element
  deriving DecidableEq, Repr

def Verb.byte : Verb → UInt8
  | isc_sdl_variable => 7
  | isc_sdl_scalar => 8
  | isc_sdl_tiny_integer => 9
  | isc_sdl_short_integer => 10
  | isc_sdl_long_integer => 11
  | isc_sdl_add => 13
  | isc_sdl_subtract => 14
  | isc_sdl_multiply => 15
  | isc_sdl_divide => 16
  | isc_sdl_do3 => 33
  | isc_sdl_do2 => 34
  | isc_sdl_do1 => 35
  | isc_sdl_element => 36

def verbs : List Verb :=
  [.isc_sdl_variable, .isc_sdl_scalar, .isc_sdl_tiny_integer, .isc_sdl_short_integer,
    .isc_sdl_long_integer, .isc_sdl_add, .isc_sdl_subtract, .isc_sdl_multiply, .isc_sdl_divide,
    .isc_sdl_do3, .isc_sdl_do2, .isc_sdl_do1, .isc_sdl_element]

def verb? (op : UInt8) : Option Verb := verbs.find? (·.byte = op)

@[simp] theorem verb?_byte (v : Verb) : verb? v.byte = some v := by cases v <;> rfl

def op_literal : ℤ := 1
def op_variable : ℤ := 2
def op_add : ℤ := 3
def op_subtract : ℤ := 4
def op_multiply : ℤ := 5
def op_divide : ℤ := 6
def op_iterate : ℤ := 7
def op_goto : ℤ := 8
def op_element : ℤ := 9
def op_loop : ℤ := 10
def op_exit : ℤ := 11
def op_scalar : ℤ := 12

/-! ## Errors and faults -/

/-- What is posted to the status vector. -/
inductive SdlError where
  | invalid_sdl (offset : ℕ)
  | invalid_dimension (dimensions count : ℕ)
  | datnotsup
  | ss_out_of_bounds (n lower upper : ℤ)
  deriving DecidableEq, Repr

/-- What the code does not guard against. -/
inductive Fault where
  /-- Bytes behind the description are read. -/
  | description
  /-- The null pointer is followed for a parameter block. -/
  | argument
  /-- More expressions are saved than there is room for. -/
  | expressions
  /-- A word is stored behind `sdl_arg_compiled`. -/
  | compiled
  /-- The evaluation stack overflows. -/
  | overflow
  /-- An entry below the evaluation stack is used. -/
  | underflow
  /-- A quotient does not exist. -/
  | divide
  /-- There is no such variable. -/
  | noVariable
  /-- There is no such repeat in the array descriptor. -/
  | noRepeat
  /-- An element is processed that has not been computed. -/
  | noElement
  /-- The next word is not in the code. -/
  | code
  deriving DecidableEq, Repr

inductive Failure where
  | error (e : SdlError)
  | fault (f : Fault)
  deriving DecidableEq, Repr

/-- The parameter block, as far as the compiler uses it. `sdl_length` is the length of the description. -/
structure sdl_arg where
  sdl_arg_desc : InternalArrayDesc
  sdl_length : ℕ
  sdl_arg_compiled : List ℤ
  deriving DecidableEq, Repr

/-! ## Words -/

/-- The number of words so far. -/
def place (arg : Option sdl_arg) : ℕ := (arg.map fun a => a.sdl_arg_compiled.length).getD 0

/-- An overflow is reported, and the word is stored nevertheless. -/
def stuff (value : ℤ) : Option sdl_arg → Except Failure (Option sdl_arg)
  | none => .ok none
  | some arg =>
      if arg.sdl_arg_compiled.length ≥ COMPILE_SIZE then .error (.fault .compiled)
      else .ok (some { arg with sdl_arg_compiled := arg.sdl_arg_compiled ++ [value] })

/-- Words one by one. -/
def stuffAll : List ℤ → Option sdl_arg → Except Failure (Option sdl_arg)
  | [], arg => .ok arg
  | value :: values, arg => stuff value arg >>= stuffAll values

/-- `label[2] = next`. -/
def patch (label : ℕ) (arg : Option sdl_arg) : Option sdl_arg :=
  arg.map fun a =>
    { a with sdl_arg_compiled := a.sdl_arg_compiled.set (label + 2) a.sdl_arg_compiled.length }

/-! ## Elements -/

/-- `*p++`. -/
def next : List UInt8 → Except Failure (UInt8 × List UInt8)
  | [] => .error (.fault .description)
  | byte :: p => .ok (byte, p)

/-- `bytes` of them, little-endian. -/
def nextBytes : ℕ → List UInt8 → Except Failure (ℕ × List UInt8)
  | 0, p => .ok (0, p)
  | bytes + 1, p => do
      let (low, p) ← next p
      let (high, p) ← nextBytes bytes p
      return (low.toNat + 256 * high, p)

/-- An element that is compiled, with what is behind it. -/
abbrev Compiler := List UInt8 → Option sdl_arg → Except Failure (List UInt8 × Option sdl_arg)

/-- Expressions that are passed over. They are kept in `expr` where they begin. -/
def saveExpressions (compile : Compiler) :
    ℕ → List UInt8 → List (List UInt8) → Except Failure (List UInt8 × List (List UInt8))
  | 0, p, expr => .ok (p, expr)
  | n + 1, p, expr =>
      if expr.length ≥ MAX_ARRAY_DIMENSIONS then .error (.fault .expressions)
      else do
        let (rest, _) ← compile p none
        saveExpressions compile n rest (p :: expr)

/-- The saved expressions, the last one first. -/
def compileSaved (compile : Compiler) :
    List (List UInt8) → Option sdl_arg → Except Failure (Option sdl_arg)
  | [], arg => .ok arg
  | p :: expr, arg => do
      let (_, arg) ← compile p arg
      compileSaved compile expr arg

/-- The lower bound is skipped. -/
def skipLower (compile : Compiler) (verb : Verb) (p : List UInt8) : Except Failure (List UInt8) :=
  if verb = .isc_sdl_do1 then .ok p
  else do
    let (p, _) ← compile p none
    return p

def compileIncrement (compile : Compiler) (verb : Verb) (p : List UInt8) (arg : Option sdl_arg) :
    Except Failure (List UInt8 × Option sdl_arg) :=
  if verb = .isc_sdl_do3 then compile p arg
  else do
    let arg ← stuffAll [op_literal, 1] arg
    return (p, arg)

/-- The lower bound is compiled from where it begins. -/
def compileLower (compile : Compiler) (verb : Verb) (ptr1 : List UInt8) (arg : Option sdl_arg) :
    Except Failure (Option sdl_arg) :=
  if verb = .isc_sdl_do1 then stuffAll [op_literal, 1] arg
  else do
    let (_, arg) ← compile ptr1 arg
    return arg

def compileLoop (compile : Compiler) (verb : Verb) (p : List UInt8) (arg : Option sdl_arg) :
    Except Failure (List UInt8 × Option sdl_arg) := do
  let (variableNumber, ptr1) ← next p
  let p ← skipLower compile verb ptr1
  let (p, arg) ← compile p arg
  let (p, arg) ← compileIncrement compile verb p arg
  let arg ← compileLower compile verb ptr1 arg
  let arg ← stuff op_loop arg
  let label := place arg
  let arg ← stuffAll [op_iterate, variableNumber.toNat, 0] arg
  let (p, arg) ← compile p arg
  let arg ← stuffAll [op_goto, label] arg
  return (p, patch label arg)

/-- A literal of `bytes` bytes with its sign. -/
def compileLiteral (bytes : ℕ) (p : List UInt8) (arg : Option sdl_arg) :
    Except Failure (List UInt8 × Option sdl_arg) := do
  let (value, p) ← nextBytes bytes p
  let arg ← stuffAll [op_literal, Int.bmod value (256 ^ bytes)] arg
  return (p, arg)

def compileBinary (compile : Compiler) (sdl_operator : ℤ) (p : List UInt8) (arg : Option sdl_arg) :
    Except Failure (List UInt8 × Option sdl_arg) := do
  let (p, arg) ← compile p arg
  let (p, arg) ← compile p arg
  let arg ← stuff sdl_operator arg
  return (p, arg)

/-- The number of subscripts has to be that of the dimensions. -/
def checkDimensions (count : ℕ) : Option sdl_arg → Except Failure Unit
  | none => .ok ()
  | some arg =>
      if count ≠ arg.sdl_arg_desc.iad_dimensions then
        .error (.error (.invalid_dimension arg.sdl_arg_desc.iad_dimensions count))
      else .ok ()

def compileScalar (compile : Compiler) (p : List UInt8) (arg : Option sdl_arg) :
    Except Failure (List UInt8 × Option sdl_arg) := do
  let (op, p) ← next p
  let (count, p) ← next p
  checkDimensions count.toNat arg
  let (p, expr) ← saveExpressions compile count.toNat p []
  let arg ← compileSaved compile expr arg
  let arg ← stuffAll [op_scalar, op.toNat, count.toNat] arg
  return (p, arg)

def compileElement (compile : Compiler) (p : List UInt8) (arg : Option sdl_arg) :
    Except Failure (List UInt8 × Option sdl_arg) := do
  let (count, p) ← next p
  if arg.isSome ∧ count ≠ 1 then .error (.error .datnotsup)
  else
    let (p, expr) ← saveExpressions compile count.toNat p []
    let arg ← compileSaved compile expr arg
    let arg ← stuffAll [op_element, count.toNat] arg
    return (p, arg)

def compileVerb (compile : Compiler) (verb : Verb) (p : List UInt8) (arg : Option sdl_arg) :
    Except Failure (List UInt8 × Option sdl_arg) :=
  match verb with
  | .isc_sdl_do1 => compileLoop compile verb p arg
  | .isc_sdl_do2 => compileLoop compile verb p arg
  | .isc_sdl_do3 => compileLoop compile verb p arg
  | .isc_sdl_variable => do
      let (variableNumber, p) ← next p
      let arg ← stuffAll [op_variable, variableNumber.toNat] arg
      return (p, arg)
  | .isc_sdl_tiny_integer => compileLiteral 1 p arg
  | .isc_sdl_short_integer => compileLiteral 2 p arg
  | .isc_sdl_long_integer => compileLiteral 4 p arg
  | .isc_sdl_add => compileBinary compile op_add p arg
  | .isc_sdl_subtract => compileBinary compile op_subtract p arg
  | .isc_sdl_multiply => compileBinary compile op_multiply p arg
  | .isc_sdl_divide => compileBinary compile op_divide p arg
  | .isc_sdl_scalar => compileScalar compile p arg
  | .isc_sdl_element => compileElement compile p arg

/-- The recursion gets no deeper than the description is long. -/
def compile : ℕ → List UInt8 → Option sdl_arg → Except Failure (List UInt8 × Option sdl_arg)
  | 0, _, _ => .error (.fault .description)
  | _ + 1, [], _ => .error (.fault .description)
  | fuel + 1, op :: p, arg =>
      match verb? op with
      | some verb => compileVerb (compile fuel) verb p arg
      | none =>
          match arg with
          | none => .error (.fault .argument)
          | some arg => .error (.error (.invalid_sdl (arg.sdl_length - (p.length + 1))))

/-- An element is compiled to an empty buffer, and the exit is stuffed behind it. -/
def compileDescription (desc : InternalArrayDesc) (sdl_length : ℕ) (p : List UInt8) :
    Except Failure (List UInt8 × List ℤ) := do
  let (rest, arg) ← compile p.length p (some ⟨desc, sdl_length, []⟩)
  let arg ← stuff op_exit arg
  return (rest, (arg.map sdl_arg.sdl_arg_compiled).getD [])

end FirebirdCore.Sdl
