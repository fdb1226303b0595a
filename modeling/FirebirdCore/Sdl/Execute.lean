import FirebirdCore.Sdl.Compile

/-!
# The machine for slice descriptions

`execute` runs compiled code with an evaluation stack. One word of code with its arguments is one step.
-/
namespace FirebirdCore.Sdl

/-- The entries of the evaluation stack. -/
def STACK_SIZE : ℕ := 64

inductive slice_dir_t where
  | slc_reading_array
  | slc_writing_array
  deriving DecidableEq, Repr

structure array_slice where
  slice_desc : dsc
  slice_end : ℤ
  slice_high_water : ℤ
  slice_base : ℤ
  slice_element_length : ℕ
  slice_direction : slice_dir_t
  slice_count : ℤ
  deriving DecidableEq, Repr

/-- What is the same in all steps. A callback that posts an error leaves no slice. -/
structure Walk where
  sdl_arg_desc : InternalArrayDesc
  sdl_arg_array : ℤ
  sdl_arg_callback : array_slice → ℕ → dsc → Option array_slice
  sdl_arg_compiled : List ℤ

/-- `calls` are the calls of the callback so far. -/
structure State where
  next : ℕ
  stack : List ℤ
  sdl_arg_variables : List ℤ
  element_desc : Option dsc
  argument : array_slice
  calls : List (ℕ × dsc)
  deriving DecidableEq, Repr

inductive Stop where
  | exit
  | error (e : SdlError)
  | raised
  | fault (f : Fault)
  deriving DecidableEq, Repr

abbrev StepResult := Except (Stop × State) State

def fault (f : Fault) (s : State) : StepResult := .error (.fault f, s)

/-- A word of the code. -/
def word (w : Walk) (i : ℕ) (s : State) (f : ℤ → StepResult) : StepResult :=
  match w.sdl_arg_compiled[i]? with
  | none => fault .code s
  | some x => f x

/-- `*--stack_ptr = value`. -/
def push (value : ℤ) (s : State) : StepResult :=
  if s.stack.length ≥ STACK_SIZE then fault .overflow s
  else .ok { s with stack := value :: s.stack }

inductive Operator where
  | add
  | subtract
  | multiply
  | divide
  deriving DecidableEq, Repr

/-- A quotient by zero and one that is no `SLONG` do not exist. -/
def Operator.apply : Operator → ℤ → ℤ → Option ℤ
  | add, x, y => some (SLONG (x + y))
  | subtract, x, y => some (SLONG (x - y))
  | multiply, x, y => some (SLONG (x * y))
  | divide, x, y => if y = 0 ∨ x = -2 ^ 31 ∧ y = -1 then none else some (x.tdiv y)

def arithmetic (o : Operator) (s : State) : StepResult :=
  match s.stack with
  | value :: x :: stack =>
      match o.apply x value with
      | none => fault .divide s
      | some result => .ok { s with next := s.next + 1, stack := result :: stack }
  | _ => fault .underflow s

/-- The loop of `op_scalar` over the ranges. The first subscript is on top of the stack. -/
def subscripts : List iad_repeat → List ℤ → ℤ → Except Stop (ℤ × List ℤ)
  | [], stack, subscript => .ok (subscript, stack)
  | _ :: _, [], _ => .error (.fault .underflow)
  | range :: ranges, n :: stack, subscript =>
      if n < range.iad_lower ∨ n > range.iad_upper then
        .error (.error (.ss_out_of_bounds n range.iad_lower range.iad_upper))
      else subscripts ranges stack (SLONG (subscript + (n - range.iad_lower) * range.iad_length))

def executeScalar (w : Walk) (value : ℤ) (s : State) : StepResult :=
  if w.sdl_arg_desc.iad_rpt.length < w.sdl_arg_desc.iad_dimensions then fault .noRepeat s
  else
    match subscripts (w.sdl_arg_desc.iad_rpt.take w.sdl_arg_desc.iad_dimensions) s.stack 0 with
    | .error stop => .error (stop, s)
    | .ok (subscript, stack) =>
        match w.sdl_arg_desc.iad_rpt[value.toNat]? with
        | none => fault .noRepeat s
        | some range =>
            .ok { s with
              next := s.next + 3
              stack
              element_desc := some { range.iad_desc with
                dsc_address := w.sdl_arg_array + range.iad_desc.dsc_address +
                  SLONG (w.sdl_arg_desc.iad_element_length * subscript) } }

/-- What `op_element` does with an element, and whether the callback is called. Fetching from the
array, elements behind the high water are only passed. -/
def element (w : Walk) (argument : array_slice) (count : ℕ) (desc : dsc) :
    Bool × Option array_slice :=
  if argument.slice_direction = .slc_writing_array ∨ desc.dsc_address < argument.slice_high_water then
    (true, w.sdl_arg_callback argument count desc)
  else
    (false, some { argument with
      slice_desc := { argument.slice_desc with
        dsc_address := argument.slice_desc.dsc_address + argument.slice_element_length } })

def executeElement (w : Walk) (count : ℤ) (s : State) : StepResult :=
  match s.element_desc with
  | none => fault .noElement s
  | some desc =>
      let result := element w s.argument count.toNat desc
      let calls := if result.1 then s.calls ++ [(count.toNat, desc)] else s.calls
      match result.2 with
      | none => .error (.raised, { s with calls })
      | some argument => .ok { s with next := s.next + 2, argument, calls }

/-- `variables[i] = value`, and the exit if it is above the upper bound. The increment and the upper
bound are on top of the stack. -/
def iterate (i : ℕ) (value : ℤ) (exit again : ℕ) (s : State) : StepResult :=
  match s.stack with
  | _ :: upper :: stack =>
      if value > upper then
        .ok { s with next := exit, stack, sdl_arg_variables := s.sdl_arg_variables.set i value }
      else .ok { s with next := again, sdl_arg_variables := s.sdl_arg_variables.set i value }
  | _ => fault .underflow s

def step (w : Walk) (s : State) : StepResult :=
  word w s.next s fun x =>
  if x = op_literal then
    word w (s.next + 1) s fun value => push (SLONG value) { s with next := s.next + 2 }
  else if x = op_variable then
    word w (s.next + 1) s fun i =>
      match s.sdl_arg_variables[i.toNat]? with
      | none => fault .noVariable s
      | some value => push value { s with next := s.next + 2 }
  else if x = op_add then arithmetic .add s
  else if x = op_subtract then arithmetic .subtract s
  else if x = op_multiply then arithmetic .multiply s
  else if x = op_divide then arithmetic .divide s
  else if x = op_goto then
    word w (s.next + 1) s fun target => .ok { s with next := target.toNat }
  else if x = op_loop then
    word w (s.next + 2) s fun i =>
    word w (s.next + 3) s fun exit =>
      match s.stack with
      | [] => fault .underflow s
      | value :: stack =>
          if i.toNat < s.sdl_arg_variables.length then
            iterate i.toNat value exit.toNat (s.next + 4) { s with stack }
          else fault .noVariable s
  else if x = op_iterate then
    word w (s.next + 1) s fun i =>
    word w (s.next + 2) s fun exit =>
      match s.stack, s.sdl_arg_variables[i.toNat]? with
      | increment :: _, some value =>
          iterate i.toNat (SLONG (value + increment)) exit.toNat (s.next + 3) s
      | [], _ => fault .underflow s
      | _, none => fault .noVariable s
  else if x = op_scalar then word w (s.next + 1) s fun value => executeScalar w value s
  else if x = op_element then word w (s.next + 1) s fun count => executeElement w count s
  else if x = op_exit then .error (.exit, s)
  else fault .code s

/-- The state in which the code is entered. -/
def entered (vars : List ℤ) (argument : array_slice) : State :=
  ⟨0, [], vars, none, argument, []⟩

end FirebirdCore.Sdl
