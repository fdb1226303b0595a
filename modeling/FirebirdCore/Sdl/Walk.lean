import FirebirdCore.Lib.Machine
import FirebirdCore.Sdl.Execute

/-!
# The walk through a slice

`SDL_walk` skips the clauses in front of the elements, and compiles and executes the elements one by one.
-/
namespace FirebirdCore.Sdl

/-! ## Clauses in front of the elements -/

def isc_sdl_relation : UInt8 := 2
def isc_sdl_rid : UInt8 := 3
def isc_sdl_field : UInt8 := 4
def isc_sdl_fid : UInt8 := 5
def isc_sdl_struct : UInt8 := 6
def isc_sdl_eoc : UInt8 := 255

def blr_short : UInt8 := 7
def blr_long : UInt8 := 8
def blr_quad : UInt8 := 9
def blr_float : UInt8 := 10
def blr_d_float : UInt8 := 11
def blr_sql_date : UInt8 := 12
def blr_sql_time : UInt8 := 13
def blr_text : UInt8 := 14
def blr_text2 : UInt8 := 15
def blr_int64 : UInt8 := 16
def blr_bool : UInt8 := 23
def blr_double : UInt8 := 27
def blr_timestamp : UInt8 := 35
def blr_varying : UInt8 := 37
def blr_varying2 : UInt8 := 38
def blr_cstring : UInt8 := 40
def blr_cstring2 : UInt8 := 41

/-- How many bytes stand behind the type: a text type, a length or a scale. -/
def descriptorBytes (blr : UInt8) : Option ℕ :=
  if blr ∈ [blr_text2, blr_cstring2, blr_varying2] then some 4
  else if blr ∈ [blr_text, blr_cstring, blr_varying] then some 2
  else if blr ∈ [blr_short, blr_long, blr_int64, blr_quad] then some 1
  else if blr ∈ [blr_float, blr_double, blr_d_float, blr_timestamp, blr_sql_date, blr_sql_time,
      blr_bool] then some 0
  else none

/-- The descriptor itself is not used. -/
def sdl_desc (ptr : List UInt8) : Except Failure (Option (List UInt8)) := do
  let (blr, sdl) ← next ptr
  match descriptorBytes blr with
  | none => return none
  | some bytes =>
      let (_, sdl) ← nextBytes bytes sdl
      return some sdl

def skipStruct (sdl_length : ℕ) : ℕ → List UInt8 → Except Failure (List UInt8)
  | 0, p => .ok p
  | n + 1, p => do
      match ← sdl_desc p with
      | none => .error (.error (.invalid_sdl (sdl_length - p.length - 1)))
      | some p => skipStruct sdl_length n p

def headers : List UInt8 :=
  [isc_sdl_struct, isc_sdl_fid, isc_sdl_rid, isc_sdl_field, isc_sdl_relation]

/-- A clause that is not an element. -/
def skipHeader (sdl_length : ℕ) (op : UInt8) (p : List UInt8) : Except Failure (List UInt8) :=
  if op = isc_sdl_struct then do
    let (n, p) ← next p
    skipStruct sdl_length n.toNat p
  else if op = isc_sdl_fid ∨ op = isc_sdl_rid then .ok (p.drop 2)
  else do
    let (n, p) ← next p
    return p.drop n.toNat

/-! ## Elements -/

/-- The variables and the slice behind the walk, or why it has stopped. -/
abbrev Walked := Except Stop (List ℤ × array_slice)

def Failure.stop : Failure → Stop
  | error e => .error e
  | fault f => .fault f

/-- The code as far as it gets in so many steps. -/
def execute (w : Walk) (steps : ℕ) (vars : List ℤ) (argument : array_slice) : Option Walked :=
  match Lib.Machine.run (step w) steps (entered vars argument) with
  | .ok _ => none
  | .error (.exit, s) => some (.ok (s.sdl_arg_variables, s.argument))
  | .error (stop, _) => some (.error stop)

/-- One clause after the other up to the end of the description. A clause is a byte at least. -/
def walkClauses (w : Walk) (sdl_length steps : ℕ) :
    ℕ → List UInt8 → List ℤ → array_slice → Option Walked
  | 0, _, _, _ => some (.error (.fault .description))
  | _ + 1, [], _, _ => some (.error (.fault .description))
  | fuel + 1, op :: p, vars, argument =>
      if op = isc_sdl_eoc then some (.ok (vars, argument))
      else if op ∈ headers then
        match skipHeader sdl_length op p with
        | .error failure => some (.error failure.stop)
        | .ok p => walkClauses w sdl_length steps fuel p vars argument
      else
        match compileDescription w.sdl_arg_desc sdl_length (op :: p) with
        | .error failure => some (.error failure.stop)
        | .ok (p, code) =>
            match execute { w with sdl_arg_compiled := code } steps vars argument with
            | some (.ok (vars, argument)) => walkClauses w sdl_length steps fuel p vars argument
            | result => result

/-- The version in front of the clauses is not looked at. Nothing is returned where an element needs more
steps. -/
def SDL_walk (w : Walk) (steps : ℕ) (sdl : List UInt8) (vars : List ℤ) (argument : array_slice) :
    Option Walked :=
  walkClauses w sdl.length steps sdl.length (sdl.drop 1) vars argument

end FirebirdCore.Sdl
