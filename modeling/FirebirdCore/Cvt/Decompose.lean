import Mathlib.Data.Int.Basic
import Mathlib.Data.List.Basic
import Mathlib.Tactic

/-!
# Strings to integers

`CVT_decompose` reads a decimal literal as a value and a scale, or a hexadecimal literal as a value.
-/
namespace FirebirdCore.Cvt

/-- The target types. -/
inductive DType where
  | dtype_long
  | dtype_int64
  deriving DecidableEq, Repr

inductive ConversionError where
  | conversion
  | numericOutOfRange
  deriving DecidableEq, Repr

def SINT64 (x : ℤ) : ℤ := Int.bmod x (2 ^ 64)

def SLONG (x : ℤ) : ℤ := Int.bmod x (2 ^ 32)

def SSHORT (x : ℤ) : ℤ := Int.bmod x (2 ^ 16)

def MAX_SLONG : ℤ := 2 ^ 31 - 1

def MIN_SLONG : ℤ := -2 ^ 31

def MAX_SINT64 : ℤ := 2 ^ 63 - 1

def MIN_SINT64 : ℤ := -2 ^ 63

/-- `SHORT_LIMIT`, for the exponent. -/
def SHORT_LIMIT : ℤ := 2 ^ 14 / 5

namespace DType

def lower_limit : DType → ℤ
  | dtype_long => MIN_SLONG
  | dtype_int64 => MIN_SINT64

def upper_limit : DType → ℤ
  | dtype_long => MAX_SLONG
  | dtype_int64 => MAX_SINT64

def limit_by_10 (dtype : DType) : ℤ := dtype.upper_limit / 10

end DType

/-- What `return_value` gets. -/
def return_value (dtype : DType) (value : ℤ) : ℤ :=
  match dtype with
  | .dtype_long => SLONG value
  | .dtype_int64 => value

def isDigit (c : UInt8) : Bool := 48 ≤ c && c ≤ 57

/-- `*p - '0'`. -/
def digit (c : UInt8) : ℕ := c.toNat - 48

def space : UInt8 := 32

/-! ## Decimal literals -/

structure Scan where
  value : ℤ
  scale : ℤ
  sign : ℤ
  digit_seen : Bool
  fraction : Bool
  deriving DecidableEq, Repr

/-- The loop over the mantissa. It ends at `e` or at the end of the string, and spaces have to be the
last characters. -/
def mantissa (dtype : DType) : List UInt8 → Scan → Except ConversionError (Scan × List UInt8)
  | [], s => .ok (s, [])
  | c :: rest, s =>
      if isDigit c then
        if s.value ≥ dtype.limit_by_10 ∧ (s.value > dtype.limit_by_10 ∨
            (c > 56 ∧ s.sign = -1 ∨ c > 55 ∧ s.sign ≠ -1)) then
          .error .numericOutOfRange
        else
          mantissa dtype rest
            { s with
              digit_seen := true
              value := SINT64 (s.value * 10 + digit c)
              scale := if s.fraction then SSHORT (s.scale - 1) else s.scale }
      else if c = 46 then
        if s.fraction then .error .conversion else mantissa dtype rest { s with fraction := true }
      else if c = 45 ∧ !s.digit_seen ∧ s.sign = 0 ∧ !s.fraction then
        mantissa dtype rest { s with sign := -1 }
      else if c = 43 ∧ !s.digit_seen ∧ s.sign = 0 ∧ !s.fraction then
        mantissa dtype rest { s with sign := 1 }
      else if c = 101 ∨ c = 69 then .ok (s, c :: rest)
      else if c = space then
        if rest.dropWhile (· = space) ≠ [] then .error .conversion else .ok (s, [])
      else .error .conversion

structure Exponent where
  exp : ℤ
  sign : ℤ
  digit_seen : Bool
  deriving DecidableEq, Repr

/-- The loop over the exponent. -/
def exponent : List UInt8 → Exponent → Except ConversionError Exponent
  | [], s => .ok s
  | c :: rest, s =>
      if isDigit c then
        let exp := SSHORT (s.exp * 10 + digit c)
        if exp ≥ SHORT_LIMIT then .error .numericOutOfRange
        else exponent rest { s with exp, digit_seen := true }
      else if c = 45 ∧ !s.digit_seen ∧ s.sign = 0 then exponent rest { s with sign := -1 }
      else if c = 43 ∧ !s.digit_seen ∧ s.sign = 0 then exponent rest { s with sign := 1 }
      else if c = space then
        if rest.dropWhile (· = space) ≠ [] then .error .conversion else .ok s
      else .error .conversion

def decomposeDecimal (dtype : DType) (text : List UInt8) : Except ConversionError (ℤ × ℤ) :=
  match mantissa dtype text ⟨0, 0, 0, false, false⟩ with
  | .error e => .error e
  | .ok (s, rest) =>
      if !s.digit_seen then .error .conversion
      else
        let value := if s.sign = -1 ∧ s.value ≠ dtype.lower_limit then SINT64 (-s.value) else s.value
        match rest with
        | [] => .ok (return_value dtype value, s.scale)
        | _ :: rest =>
            match exponent rest ⟨0, 0, false⟩ with
            | .error e => .error e
            | .ok x =>
                if !x.digit_seen then .error .conversion
                else
                  .ok (return_value dtype value,
                    SSHORT (if x.sign = -1 then s.scale - x.exp else s.scale + x.exp))

/-! ## Hexadecimal literals -/

def UPPER (c : UInt8) : UInt8 := if 97 ≤ c ∧ c ≤ 122 then c - 32 else c

def isHex (c : UInt8) : Bool := isDigit (UPPER c) || (65 ≤ UPPER c && UPPER c ≤ 70)

def nibble (c : UInt8) : ℕ := if UPPER c ≥ 65 then (UPPER c).toNat - 65 + 10 else (UPPER c).toNat - 48

/-- The loop of `hex_to_value` over what is in memory, and how many characters it has passed. -/
def hexLoop : List UInt8 → Bool → ℕ → ℤ → ℕ → ℤ × ℕ
  | [], _, _, value, read => (value, read)
  | c :: rest, second, byte, value, read =>
      if isHex c then
        if second then
          let byte := (byte * 16 + nibble c) % 256
          hexLoop rest false byte (SINT64 (value * 256 + byte)) (read + 1)
        else hexLoop rest true (nibble c) value (read + 1)
      else (value, read)

/-- `length` is the number of characters up to `end`. It does not stop the loop. -/
def hex_to_value (memory : List UInt8) (length : ℕ) : ℤ × ℕ :=
  hexLoop memory (length % 2 = 1) 0 0 0

/-- A literal that goes on with `body` behind `0x`. -/
def decomposeHex (dtype : DType) (body behind : List UInt8) : Except ConversionError (ℤ × ℤ) :=
  let digits := body.takeWhile fun c => c ≠ 0 && c ≠ space
  let rest := body.dropWhile fun c => c ≠ 0 && c ≠ space
  if rest.dropWhile (· = space) ≠ [] ∨ body.length = 0 ∨ body.length > 16 then .error .conversion
  else
    let result := hex_to_value (body ++ behind) digits.length
    if result.2 ≠ digits.length then .error .conversion
    else
      let value := if digits.length ≤ 8 then SLONG result.1 else result.1
      if dtype = .dtype_long ∧ (value < MIN_SLONG ∨ value > MAX_SLONG) then .error .numericOutOfRange
      else .ok (return_value dtype value, 0)

/-- The value and the scale of a string. `behind` is what follows it in memory. -/
def CVT_decompose (dtype : DType) (string behind : List UInt8) : Except ConversionError (ℤ × ℤ) :=
  match string.dropWhile (· = space) with
  | 48 :: x :: c :: body =>
      if UPPER x = 88 then decomposeHex dtype (c :: body) behind
      else decomposeDecimal dtype (48 :: x :: c :: body)
  | text => decomposeDecimal dtype text

end FirebirdCore.Cvt
