import FirebirdCore.Cvt.Misread
import FirebirdCore.Lib.RowMajor

/-!
# Arrays in backups

An array of which only the first elements are in the backup is restored in slices. `get_array` cuts the elements
into boxes, at most one for each dimension, and hands them to the engine with the bytes behind a running offset.
-/
namespace FirebirdCore.Burp
open Cvt (SLONG MIN_SLONG MAX_SLONG SLONG_of_mem SLONG_mem)
open RowMajor

/-! ## Fields -/

def blr_short : UInt8 := 7

def blr_long : UInt8 := 8

def blr_quad : UInt8 := 9

def blr_text : UInt8 := 14

def blr_text2 : UInt8 := 15

def blr_int64 : UInt8 := 16

def blr_varying : UInt8 := 37

def blr_varying2 : UInt8 := 38

def MAX_DIMENSION : ℕ := 16

/-- The field block, as far as arrays need it. The elements are counted in an `SLONG`. -/
structure burp_fld where
  fld_type : UInt8
  fld_length : ℕ
  fld_scale : ℤ
  fld_character_set_id : ℤ
  fld_name : List UInt8
  fld_ranges : List (ℤ × ℤ)
  fld_length_pos : 0 < fld_length
  fld_length_lt : fld_length + 2 < 2 ^ 16
  fld_ranges_ne_nil : fld_ranges ≠ []
  fld_ranges_length : fld_ranges.length ≤ MAX_DIMENSION
  filled : Filled fld_ranges
  bounds : ∀ r ∈ fld_ranges, MIN_SLONG ≤ r.1 ∧ r.2 ≤ MAX_SLONG
  elements : size fld_ranges ≤ MAX_SLONG

namespace burp_fld

def fld_dimensions (field : burp_fld) : ℕ := field.fld_ranges.length

/-- A varying text has its length in front. -/
def field_length (field : burp_fld) : ℕ :=
  if field.fld_type = blr_varying then field.fld_length + 2 else field.fld_length

end burp_fld

/-! ## The slice description -/

def isc_sdl_version1 : UInt8 := 1

def isc_sdl_relation : UInt8 := 2

def isc_sdl_field : UInt8 := 4

def isc_sdl_struct : UInt8 := 6

def isc_sdl_variable : UInt8 := 7

def isc_sdl_scalar : UInt8 := 8

def isc_sdl_long_integer : UInt8 := 11

def isc_sdl_do2 : UInt8 := 34

def isc_sdl_element : UInt8 := 36

def isc_sdl_eoc : UInt8 := 255

def add_byte (byte : ℤ) : UInt8 := UInt8.ofInt byte

def add_word (word : ℤ) : List UInt8 := [add_byte word, add_byte (word >>> (8 : ℕ))]

def add_long (lg : ℤ) : List UInt8 := add_word lg ++ add_word (lg >>> (16 : ℕ))

def add_string (string : List UInt8) : List UInt8 := add_byte string.length :: string

def typeBytes (field : burp_fld) : List UInt8 :=
  if field.fld_type = blr_text ∨ field.fld_type = blr_varying then
    (if field.fld_type = blr_text then blr_text2 else blr_varying2) ::
      (add_word field.fld_character_set_id ++ add_word field.fld_length)
  else if field.fld_type ∈ [blr_short, blr_long, blr_quad, blr_int64] then
    [field.fld_type, add_byte field.fld_scale]
  else [field.fld_type]

/-- One loop of the description. -/
def addDo2 (count : ℕ) (r : ℤ × ℤ) : List UInt8 :=
  isc_sdl_do2 :: add_byte count :: isc_sdl_long_integer :: add_long r.1 ++ isc_sdl_long_integer :: add_long r.2

/-- The description of a slice with these bounds. -/
def sdl (rel_name : List UInt8) (field : burp_fld) (bounds : List (ℤ × ℤ)) : List UInt8 :=
  isc_sdl_version1 :: isc_sdl_struct :: 1 :: typeBytes field ++
    isc_sdl_relation :: add_string rel_name ++ isc_sdl_field :: add_string field.fld_name ++
    (bounds.zipIdx.flatMap fun r => addDo2 r.2 r.1) ++
    [isc_sdl_element, 1, isc_sdl_scalar, 0, add_byte field.fld_dimensions] ++
    ((List.range field.fld_dimensions).flatMap fun (count : ℕ) => [isc_sdl_variable, add_byte count]) ++ [isc_sdl_eoc]

/-- `blr_buffer`, which is said to be large enough for 16 dimensions. -/
def BLR_BUFFER_SIZE : ℕ := 200

/-! ## The last element -/

/-- The subscripts of the last of so many elements. Signed arithmetic wraps. -/
def last_element_dim : ℤ → List (ℤ × ℤ) → List ℤ
  | _, [] => []
  | elements_remaining, r :: ranges =>
      let divisor := size ranges
      let last := SLONG ((elements_remaining - 1).tdiv divisor + r.1)
      last :: last_element_dim (SLONG (elements_remaining - (last - r.1) * divisor)) ranges

/-- The ranges that `put_array` writes where the full array was not returned. The number of elements is made
less by one before the last of them is looked for. -/
def put_array_ranges (field : burp_fld) (elements : ℕ) : List (ℤ × ℤ) :=
  (field.fld_ranges.zip (last_element_dim (elements - 1) field.fld_ranges)).map fun r => (r.1.1, r.2)

/-! ## The slices -/

/-- What the loop over the dimensions comes to. -/
inductive Pass where
  | dont_write
  | write (bounds : List (ℤ × ℤ)) (merged : Bool)
  deriving DecidableEq, Repr

def Pass.cons (r : ℤ × ℤ) : Pass → Pass
  | dont_write => dont_write
  | write bounds merged => write (r :: bounds) merged

/-- The bounds to be written for `current_dim`. The last two dimensions are merged where the row of the last
element is complete. -/
def findBounds (dimensions current_dim : ℕ) : ℕ → List (ℤ × ℤ) → List ℤ → Pass
  | count, r :: ranges, l :: last =>
      if current_dim + 1 = dimensions - 1 ∧ dimensions - count = 2 ∧ last.head? = ranges.head?.map Prod.snd then
        .write ((r.1, l) :: (ranges.zip last).map fun r => (r.1.1, r.2)) true
      else if current_dim = count then
        let upper := if current_dim = dimensions - 1 then l else SLONG (l - 1)
        if upper < r.1 then .dont_write
        else (findBounds dimensions current_dim (count + 1) ranges last).cons (r.1, upper)
      else if current_dim < count then (findBounds dimensions current_dim (count + 1) ranges last).cons r
      else (findBounds dimensions current_dim (count + 1) ranges last).cons (l, l)
  | _, _, _ => .write [] false

/-- What `isc_put_slice` is called with. -/
structure Slice where
  bounds : List (ℤ × ℤ)
  slice : List UInt8
  deriving DecidableEq, Repr

/-- `elements_written * field->fld_length` -/
def slice_length (fld_length : ℕ) (bounds : List (ℤ × ℤ)) : ℤ := SLONG (size bounds * fld_length)

/-- The loop over `current_dim`, with so many passes at most. There is no answer where the description does not
fit in `blr_buffer`. -/
def putSlices (rel_name : List UInt8) (field : burp_fld) (last : List ℤ) (buffer : List UInt8) :
    ℕ → ℕ → ℤ → Option (List Slice)
  | 0, _, _ => some []
  | passes + 1, current_dim, data_at =>
      if current_dim < field.fld_dimensions then
        match findBounds field.fld_dimensions current_dim 0 field.fld_ranges last with
        | .dont_write => putSlices rel_name field last buffer passes (current_dim + 1) data_at
        | .write bounds merged =>
            if BLR_BUFFER_SIZE < (sdl rel_name field bounds).length then none
            else
              let length := slice_length field.fld_length bounds
              (putSlices rel_name field last buffer passes (if merged then current_dim + 2 else current_dim + 1)
                (SLONG (data_at + length))).map
                (⟨bounds, (buffer.drop data_at.toNat).take length.toNat⟩ :: ·)
      else some []

/-- The slices that are put, given the ranges and the elements in the backup. -/
def get_array (rel_name : List UInt8) (field : burp_fld) (fld_ranges : List (ℤ × ℤ)) (buffer : List UInt8) :
    Option (List Slice) :=
  if (buffer.length : ℤ) ≠ SLONG (field.field_length * size fld_ranges) then
    putSlices rel_name field (last_element_dim (buffer.length / field.field_length : ℕ) field.fld_ranges) buffer
      field.fld_dimensions 0 0
  else if BLR_BUFFER_SIZE < (sdl rel_name field fld_ranges).length then none
  else some [⟨fld_ranges, buffer⟩]

/-- An array comes back from its backup. -/
def restore (rel_name : List UInt8) (field : burp_fld) (elements : List (List UInt8)) : Option (List Slice) :=
  get_array rel_name field (put_array_ranges field elements.length) elements.flatten

end FirebirdCore.Burp
