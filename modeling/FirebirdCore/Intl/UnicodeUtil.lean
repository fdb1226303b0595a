import Mathlib.Data.Nat.Notation
import Mathlib.Data.List.Basic

/-!
# Unicode conversions

The conversions between the Unicode encodings, and the checks for well-formed strings. A string is a
list of code units, a character is a number. What comes from ICU (the macros in capitals and
`utf8_nextCharSafeBody`) follows the Unicode definitions.
-/
namespace FirebirdCore.Intl

/-! ## ICU -/

def UTF_IS_LEAD (c : ℕ) : Prop := 0xD800 ≤ c ∧ c ≤ 0xDBFF

def UTF_IS_TRAIL (c : ℕ) : Prop := 0xDC00 ≤ c ∧ c ≤ 0xDFFF

def UTF_IS_SURROGATE (c : ℕ) : Prop := 0xD800 ≤ c ∧ c ≤ 0xDFFF

instance (c : ℕ) : Decidable (UTF_IS_LEAD c) := inferInstanceAs (Decidable (_ ∧ _))

instance (c : ℕ) : Decidable (UTF_IS_TRAIL c) := inferInstanceAs (Decidable (_ ∧ _))

instance (c : ℕ) : Decidable (UTF_IS_SURROGATE c) := inferInstanceAs (Decidable (_ ∧ _))

def UTF16_GET_PAIR_VALUE (first second : ℕ) : ℕ := 0x10000 + (first - 0xD800) * 0x400 + (second - 0xDC00)

def UTF16_LEAD (c : ℕ) : UInt16 := .ofNat (0xD800 + (c - 0x10000) / 0x400)

def UTF16_TRAIL (c : ℕ) : UInt16 := .ofNat (0xDC00 + c % 0x400)

def U8_LENGTH (c : ℕ) : ℕ :=
  if c ≤ 0x7F then 1
  else if c ≤ 0x7FF then 2
  else if c ≤ 0xD7FF then 3
  else if c ≤ 0xDFFF ∨ 0x10FFFF < c then 0
  else if c ≤ 0xFFFF then 3
  else 4

def U8_APPEND_UNSAFE (c : ℕ) : List UInt8 :=
  if c ≤ 0x7F then [.ofNat c]
  else if c ≤ 0x7FF then [.ofNat (0xC0 + c / 0x40), .ofNat (0x80 + c % 0x40)]
  else if c ≤ 0xFFFF then
    [.ofNat (0xE0 + c / 0x1000), .ofNat (0x80 + c / 0x40 % 0x40), .ofNat (0x80 + c % 0x40)]
  else
    [.ofNat (0xF0 + c / 0x40000), .ofNat (0x80 + c / 0x1000 % 0x40), .ofNat (0x80 + c / 0x40 % 0x40),
      .ofNat (0x80 + c % 0x40)]

def U8_IS_TRAIL (b : UInt8) : Prop := 0x80 ≤ b.toNat ∧ b.toNat ≤ 0xBF

instance (b : UInt8) : Decidable (U8_IS_TRAIL b) := inferInstanceAs (Decidable (_ ∧ _))

/-- The character that starts with the byte `c`, and what is behind it. There is none if the bytes are
ill-formed. -/
def utf8_nextCharSafeBody (c : UInt8) (s : List UInt8) : Option (ℕ × List UInt8) :=
  if 0xC0 ≤ c.toNat ∧ c.toNat ≤ 0xDF then
    match s with
    | b₁ :: s =>
        let ch := (c.toNat - 0xC0) * 0x40 + (b₁.toNat - 0x80)
        if U8_IS_TRAIL b₁ ∧ 0x80 ≤ ch then some (ch, s) else none
    | [] => none
  else if 0xE0 ≤ c.toNat ∧ c.toNat ≤ 0xEF then
    match s with
    | b₁ :: b₂ :: s =>
        let ch := (c.toNat - 0xE0) * 0x1000 + (b₁.toNat - 0x80) * 0x40 + (b₂.toNat - 0x80)
        if U8_IS_TRAIL b₁ ∧ U8_IS_TRAIL b₂ ∧ 0x800 ≤ ch ∧ ¬ UTF_IS_SURROGATE ch then some (ch, s) else none
    | _ => none
  else if 0xF0 ≤ c.toNat ∧ c.toNat ≤ 0xF7 then
    match s with
    | b₁ :: b₂ :: b₃ :: s =>
        let ch := (c.toNat - 0xF0) * 0x40000 + (b₁.toNat - 0x80) * 0x1000 + (b₂.toNat - 0x80) * 0x40 +
          (b₃.toNat - 0x80)
        if U8_IS_TRAIL b₁ ∧ U8_IS_TRAIL b₂ ∧ U8_IS_TRAIL b₃ ∧ 0x10000 ≤ ch ∧ ch ≤ 0x10FFFF then some (ch, s)
        else none
    | _ => none
  else none

def U_IS_UNICODE_NONCHAR (c : ℕ) : Prop := 0xFDD0 ≤ c ∧ (c ≤ 0xFDEF ∨ 0xFFFE ≤ c % 0x10000) ∧ c ≤ 0x10FFFF

instance (c : ℕ) : Decidable (U_IS_UNICODE_NONCHAR c) := inferInstanceAs (Decidable (_ ∧ _))

def U_IS_UNICODE_CHAR (c : ℕ) : Prop := c < 0xD800 ∨ 0xDFFF < c ∧ c ≤ 0x10FFFF ∧ ¬ U_IS_UNICODE_NONCHAR c

instance (c : ℕ) : Decidable (U_IS_UNICODE_CHAR c) := inferInstanceAs (Decidable (_ ∨ _))

/-! ## Conversions -/

/-- `CS_TRUNCATION_ERROR` and `CS_BAD_INPUT`. -/
inductive ErrCode where
  | truncation
  | badInput
  deriving DecidableEq, Repr

/-- The destination after a conversion. `errCode` is `none` for 0, and `errPosition` is `none` where it is
not set. -/
structure Conversion (β : Type*) where
  dst : List β
  errCode : Option ErrCode
  errPosition : Option ℕ
  deriving DecidableEq, Repr

/-- These units are written in front. -/
def Conversion.push {β : Type*} (units : List β) (r : Conversion β) : Conversion β :=
  { r with dst := units ++ r.dst }

/-- From the unit `i` of the source on, with room for so many bytes. -/
def utf16ToUtf8Loop : List UInt16 → ℕ → ℕ → Option ℕ → Conversion UInt8
  | [], _, _, errPosition => ⟨[], none, errPosition⟩
  | c :: src, i, room, errPosition =>
      if room = 0 then ⟨[], some .truncation, some (i * 2)⟩
      else if c.toNat ≤ 0x7F then
        (utf16ToUtf8Loop src (i + 1) (room - 1) errPosition).push [.ofNat c.toNat]
      else
        let errPosition := some (i * 2)
        if UTF_IS_SURROGATE c.toNat then
          match src with
          | c2 :: src =>
              if UTF_IS_LEAD c.toNat ∧ UTF_IS_TRAIL c2.toNat then
                let c := UTF16_GET_PAIR_VALUE c.toNat c2.toNat
                if U8_LENGTH c ≤ room then
                  (utf16ToUtf8Loop src (i + 2) (room - U8_LENGTH c) errPosition).push (U8_APPEND_UNSAFE c)
                else ⟨[], some .truncation, errPosition⟩
              else ⟨[], some .badInput, errPosition⟩
          | [] => ⟨[], some .badInput, errPosition⟩
        else if U8_LENGTH c.toNat ≤ room then
          (utf16ToUtf8Loop src (i + 1) (room - U8_LENGTH c.toNat) errPosition).push
            (U8_APPEND_UNSAFE c.toNat)
        else ⟨[], some .truncation, errPosition⟩

def utf16ToUtf8 (src : List UInt16) (dstLen : ℕ) : Conversion UInt8 := utf16ToUtf8Loop src 0 dstLen none

/-- What `utf16ToUtf8` returns if there is no destination, for a source of so many bytes. -/
def utf16ToUtf8Length (srcLen : ℕ) : ℕ := srcLen / 2 * 4

/-- From the byte `i` of the source on, with room for so many units. A byte is read by each turn. -/
def utf8ToUtf16Loop : ℕ → List UInt8 → ℕ → ℕ → Option ℕ → Conversion UInt16
  | 0, _, _, _, errPosition => ⟨[], none, errPosition⟩
  | _ + 1, [], _, _, errPosition => ⟨[], none, errPosition⟩
  | fuel + 1, c :: src, i, room, errPosition =>
      if room = 0 then ⟨[], some .truncation, some i⟩
      else if c.toNat ≤ 0x7F then
        (utf8ToUtf16Loop fuel src (i + 1) (room - 1) errPosition).push [.ofNat c.toNat]
      else
        let errPosition := some i
        match utf8_nextCharSafeBody c src with
        | none => ⟨[], some .badInput, errPosition⟩
        | some (ch, rest) =>
            let next := i + 1 + (src.length - rest.length)
            if ch ≤ 0xFFFF then (utf8ToUtf16Loop fuel rest next (room - 1) errPosition).push [.ofNat ch]
            else if 1 < room then
              (utf8ToUtf16Loop fuel rest next (room - 2) errPosition).push [UTF16_LEAD ch, UTF16_TRAIL ch]
            else ⟨[], some .truncation, errPosition⟩

def utf8ToUtf16 (src : List UInt8) (dstLen : ℕ) : Conversion UInt16 :=
  utf8ToUtf16Loop src.length src 0 (dstLen / 2) none

def utf8ToUtf16Length (srcLen : ℕ) : ℕ := srcLen * 2

def utf16ToUtf32Loop : List UInt16 → ℕ → ℕ → Conversion UInt32
  | [], i, _ => ⟨[], none, some (i * 2)⟩
  | ch :: src, i, room =>
      if room = 0 then ⟨[], some .truncation, some (i * 2)⟩
      else if UTF_IS_LEAD ch.toNat then
        match src with
        | ch2 :: src =>
            if UTF_IS_TRAIL ch2.toNat then
              (utf16ToUtf32Loop src (i + 2) (room - 1)).push
                [.ofNat (UTF16_GET_PAIR_VALUE ch.toNat ch2.toNat)]
            else ⟨[], some .badInput, some (i * 2)⟩
        | [] => ⟨[], some .badInput, some (i * 2)⟩
      else (utf16ToUtf32Loop src (i + 1) (room - 1)).push [.ofNat ch.toNat]

def utf16ToUtf32 (src : List UInt16) (dstLen : ℕ) : Conversion UInt32 :=
  utf16ToUtf32Loop src 0 (dstLen / 4)

def utf16ToUtf32Length (srcLen : ℕ) : ℕ := srcLen / 2 * 4

def utf32ToUtf16Loop : List UInt32 → ℕ → ℕ → Conversion UInt16
  | [], i, _ => ⟨[], none, some (i * 4)⟩
  | ch :: src, i, room =>
      if room = 0 then ⟨[], some .truncation, some (i * 4)⟩
      else if ch.toNat ≤ 0xFFFF then (utf32ToUtf16Loop src (i + 1) (room - 1)).push [.ofNat ch.toNat]
      else if ch.toNat ≤ 0x10FFFF then
        if 1 < room then
          (utf32ToUtf16Loop src (i + 1) (room - 2)).push [UTF16_LEAD ch.toNat, UTF16_TRAIL ch.toNat]
        -- The lead unit is taken back, but not the character that was read.
        else ⟨[], some .truncation, some ((i + 1) * 4)⟩
      else ⟨[], some .badInput, some (i * 4)⟩

def utf32ToUtf16 (src : List UInt32) (dstLen : ℕ) : Conversion UInt16 :=
  utf32ToUtf16Loop src 0 (dstLen / 2)

def utf32ToUtf16Length (srcLen : ℕ) : ℕ := srcLen

/-! ## Well-formed strings -/

/-- `offending_position`, if the string is malformed. -/
def utf8WellFormedLoop : ℕ → List UInt8 → ℕ → Option ℕ
  | 0, _, _ => none
  | _ + 1, [], _ => none
  | fuel + 1, c :: str, i =>
      if c.toNat ≤ 0x7F then utf8WellFormedLoop fuel str (i + 1)
      else
        match utf8_nextCharSafeBody c str with
        | none => some i
        | some (_, rest) => utf8WellFormedLoop fuel rest (i + 1 + (str.length - rest.length))

def utf8WellFormed (str : List UInt8) : Option ℕ := utf8WellFormedLoop str.length str 0

/-- `U16_NEXT` makes a character of a lead and a trail unit, any other unit is left as it is. -/
def utf16WellFormedLoop : List UInt16 → ℕ → Option ℕ
  | [], _ => none
  | [c], i => if UTF_IS_LEAD c.toNat ∨ UTF_IS_TRAIL c.toNat then some (i * 2) else none
  | c :: c2 :: str, i =>
      if UTF_IS_LEAD c.toNat ∧ UTF_IS_TRAIL c2.toNat then utf16WellFormedLoop str (i + 2)
      else if UTF_IS_LEAD c.toNat ∨ UTF_IS_TRAIL c.toNat then some (i * 2)
      else utf16WellFormedLoop (c2 :: str) (i + 1)

def utf16WellFormed (str : List UInt16) : Option ℕ := utf16WellFormedLoop str 0

def utf32WellFormedLoop : List UInt32 → ℕ → Option ℕ
  | [], _ => none
  | c :: str, i => if ¬ U_IS_UNICODE_CHAR c.toNat then some (i * 4) else utf32WellFormedLoop str (i + 1)

def utf32WellFormed (str : List UInt32) : Option ℕ := utf32WellFormedLoop str 0

end FirebirdCore.Intl
