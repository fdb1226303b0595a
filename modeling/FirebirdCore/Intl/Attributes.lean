import FirebirdCore.Intl.CharSet
import FirebirdCore.Lib.Machine
import Mathlib.Data.List.Sort

/-!
# The specific attributes of a collation

`generateSpecificAttributes` writes a map of names and values as a string, and
`parseSpecificAttributes` reads such a string. Both go through the string by characters of the character
set. The parser is a machine: a turn is one test of the loop that it is in.
-/
namespace FirebirdCore.Intl

/-! ## The map -/

/-- A map of names to values, in the order of the names. -/
@[ext] structure SpecificAttributesMap where
  entries : List (List UInt8 × List UInt8)
  sorted : entries.Pairwise fun a b => a.1 < b.1

namespace SpecificAttributesMap

def empty : SpecificAttributesMap := ⟨[], .nil⟩

theorem pairwise_filter {entries : List (List UInt8 × List UInt8)}
    (h : entries.Pairwise fun a b => a.1 < b.1) (P : List UInt8 × List UInt8 → Bool) :
    (entries.filter P).Pairwise fun a b => a.1 < b.1 := h.sublist List.filter_sublist

def remove (map : SpecificAttributesMap) (name : List UInt8) : SpecificAttributesMap :=
  ⟨map.entries.filter fun entry => entry.1 ≠ name, pairwise_filter map.sorted _⟩

/-- The entry of the name is stored, whether the name is there or not. -/
def put (map : SpecificAttributesMap) (name value : List UInt8) : SpecificAttributesMap where
  entries := (map.entries.filter fun entry => entry.1 < name) ++
    (name, value) :: map.entries.filter fun entry => name < entry.1
  sorted := by
    rw [List.pairwise_append, List.pairwise_cons]
    refine ⟨pairwise_filter map.sorted _, ⟨?_, pairwise_filter map.sorted _⟩, ?_⟩
    · intro entry h
      simpa using (List.mem_filter.1 h).2
    · intro a ha b hb
      have hlt : a.1 < name := by simpa using (List.mem_filter.1 ha).2
      rcases List.mem_cons.1 hb with rfl | hb
      · exact hlt
      · have hgt : name < b.1 := by simpa using (List.mem_filter.1 hb).2
        exact List.lt_trans hlt hgt

end SpecificAttributesMap

/-! ## Reading characters -/

/-- `raised` is an exception, `beyondEnd` a character that would be read behind the end of the string,
and `endless` a loop that does not end. -/
inductive Failure where
  | raised
  | beyondEnd
  | endless
  deriving DecidableEq, Repr

/-- What is left of the string, and the size of the current character. -/
structure Reader where
  p : List UInt8
  size : ℕ
  size_le : size ≤ p.length
  deriving DecidableEq

namespace Reader

def atEnd : Reader := ⟨[], 0, le_rfl⟩

/-- In front of the first character. -/
def start (s : List UInt8) : Reader := ⟨s, 0, Nat.zero_le _⟩

def char (r : Reader) : List UInt8 := r.p.take r.size

/-- What is behind the current character. -/
def rest (r : Reader) : List UInt8 := r.p.drop r.size

end Reader

namespace CharSet

variable (cs : CharSet)

/-- None if there is no character. -/
def readOneChar (r : Reader) : Except Failure (Option Reader) :=
  if r.rest = [] then .ok none
  else
    match cs.substring r.rest 4 0 1 with
    | none => .error .raised
    | some c => if h : c.length ≤ r.rest.length then .ok (some ⟨r.rest, c.length, h⟩) else .error .beyondEnd

/-- The Unicode text of the current character. -/
def units (r : Reader) : Except Failure (List UInt16) :=
  match cs.toUnicode r.char 4 with
  | none => .error .raised
  | some uc => .ok uc

def escapeChar : UInt16 := 0x5C
def equalChar : UInt16 := 0x3D
def semiColonChar : UInt16 := 0x3B

def isAttributeEscape (r : Reader) : Except Failure Bool :=
  match cs.units r with
  | .error e => .error e
  | .ok uc => .ok (uc = [escapeChar])

/-- An escape and what follows it are one character. None if there is no character, or nothing follows
an escape. -/
def readAttributeChar (r : Reader) (returnEscape : Bool) : Except Failure (Option Reader) :=
  match cs.readOneChar r with
  | .error e => .error e
  | .ok none => .ok none
  | .ok (some first) =>
      match cs.isAttributeEscape first with
      | .error e => .error e
      | .ok false => .ok (some first)
      | .ok true =>
          match cs.readOneChar first with
          | .error e => .error e
          | .ok none => .ok none
          | .ok (some second) =>
              if returnEscape then
                if h : first.size + second.size ≤ first.p.length then
                  .ok (some ⟨first.p, first.size + second.size, h⟩)
                else .error .beyondEnd
              else .ok (some second)

def isSpace (r : Reader) : Bool := r.p ≠ [] ∧ r.size = cs.space.length ∧ r.char = cs.space

/-! ## Escapes -/

/-- A turn takes a character, so that the loop ends with these turns if it does. -/
def escapeLoop : ℕ → Reader → Except Failure (List UInt8)
  | 0, _ => .error .endless
  | fuel + 1, r =>
      match cs.readOneChar r with
      | .error e => .error e
      | .ok none => .ok []
      | .ok (some r) =>
          match cs.units r with
          | .error e => .error e
          | .ok uc =>
              match escapeLoop fuel r with
              | .error e => .error e
              | .ok ret =>
                  if uc = [escapeChar] ∨ uc = [equalChar] ∨ uc = [semiColonChar] then
                    match cs.fromUnicode [escapeChar] 4 with
                    | none => .error .raised
                    | some bytes => .ok (bytes ++ r.char ++ ret)
                  else .ok (r.char ++ ret)

def escapeAttribute (s : List UInt8) : Except Failure (List UInt8) :=
  cs.escapeLoop (s.length + 1) (.start s)

def unescapeLoop : ℕ → Reader → Except Failure (List UInt8)
  | 0, _ => .error .endless
  | fuel + 1, r =>
      match cs.readAttributeChar r false with
      | .error e => .error e
      | .ok none => .ok []
      | .ok (some r) =>
          match unescapeLoop fuel r with
          | .error e => .error e
          | .ok ret => .ok (r.char ++ ret)

def unescapeAttribute (s : List UInt8) : Except Failure (List UInt8) :=
  cs.unescapeLoop (s.length + 1) (.start s)

/-! ## Generating -/

def generateEntries : List (List UInt8 × List UInt8) → Except Failure (List UInt8)
  | [] => .ok []
  | (name, value) :: entries =>
      match cs.escapeAttribute name, cs.fromUnicode [equalChar] 4, cs.escapeAttribute value with
      | .ok name, some equal, .ok value =>
          if entries = [] then .ok (name ++ equal ++ value)
          else
            match cs.fromUnicode [semiColonChar] 4, generateEntries entries with
            | some semiColon, .ok s => .ok (name ++ equal ++ value ++ semiColon ++ s)
            | none, _ => .error .raised
            | _, .error e => .error e
      | .error e, _, _ => .error e
      | _, none, _ => .error .raised
      | _, _, .error e => .error e

def generateSpecificAttributes (map : SpecificAttributesMap) : Except Failure (List UInt8) :=
  cs.generateEntries map.entries

/-! ## Parsing -/

/-- A letter, a minus sign or an underscore. -/
def isNameChar (uc : List UInt16) : Bool :=
  match uc with
  | [u] => 0x41 ≤ u && u ≤ 0x5A || 0x61 ≤ u && u ≤ 0x7A || u = 0x2D || u = 0x5F
  | _ => false

/-- The loop that the parser is in. -/
inductive Label where
  | attribute
  | leading
  | name
  | gap
  | spaces
  | value
  deriving DecidableEq, Repr

structure Parser where
  label : Label
  reader : Reader
  start : List UInt8
  name : List UInt8
  endNoSpace : List UInt8
  map : SpecificAttributesMap

inductive Answer where
  | returns (result : Bool) (map : SpecificAttributesMap)
  | stops (e : Failure)

/-- The bytes from one position of the string up to another. -/
def between (first last : List UInt8) : List UInt8 := first.take (first.length - last.length)

/-- The attribute is removed if its value is empty. -/
def store (s : Parser) (r : Reader) (value : List UInt8) : Parser :=
  { s with
    label := .attribute
    reader := r
    map := if value = [] then s.map.remove s.name else s.map.put s.name value }

/-- Behind the loop over a value, whose end the reader has come to. -/
def endValue (s : Parser) (r : Reader) (endNoSpace : List UInt8) : Except Answer Parser :=
  match cs.unescapeAttribute (between s.start endNoSpace) with
  | .error e => .error (.stops e)
  | .ok value =>
      if r.p = [] then .ok (store s r value)
      else
        -- skip the semicolon
        match cs.readAttributeChar r true with
        | .error e => .error (.stops e)
        | .ok none => .ok (store s .atEnd value)
        | .ok (some r) => .ok (store s r value)

/-- Behind the loop over a name. -/
def endName (s : Parser) : Except Answer Parser :=
  if s.start.length - s.reader.p.length = 0 then .error (.returns false s.map)
  else
    match cs.unescapeAttribute (between s.start s.reader.p) with
    | .error e => .error (.stops e)
    | .ok name => .ok { s with label := .gap, name }

def turn (s : Parser) : Except Answer Parser :=
  match s.label with
  | .attribute =>
      if s.reader.p = [] then .error (.returns true s.map) else .ok { s with label := .leading }
  | .leading =>
      if cs.isSpace s.reader then
        match cs.readAttributeChar s.reader true with
        | .error e => .error (.stops e)
        | .ok none => .error (.returns true s.map)
        | .ok (some r) => .ok { s with reader := r }
      else .ok { s with label := .name, start := s.reader.p }
  | .name =>
      if s.reader.p = [] then cs.endName s
      else
        match cs.units s.reader with
        | .error e => .error (.stops e)
        | .ok uc =>
            if isNameChar uc then
              match cs.readAttributeChar s.reader true with
              | .error e => .error (.stops e)
              | .ok none => .error (.returns false s.map)
              | .ok (some r) => .ok { s with reader := r }
            else cs.endName s
  | .gap =>
      if cs.isSpace s.reader then
        match cs.readAttributeChar s.reader true with
        | .error e => .error (.stops e)
        | .ok none => .error (.returns false s.map)
        | .ok (some r) => .ok { s with reader := r }
      else
        match cs.units s.reader with
        | .error e => .error (.stops e)
        | .ok uc =>
            if uc ≠ [equalChar] then .error (.returns false s.map)
            else
              match cs.readAttributeChar s.reader true with
              | .error e => .error (.stops e)
              | .ok none => .ok (store s .atEnd [])
              | .ok (some r) => .ok { s with label := .spaces, reader := r }
  | .spaces =>
      if cs.isSpace s.reader then
        match cs.readAttributeChar s.reader true with
        | .error e => .error (.stops e)
        | .ok none => .error (.returns false s.map)
        | .ok (some r) => .ok { s with reader := r }
      else .ok { s with label := .value, start := s.reader.p, endNoSpace := s.reader.p }
  | .value =>
      if s.reader.p = [] then cs.endValue s s.reader s.endNoSpace
      else
        match cs.units s.reader with
        | .error e => .error (.stops e)
        | .ok uc =>
            if uc ≠ [semiColonChar] then
              let endNoSpace := if cs.isSpace s.reader then s.endNoSpace else s.reader.rest
              match cs.readAttributeChar s.reader true with
              | .error e => .error (.stops e)
              | .ok none => cs.endValue s .atEnd endNoSpace
              | .ok (some r) => .ok { s with reader := r, endNoSpace }
            else cs.endValue s s.reader s.endNoSpace

/-- The reader behind the first read: it is at the end if there is nothing to read. -/
def initial (map : SpecificAttributesMap) (r : Reader) : Parser :=
  ⟨.attribute, r, [], [], [], map⟩

/-- `parseSpecificAttributes` comes to the answer. -/
def Parses (s : List UInt8) (map : SpecificAttributesMap) (answer : Answer) : Prop :=
  match cs.readAttributeChar (.start s) true with
  | .error e => answer = .stops e
  | .ok none => Lib.Machine.Halts cs.turn (initial map .atEnd) answer
  | .ok (some r) => Lib.Machine.Halts cs.turn (initial map r) answer

end CharSet

end FirebirdCore.Intl
