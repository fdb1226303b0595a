import FirebirdCore.Sdl.Compiled

/-!
# Outlines of any bytes

Every sequence of bytes is the outline of a description, in which it may be that something is missing or
unknown. The extent of an outline tells how many words its compilation stores before it ends, and how
it ends.
-/
namespace FirebirdCore.Sdl

/-! ## Trees -/

/-- `saved` and `nothing` make up the expressions that are passed over before they are compiled. -/
inductive Tree where
  | missing
  | unknown
  | literal (bytes : List UInt8)
  | var (i : UInt8)
  | binary (o : Operator) (x y : Tree)
  | nothing
  | saved (x rest : Tree)
  | scalar (value : UInt8) (count : ℕ) (subscripts : Tree)
  | element (count : ℕ) (parts : Tree)
  | loop (i : UInt8) (lower upper increment body : Tree)
  deriving DecidableEq, Repr

/-- A tree, and the bytes behind it. -/
abbrev Parser := List UInt8 → Tree × List UInt8

def parseLiteral (bytes : ℕ) (p : List UInt8) : Tree × List UInt8 :=
  if bytes ≤ p.length then (.literal (p.take bytes), p.drop bytes) else (.missing, [])

def parseBinary (parse : Parser) (o : Operator) (p : List UInt8) : Tree × List UInt8 :=
  let x := parse p
  let y := parse x.2
  (.binary o x.1 y.1, y.2)

def parseSaved (parse : Parser) : ℕ → List UInt8 → Tree × List UInt8
  | 0, p => (.nothing, p)
  | n + 1, p =>
      let x := parse p
      let rest := parseSaved parse n x.2
      (.saved x.1 rest.1, rest.2)

/-- Bounds that are not given are 1. -/
def parseLower (parse : Parser) (verb : Verb) (p : List UInt8) : Tree × List UInt8 :=
  if verb = .isc_sdl_do1 then (.literal [1], p) else parse p

def parseIncrement (parse : Parser) (verb : Verb) (p : List UInt8) : Tree × List UInt8 :=
  if verb = .isc_sdl_do3 then parse p else (.literal [1], p)

def parseLoop (parse : Parser) (verb : Verb) : List UInt8 → Tree × List UInt8
  | [] => (.missing, [])
  | i :: p =>
      let lower := parseLower parse verb p
      let upper := parse lower.2
      let increment := parseIncrement parse verb upper.2
      let body := parse increment.2
      (.loop i lower.1 upper.1 increment.1 body.1, body.2)

def parseScalar (parse : Parser) : List UInt8 → Tree × List UInt8
  | value :: count :: p =>
      let subscripts := parseSaved parse count.toNat p
      (.scalar value count.toNat subscripts.1, subscripts.2)
  | _ => (.missing, [])

def parseElement (parse : Parser) : List UInt8 → Tree × List UInt8
  | [] => (.missing, [])
  | count :: p =>
      let parts := parseSaved parse count.toNat p
      (.element count.toNat parts.1, parts.2)

def parseVariable : List UInt8 → Tree × List UInt8
  | [] => (.missing, [])
  | i :: p => (.var i, p)

def parseVerb (parse : Parser) (verb : Verb) (p : List UInt8) : Tree × List UInt8 :=
  match verb with
  | .isc_sdl_do1 => parseLoop parse verb p
  | .isc_sdl_do2 => parseLoop parse verb p
  | .isc_sdl_do3 => parseLoop parse verb p
  | .isc_sdl_variable => parseVariable p
  | .isc_sdl_tiny_integer => parseLiteral 1 p
  | .isc_sdl_short_integer => parseLiteral 2 p
  | .isc_sdl_long_integer => parseLiteral 4 p
  | .isc_sdl_add => parseBinary parse .add p
  | .isc_sdl_subtract => parseBinary parse .subtract p
  | .isc_sdl_multiply => parseBinary parse .multiply p
  | .isc_sdl_divide => parseBinary parse .divide p
  | .isc_sdl_scalar => parseScalar parse p
  | .isc_sdl_element => parseElement parse p

/-- What is behind a byte that is no verb has a tree as well. -/
def parse : ℕ → List UInt8 → Tree × List UInt8
  | 0, p => (.missing, p)
  | _ + 1, [] => (.missing, [])
  | fuel + 1, op :: p =>
      match verb? op with
      | none => (.unknown, p)
      | some verb => parseVerb (parse fuel) verb p

/-! ## Extents -/

/-- How a compilation ends: with all of the code, with an error that is reported, or with a fault. -/
inductive Ending where
  | complete
  | reported
  | unguarded
  deriving DecidableEq, Repr

/-- The words that are stored before the end. -/
structure Extent where
  words : ℕ
  ending : Ending
  deriving DecidableEq, Repr

namespace Extent

def stored (words : ℕ) : Extent := ⟨words, .complete⟩

def reported : Extent := ⟨0, .reported⟩

def unguarded : Extent := ⟨0, .unguarded⟩

def andThen (x y : Extent) : Extent :=
  match x.ending with
  | .complete => ⟨x.words + y.words, y.ending⟩
  | _ => x

theorem andThen_of_complete {x : Extent} (h : x.ending = .complete) (y : Extent) :
    x.andThen y = ⟨x.words + y.words, y.ending⟩ := by
  simp [andThen, h]

theorem andThen_of_ne {x : Extent} (h : x.ending ≠ .complete) (y : Extent) : x.andThen y = x := by
  unfold andThen
  split
  · contradiction
  · rfl

theorem andThen_complete {x y : Extent} :
    (x.andThen y).ending = .complete ↔ x.ending = .complete ∧ y.ending = .complete := by
  by_cases h : x.ending = .complete
  · simp [andThen_of_complete h, h]
  · simp [andThen_of_ne h, h]

theorem andThen_words {x y : Extent} (h : (x.andThen y).ending = .complete) :
    (x.andThen y).words = x.words + y.words := by
  rw [andThen_of_complete (andThen_complete.1 h).1]

@[simp] theorem stored_ending (words : ℕ) : (stored words).ending = .complete := rfl

@[simp] theorem stored_words (words : ℕ) : (stored words).words = words := rfl

@[simp] theorem stored_andThen (words : ℕ) (x : Extent) :
    (stored words).andThen x = ⟨words + x.words, x.ending⟩ := rfl

theorem stored_zero_andThen (x : Extent) : (stored 0).andThen x = x := by
  simp

@[simp] theorem unguarded_andThen (x : Extent) : unguarded.andThen x = unguarded := rfl

@[simp] theorem reported_andThen (x : Extent) : reported.andThen x = reported := rfl

end Extent

/-- Nothing is stored without a parameter block. -/
def words (desc : Option InternalArrayDesc) (n : ℕ) : Extent := .stored (if desc.isSome then n else 0)

/-- The number of subscripts is checked where there is a parameter block. -/
def subscriptsChecked (count : ℕ) : Option InternalArrayDesc → Extent
  | none => .stored 0
  | some desc => if count = desc.iad_dimensions then .stored 0 else .reported

def partsChecked (count : ℕ) : Option InternalArrayDesc → Extent
  | none => .stored 0
  | some _ => if count = 1 then .stored 0 else .reported

/-- There is no check that so many expressions can be saved. -/
def savedUnchecked (count : ℕ) : Extent :=
  if count ≤ MAX_ARRAY_DIMENSIONS then .stored 0 else .unguarded

/-- The extent of an outline that is compiled with a parameter block for the array, or parsed only. A bad
verb is reported through the parameter block. -/
def Tree.extent (desc : Option InternalArrayDesc) : Tree → Extent
  | missing => .unguarded
  | unknown => if desc.isSome then .reported else .unguarded
  | literal _ => words desc 2
  | var _ => words desc 2
  | binary _ x y => (x.extent desc).andThen ((y.extent desc).andThen (words desc 1))
  | nothing => .stored 0
  | saved x rest => (rest.extent desc).andThen (x.extent desc)
  | scalar _ count subscripts =>
      (subscriptsChecked count desc).andThen ((savedUnchecked count).andThen
        ((subscripts.extent none).andThen ((subscripts.extent desc).andThen (words desc 3))))
  | element count parts =>
      (partsChecked count desc).andThen ((savedUnchecked count).andThen
        ((parts.extent none).andThen ((parts.extent desc).andThen (words desc 2))))
  | loop _ lower upper increment body =>
      (lower.extent none).andThen ((upper.extent desc).andThen ((increment.extent desc).andThen
        ((lower.extent desc).andThen ((words desc 4).andThen ((body.extent desc).andThen
          (words desc 2))))))

/-! ## Code -/

/-- The code of an outline that is compiled to `base`. -/
def Tree.code (base : ℕ) : Tree → List ℤ
  | missing => []
  | unknown => []
  | literal bytes => [op_literal, Sdl.literal bytes]
  | var i => [op_variable, i.toNat]
  | binary o x y =>
      let first := x.code base
      first ++ (y.code (base + first.length) ++ [o.word])
  | nothing => []
  | saved x rest =>
      let last := rest.code base
      last ++ x.code (base + last.length)
  | scalar value count subscripts =>
      subscripts.code base ++ [op_scalar, (value.toNat : ℤ), (count : ℤ)]
  | element count parts => parts.code base ++ [op_element, (count : ℤ)]
  | loop i lower upper increment body =>
      let last := upper.code base
      let next := increment.code (base + last.length)
      let first := lower.code (base + (last ++ next).length)
      let bounds := last ++ next ++ first
      let label := base + bounds.length + 1
      let inner := body.code (label + 3)
      bounds ++ ([op_loop, op_iterate, (i.toNat : ℤ), ((label + 3 + inner.length + 2 : ℕ) : ℤ)] ++
        (inner ++ [op_goto, (label : ℤ)]))

/-- Without a parameter block there is no word and no report. -/
theorem Tree.extent_none (t : Tree) :
    t.extent none = .stored 0 ∨ t.extent none = .unguarded := by
  have hthen {x y : Extent} (hx : x = .stored 0 ∨ x = .unguarded)
      (hy : y = .stored 0 ∨ y = .unguarded) :
      x.andThen y = .stored 0 ∨ x.andThen y = .unguarded := by
    obtain rfl | rfl := hx
    · simpa using hy
    · exact Or.inr rfl
  have hsaved (count : ℕ) : savedUnchecked count = .stored 0 ∨ savedUnchecked count = .unguarded := by
    unfold savedUnchecked
    split_ifs <;> simp
  induction t with
  | missing => exact Or.inr rfl
  | unknown => exact Or.inr rfl
  | literal bytes => exact Or.inl rfl
  | var i => exact Or.inl rfl
  | binary o x y ihx ihy => exact hthen ihx (hthen ihy (Or.inl rfl))
  | nothing => exact Or.inl rfl
  | saved x rest ihx ihrest => exact hthen ihrest ihx
  | scalar value count subscripts ih =>
    exact hthen (Or.inl rfl) (hthen (hsaved count) (hthen ih (hthen ih (Or.inl rfl))))
  | element count parts ih =>
    exact hthen (Or.inl rfl) (hthen (hsaved count) (hthen ih (hthen ih (Or.inl rfl))))
  | loop i lower upper increment body ihl ihu ihi ihb =>
    exact hthen ihl (hthen ihu (hthen ihi (hthen ihl (hthen (Or.inl rfl) (hthen ihb (Or.inl rfl))))))

theorem savedUnchecked_words (count : ℕ) : (savedUnchecked count).words = 0 := by
  unfold savedUnchecked
  split_ifs <;> rfl

theorem subscriptsChecked_words (count : ℕ) (desc : Option InternalArrayDesc) :
    (subscriptsChecked count desc).words = 0 := by
  cases desc with
  | none => rfl
  | some desc =>
    simp only [subscriptsChecked]
    split_ifs <;> rfl

theorem partsChecked_words (count : ℕ) (desc : Option InternalArrayDesc) :
    (partsChecked count desc).words = 0 := by
  cases desc with
  | none => rfl
  | some desc =>
    simp only [partsChecked]
    split_ifs <;> rfl

theorem Tree.extent_none_words (t : Tree) : (t.extent none).words = 0 := by
  obtain h | h := t.extent_none <;> rw [h] <;> rfl

/-- The words that are stored for an outline are those of its code. -/
theorem Tree.code_length {desc : InternalArrayDesc} {t : Tree}
    (h : (t.extent (some desc)).ending = .complete) (base : ℕ) :
    (t.code base).length = (t.extent (some desc)).words := by
  induction t generalizing base with
  | missing => cases h
  | unknown => cases h
  | literal bytes => rfl
  | var i => rfl
  | binary o x y ihx ihy =>
    simp only [extent, Extent.andThen_complete] at h
    simp [extent, code, Extent.andThen_of_complete, h, ihx h.1, ihy h.2.1, words]
  | nothing => rfl
  | saved x rest ihx ihrest =>
    simp only [extent, Extent.andThen_complete] at h
    simp [extent, code, Extent.andThen_of_complete, h, ihx h.2, ihrest h.1]
  | scalar value count subscripts ih =>
    simp only [extent, Extent.andThen_complete] at h
    simp [extent, code, Extent.andThen_of_complete, h, ih h.2.2.2.1, words, subscriptsChecked_words,
      savedUnchecked_words, extent_none_words]
  | element count parts ih =>
    simp only [extent, Extent.andThen_complete] at h
    simp [extent, code, Extent.andThen_of_complete, h, ih h.2.2.2.1, words, partsChecked_words,
      savedUnchecked_words, extent_none_words]
  | loop i lower upper increment body ihl ihu ihi ihb =>
    simp only [extent, Extent.andThen_complete] at h
    simp [extent, code, Extent.andThen_of_complete, h, ihl h.2.2.2.1, ihu h.2.1, ihi h.2.2.1,
      ihb h.2.2.2.2.2.1, words, extent_none_words]
    omega

end FirebirdCore.Sdl
