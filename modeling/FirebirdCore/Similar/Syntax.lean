import FirebirdCore.Similar.Parser
import Mathlib.Computability.Language

/-!
# The syntax and the meaning of SIMILAR TO patterns

A `Pattern` is what a text stands for, and `language` the strings that it matches. `readPattern` reads
a pattern as its grammar says: alternatives of sequences of primaries, each with at most one
repetition. It does not know of nodes and flags.
-/
namespace FirebirdCore.Similar
open scoped Computability

/-! ## Sets of characters -/

inductive Element (α : Type) where
  | char (c : α)
  | range (first last : α)
  | chars (tables : List Letters)
  deriving DecidableEq, Repr

/-- The elements in front of the circumflex and those behind it. -/
structure CharSet (α : Type) where
  included : List (Element α)
  excluded : List (Element α)
  deriving DecidableEq, Repr

section

variable {α γ : Type} [DecidableEq γ]

/-- The ends of a range belong to it. -/
def Element.Has (T : TextType α γ) (c : α) : Element α → Prop
  | char x => T.canonical c = T.canonical x
  | range first last => T.canonical c = T.canonical first ∨ T.canonical c = T.canonical last ∨
      T.compare c first ≥ 0 ∧ T.compare c last ≤ 0
  | chars tables => ∃ table ∈ tables, T.canonical c ∈ T.canonicalLetters table

/-- If nothing stands in front of the circumflex, all characters are included. -/
def CharSet.Has (T : TextType α γ) (c : α) (set : CharSet α) : Prop :=
  (set.included = [] ∨ ∃ e ∈ set.included, e.Has T c) ∧ ¬ ∃ e ∈ set.excluded, e.Has T c

end

/-! ## Patterns -/

/-- `times p n m start` is `p{n,m}`; there is no upper bound if `m` is none. What follows the opening
brace is `start`. -/
inductive Pattern (α γ : Type) where
  | nothing
  | any
  | percent
  | anyOf (set : CharSet α)
  | exactly (str : List γ)
  | seq (p q : Pattern α γ)
  | alt (p q : Pattern α γ)
  | star (p : Pattern α γ)
  | plus (p : Pattern α γ)
  | opt (p : Pattern α γ)
  | times (p : Pattern α γ) (n : ℕ) (m : Option ℕ) (start : List α)
  deriving DecidableEq, Repr

namespace Pattern

variable {α γ : Type}

/-- The strings that match. -/
def language [DecidableEq γ] (T : TextType α γ) : Pattern α γ → Language α
  | nothing => 1
  | any => {w | ∃ c, w = [c]}
  | percent => {_w | True}
  | anyOf set => {w | ∃ c, set.Has T c ∧ w = [c]}
  | exactly str => {w | w.map T.canonical = str}
  | seq p q => p.language T * q.language T
  | alt p q => p.language T + q.language T
  | star p => (p.language T)∗
  | plus p => p.language T * (p.language T)∗
  | opt p => 1 + p.language T
  | times p n m _ => {w | ∃ k, n ≤ k ∧ (∀ bound ∈ m, k ≤ bound) ∧ w ∈ p.language T ^ k}

/-- The flag that an alternation has is the one of its last alternative. -/
def flag : Pattern α γ → Bool
  | nothing => false
  | any => true
  | percent => false
  | anyOf _ => true
  | exactly str => str ≠ []
  | seq p q => p.flag || q.flag
  | alt _ q => q.flag
  | star _ => false
  | plus _ => true
  | opt _ => false
  | times _ n _ _ => n ≠ 0

/-- The flag if an alternation needs it of each alternative. -/
def notEmpty : Pattern α γ → Bool
  | nothing => false
  | any => true
  | percent => false
  | anyOf _ => true
  | exactly str => str ≠ []
  | seq p q => p.notEmpty || q.notEmpty
  | alt p q => p.notEmpty && q.notEmpty
  | star _ => false
  | plus p => p.notEmpty
  | opt _ => false
  | times p n _ _ => n ≠ 0 && p.notEmpty

/-- Every sub-pattern under `*`, `+` or a repetition with bounds has the property. -/
def Repeated (P : Pattern α γ → Prop) : Pattern α γ → Prop
  | seq p q => p.Repeated P ∧ q.Repeated P
  | alt p q => p.Repeated P ∧ q.Repeated P
  | star p => P p ∧ p.Repeated P
  | plus p => P p ∧ p.Repeated P
  | opt p => p.Repeated P
  | times p _ _ _ => P p ∧ p.Repeated P
  | _ => True

/-- Every repetition with bounds has the property. -/
def Bounds (P : ℕ → Option ℕ → List α → Prop) : Pattern α γ → Prop
  | seq p q => p.Bounds P ∧ q.Bounds P
  | alt p q => p.Bounds P ∧ q.Bounds P
  | star p => p.Bounds P
  | plus p => p.Bounds P
  | opt p => p.Bounds P
  | times p n m start => P n m start ∧ p.Bounds P
  | _ => True

end Pattern

/-! ## Reading a pattern -/

namespace Evaluator

variable {α γ : Type} [DecidableEq γ] (E : Evaluator α γ)

/-- A character, or the range that it starts. -/
def rangeText (c : α) : List α → Option (Element α × List α)
  | minus :: behind =>
      if E.is minus .minus then
        match behind with
        | [] => none
        | last :: rest =>
            if E.isEscape last then
              (E.readEscaped rest).toOption.map fun (last, rest) => (.range c last, rest)
            else some (.range c last, rest)
      else some (.char c, minus :: behind)
  | [] => some (.char c, [])

/-- The tables of a class, from what follows its opening bracket. -/
def classText : List α → Option (Element α × List α)
  | [] => none
  | c :: start =>
      let name := start.takeWhile fun c => ¬ E.is c .colon
      match E.is c .colon, start.drop (name.length + 1) with
      | true, close :: rest =>
          if E.is close .closeBracket then
            (classes.find? fun entry => entry.1 = E.textType.upperCase name).map fun entry =>
              (.chars entry.2, rest)
          else none
      | _, _ => none

def elementText (c : α) (rest : List α) : Option (Element α × List α) :=
  if E.isEscape c then
    match (E.readEscaped rest).toOption with
    | none => none
    | some (c, rest) => E.rangeText c rest
  else if E.is c .openBracket then E.classText rest
  else E.rangeText c rest

/-- The elements up to the closing bracket. -/
def setText : ℕ → Option (List (Element α)) → List (Element α) → List α →
    Option (CharSet α × List α)
  | fuel + 1, included, elements, c :: rest =>
      let finish (included : Option (List (Element α))) (elements : List (Element α)) : CharSet α :=
        match included with
        | none => ⟨elements, []⟩
        | some included => ⟨included, elements⟩
      if ¬ E.isEscape c ∧ ¬ E.is c .openBracket ∧ E.is c .circumflex then
        match included, rest with
        | none, next :: behind =>
            if E.is next .closeBracket then some (finish (some elements) [], behind)
            else setText fuel (some elements) [] rest
        | _, _ => none
      else
        match E.elementText c rest with
        | some (e, next :: behind) =>
            if E.is next .closeBracket then some (finish included (elements ++ [e]), behind)
            else setText fuel included (elements ++ [e]) (next :: behind)
        | _ => none
  | _, _, _, _ => none

/-- The digits in front of the comma and behind it, each read from its own character. -/
def countsText : List α → List ℕ → List ℕ → Bool → Option ((List ℕ × List ℕ × Bool) × List α)
  | [], _, _, _ => none
  | c :: rest, s1, s2, comma =>
      if E.is c .closeBrace then if s1 = [] then none else some ((s1, s2, comma), rest)
      else if E.is c .comma then if comma then none else countsText rest s1 s2 true
      else if 48 ≤ E.textType.unicode c ∧ E.textType.unicode c ≤ 57 then
        if comma then countsText rest s1 (s2 ++ [E.textType.unicode c]) comma
        else countsText rest (s1 ++ [E.textType.unicode c]) s2 comma
      else none

/-- The bounds between the braces. Without a second one behind the comma there is no upper bound. -/
def boundsText (rest : List α) : Option ((ℕ × Option ℕ) × List α) :=
  match E.countsText rest [] [] false with
  | none => none
  | some ((s1, s2, comma), rest) =>
      if s1.length > 9 ∨ s2.length > 9 then none
      else if s2 = [] then some ((atoi s1, if comma then none else some (atoi s1)), rest)
      else if atoi s2 < atoi s1 then none
      else some ((atoi s1, some (atoi s2)), rest)

/-- How the bounds of a repetition are read, from what follows its opening brace. -/
abbrev BoundsReader (α : Type) := List α → Option ((ℕ × Option ℕ) × List α)

/-- A string is repeated but for its last character only. -/
def repeatLast (plain : Bool) (p : Pattern α γ) (rep : Pattern α γ → Pattern α γ) : Pattern α γ :=
  match plain, p with
  | true, .exactly str =>
      if str.length > 1 then
        .seq (.exactly str.dropLast) (rep (.exactly (str.getLast?.toList)))
      else rep p
  | _, _ => rep p

/-- A repetition of `p`, whose operator is `op`. -/
def repText (bounds : BoundsReader α) (p : Pattern α γ) (plain : Bool) (op : α) (rest : List α) :
    Option (Pattern α γ × List α) :=
  let result : Option (Pattern α γ × List α) :=
    if E.is op .asterisk then some (repeatLast plain p .star, rest)
    else if E.is op .plus then some (repeatLast plain p .plus, rest)
    else if E.is op .questionMark then some (repeatLast plain p .opt, rest)
    else (bounds rest).map fun ((n, m), rest') =>
      (repeatLast plain p fun p => .times p n m rest, rest')
  result.filter fun (_, rest) => ¬ rest.head?.any E.isRep

/-- No primary begins here. -/
def stops (rest : List α) : Bool :=
  rest.head?.all fun c => E.is c .verticalBar || E.is c .closeParen

mutual

def exprText (bounds : BoundsReader α) : ℕ → List α → Option (Pattern α γ × List α)
  | 0, _ => none
  | fuel + 1, rest => branchesText bounds fuel rest

/-- Alternatives. -/
def branchesText (bounds : BoundsReader α) : ℕ → List α → Option (Pattern α γ × List α)
  | 0, _ => none
  | fuel + 1, rest =>
      match termText bounds fuel rest with
      | none => none
      | some (p, []) => some (p, [])
      | some (p, c :: rest) =>
          if E.is c .verticalBar then
            (branchesText bounds fuel rest).map fun (q, rest) => (.alt p q, rest)
          else some (p, c :: rest)

def termText (bounds : BoundsReader α) : ℕ → List α → Option (Pattern α γ × List α)
  | 0, _ => none
  | fuel + 1, rest => if E.stops rest then some (.nothing, rest) else factorsText bounds fuel rest

/-- A sequence. -/
def factorsText (bounds : BoundsReader α) : ℕ → List α → Option (Pattern α γ × List α)
  | 0, _ => none
  | fuel + 1, rest =>
      match factorText bounds fuel rest with
      | none => none
      | some (p, rest) =>
          if E.stops rest then some (p, rest)
          else (factorsText bounds fuel rest).map fun (q, rest) => (.seq p q, rest)

def factorText (bounds : BoundsReader α) : ℕ → List α → Option (Pattern α γ × List α)
  | 0, _ => none
  | fuel + 1, rest =>
      match primaryText bounds fuel rest with
      | none => none
      | some ((p, _), []) => some (p, [])
      | some ((p, plain), op :: rest) =>
          if E.isRep op then E.repText bounds p plain op rest else some (p, op :: rest)

/-- A primary, and whether it is a string of characters without a meaning of their own. -/
def primaryText (bounds : BoundsReader α) : ℕ → List α → Option ((Pattern α γ × Bool) × List α)
  | fuel + 1, op :: rest =>
      if E.is op .underline then some ((.any, false), rest)
      else if E.is op .percent then some ((.percent, false), rest)
      else if E.is op .openBracket then
        (E.setText (rest.length + 1) none [] rest).map fun (set, rest) => ((.anyOf set, false), rest)
      else if E.is op .openParen then
        match exprText bounds fuel rest with
        | some (p, c :: rest) => if E.is c .closeParen then some ((p, false), rest) else none
        | _ => none
      else if E.isEscape op then
        (E.readEscaped rest).toOption.map fun (c, rest) =>
          ((.exactly [E.textType.canonical c], false), rest)
      else
        let run := E.plainRun (op :: rest)
        if run = [] then none
        else some ((.exactly (run.map E.textType.canonical), true), (op :: rest).drop run.length)
  | _, _ => none

end

/-- The pattern that a text stands for. -/
def readPattern (bounds : BoundsReader α) : Option (Pattern α γ) :=
  match E.exprText bounds (6 * E.originalPatternStr.length + 6) E.originalPatternStr with
  | some (p, []) => some p
  | _ => none

/-- The pattern that the text stands for, with the bounds of each repetition as they are written. -/
def pattern : Option (Pattern α γ) := E.readPattern E.boundsText

/-- The bounds that the parser reads. -/
def boundsRead (rest : List α) : Option ((ℕ × Option ℕ) × List α) :=
  match E.parseCounts rest with
  | .error _ => none
  | .ok ((n1, n2), rest) => some ((n1, if n2 = intMax then none else some n2), rest)

end Evaluator

end FirebirdCore.Similar
