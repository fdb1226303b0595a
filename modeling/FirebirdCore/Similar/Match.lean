import Mathlib.Data.List.Basic
import Mathlib.Logic.Relation
import Mathlib.Tactic

/-!
# The matcher of SIMILAR TO

`match` runs a program of nodes with relative references. Its two stacks stand for a recursion: the
scopes are the calls, and a repetition keeps the counter of the enclosing one. `bufferPos` is what is
left of the string.
-/
namespace FirebirdCore.Similar

/-- The characters that have a name in `TextType`. -/
inductive Special where
  | asterisk | circumflex | colon | comma | minus | percent | plus | questionMark | underline
  | verticalBar | doubleQuote | openBrace | closeBrace | openBracket | closeBracket | openParen
  | closeParen
  deriving DecidableEq, Repr

/-- The tables of canonical characters that the character classes are made of. -/
inductive Letters where
  | upperLetters | lowerLetters | numbers | space | whiteSpaces
  deriving DecidableEq, Repr

/-- A collation and its character set. A string is a list of characters of type `α`, each of which has
one canonical form of type `γ`. -/
structure TextType (α γ : Type) where
  canonical : α → γ
  canonicalChar : Special → γ
  canonicalLetters : Letters → List γ
  compare : α → α → ℤ
  bytes : α → List UInt8
  unicode : α → ℕ
  /-- The bytes of a class name in upper case UTF-16. -/
  upperCase : List α → String
  /-- The size and the Unicode value of the first character; none if the bytes are malformed. -/
  readOneChar : List UInt8 → Option (ℕ × ℕ)
  canonicalChar_injective : Function.Injective canonicalChar
  canonicalLetters_ne_nil : ∀ table, canonicalLetters table ≠ []
  bytes_ne_nil : ∀ c, bytes c ≠ []
  readOneChar_bytes : ∀ c rest, readOneChar (bytes c ++ rest) = some ((bytes c).length, unicode c)

/-- The operands of `opAnyOf`: characters and ranges that are in the set, and those that are not. -/
structure Enumeration (α γ : Type) where
  str : List γ
  str2 : List (α × α)
  str3 : List γ
  str4 : List (α × α)
  deriving DecidableEq, Repr

inductive Node (α γ : Type) where
  | opBranch (ref : ℤ)
  | opStart
  | opEnd
  | opRef (ref : ℤ)
  | opRepeatingRefStart (len : ℕ) (ref : ℤ)
  | opRepeatingRefEnd (ref : ℤ)
  | opNothing
  | opAny
  | opAnyOf (set : Enumeration α γ)
  | opExactly (str : List γ)
  | opExactlyOne (c : γ)
  deriving DecidableEq, Repr

namespace Node

variable {α γ : Type}

/-- The field `ref`, which is 0 in a node that has no use for it. -/
def getRef : Node α γ → ℤ
  | opBranch ref => ref
  | opRef ref => ref
  | opRepeatingRefStart _ ref => ref
  | opRepeatingRefEnd ref => ref
  | _ => 0

def setRef (r : ℤ) : Node α γ → Node α γ
  | opBranch _ => opBranch r
  | opRef _ => opRef r
  | opRepeatingRefStart len _ => opRepeatingRefStart len r
  | opRepeatingRefEnd _ => opRepeatingRefEnd r
  | node => node

end Node

section

variable {α γ : Type} [DecidableEq γ]

namespace TextType

def inRange (T : TextType α γ) (c : α) (range : α × α) : Bool :=
  T.compare c range.1 ≥ 0 && T.compare c range.2 ≤ 0

/-- The test of `opAnyOf`. -/
def anyOf (T : TextType α γ) (set : Enumeration α γ) (c : α) : Bool :=
  if T.canonical c ∉ set.str ∧ (set.str ≠ [] ∨ set.str2 ≠ []) ∧ ¬ set.str2.any (T.inRange c) then
    false
  else if T.canonical c ∈ set.str3 then false
  else ¬ set.str4.any (T.inRange c)

end TextType

/-- What a scope is about: one of the two special nodes, or the node at a position. -/
inductive Target where
  | ret
  | repeatingRestore
  | node (i : ℕ)
  deriving DecidableEq, Repr

structure Scope (α : Type) where
  i : Target
  save : Option (List α)
  deriving DecidableEq, Repr

inductive MatchState where
  | iterating
  | returningFalse
  | returningTrue
  deriving DecidableEq, Repr

/-- The variables of `match`. -/
structure Config (α : Type) where
  scopeStack : List (Scope α)
  state : MatchState
  bufferPos : List α
  repeatStack : List ℤ
  repeatCount : ℤ
  deriving DecidableEq, Repr

/-- What a turn of the loop leads to. `undefined` is a read outside the nodes or the stacks. -/
inductive Turn (α : Type) where
  | next (c : Config α)
  | result (matched : Bool)
  | undefined
  deriving DecidableEq, Repr

def jump (i : ℕ) (ref : ℤ) : ℕ := (i + ref).toNat

namespace Config

/-- `++scope->i`. -/
def advance (c : Config α) (i : ℕ) (save : Option (List α)) (below : List (Scope α)) : Turn α :=
  .next { c with scopeStack := ⟨.node (i + 1), save⟩ :: below }

def pop (c : Config α) (below : List (Scope α)) : Turn α := .next { c with scopeStack := below }

/-- `opRepeatingRefStart` in a returning state. -/
def restoreCount (c : Config α) (below : List (Scope α)) : Turn α :=
  match c.repeatStack with
  | [] => .undefined
  | count :: repeatStack => pop { c with repeatStack, repeatCount := count } below

variable (T : TextType α γ) (nodes : List (Node α γ)) (buffer : List α)

/-- A turn in which the node of the scope on top is entered. -/
def iterate (c : Config α) (i : ℕ) (save : Option (List α)) (below : List (Scope α)) :
    Node α γ → Turn α
  | .opBranch _ =>
      .next { c with
        scopeStack := ⟨.node (i + 1), none⟩ :: ⟨.node i, some c.bufferPos⟩ :: below }
  | .opStart =>
      if c.bufferPos.length ≠ buffer.length then pop { c with state := .returningFalse } below
      else c.advance i save below
  | .opEnd =>
      pop { c with state := if c.bufferPos = [] then .returningTrue else .returningFalse } below
  | .opRef ref => .next { c with scopeStack := ⟨.node (jump i ref), none⟩ :: below }
  | .opRepeatingRefStart len ref =>
      .next { c with
        scopeStack := ⟨.node (jump i ref), none⟩ :: ⟨.node i, save⟩ :: below
        repeatStack := c.repeatCount :: c.repeatStack
        repeatCount := len }
  | .opRepeatingRefEnd ref =>
      if c.repeatCount > 0 then
        .next { c with
          scopeStack := ⟨.node (jump i ref + 1), none⟩ :: ⟨.node i, save⟩ :: below
          repeatCount := c.repeatCount - 1 }
      else
        match c.repeatStack with
        | [] => .undefined
        | count :: repeatStack =>
            .next { c with
              scopeStack := ⟨.node (i + 1), none⟩ :: ⟨.repeatingRestore, none⟩ ::
                ⟨.node i, save⟩ :: below
              repeatStack
              repeatCount := count }
  | .opNothing => c.advance i save below
  | .opAny =>
      match c.bufferPos with
      | [] => pop { c with state := .returningFalse } below
      | _ :: rest => advance { c with bufferPos := rest } i save below
  | .opAnyOf set =>
      match c.bufferPos with
      | [] => pop { c with state := .returningFalse } below
      | x :: rest =>
          if T.anyOf set x then advance { c with bufferPos := rest } i save below
          else pop { c with state := .returningFalse } below
  | .opExactly str =>
      if (c.bufferPos.take str.length).map T.canonical = str then
        advance { c with bufferPos := c.bufferPos.drop str.length } i save below
      else pop { c with state := .returningFalse } below
  | .opExactlyOne ch =>
      match c.bufferPos with
      | [] => pop { c with state := .returningFalse } below
      | x :: rest =>
          if ch = T.canonical x then advance { c with bufferPos := rest } i save below
          else pop { c with state := .returningFalse } below

/-- A turn in which the scope that the one on top has pushed has returned false. -/
def returnFalse (c : Config α) (i : ℕ) (save : Option (List α)) (below : List (Scope α)) :
    Node α γ → Turn α
  | .opBranch ref =>
      match save with
      | none => .undefined
      | some saved =>
          let c := { c with bufferPos := saved }
          if ref ≠ 0 then
            match nodes[jump i ref]? with
            | none => .undefined
            | some other =>
                let c := { c with state := .iterating }
                if other.getRef ≠ 0 then
                  .next { c with
                    scopeStack := ⟨.node (jump i ref + 1), none⟩ ::
                      ⟨.node (jump i ref), some saved⟩ :: below }
                else c.advance (jump i ref) save below
          else c.pop below
  | .opRef _ => c.pop below
  | .opRepeatingRefStart _ _ => c.restoreCount below
  | .opRepeatingRefEnd _ => pop { c with repeatCount := c.repeatCount + 1 } below
  | .opNothing => c.pop below
  | _ => .result false

/-- A turn in which the scope that the one on top has pushed has returned true. -/
def returnTrue (c : Config α) (below : List (Scope α)) : Node α γ → Turn α
  | .opBranch _ => c.pop below
  | .opRef _ => c.pop below
  | .opRepeatingRefStart _ _ => c.restoreCount below
  | .opRepeatingRefEnd _ => c.pop below
  | .opNothing => c.pop below
  | _ => .result false

/-- A turn of the loop of `match`. -/
def turn (c : Config α) : Turn α :=
  match c.scopeStack with
  | [] => .undefined
  | ⟨.ret, _⟩ :: _ => .result (c.state = .returningTrue)
  | ⟨.repeatingRestore, _⟩ :: below =>
      if c.state = .iterating then .result false
      else
        pop { c with repeatStack := c.repeatCount :: c.repeatStack, repeatCount := -1 } below
  | ⟨.node i, save⟩ :: below =>
      match nodes[i]? with
      | none => .undefined
      | some node =>
          match c.state with
          | .iterating => c.iterate T buffer i save below node
          | .returningFalse => c.returnFalse nodes i save below node
          | .returningTrue => c.returnTrue below node

/-- The loop, for so many turns at most. -/
def loop : ℕ → Config α → Option Bool
  | 0, _ => none
  | fuel + 1, c =>
      match c.turn T nodes buffer with
      | .next c => loop fuel c
      | .result matched => some matched
      | .undefined => none

def initial : Config α where
  scopeStack := [⟨.node 0, none⟩, ⟨.ret, none⟩]
  state := .iterating
  bufferPos := buffer
  repeatStack := []
  repeatCount := 0

end Config

/-- The result of `match`, after at most so many turns. -/
def matchNodes (T : TextType α γ) (nodes : List (Node α γ)) (buffer : List α) (fuel : ℕ) :
    Option Bool :=
  Config.loop T nodes buffer fuel (.initial buffer)

end

end FirebirdCore.Similar
