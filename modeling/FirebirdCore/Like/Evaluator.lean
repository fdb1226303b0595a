import FirebirdCore.Lib.Kmp

/-!
# The evaluator of LIKE

A pattern is compiled to items: strings to match where they are, strings to search for, and numbers of
characters to skip. The string is matched chunk by chunk by a set of branches, each of which stands at
an offset of an item.
-/
namespace FirebirdCore.Like

inductive PatternItemType where
  | piNone
  | piSearch
  | piSkipFixed
  | piDirectMatch
  | piEscapedString
  | piSkipMore
  deriving DecidableEq, Repr

inductive MatchType where
  | MATCH_NONE
  | MATCH_FIXED
  | MATCH_ANY
  deriving DecidableEq, Repr

/-- `str.length` and `skipCount` share their memory. `data` is what follows in the pattern from where
the pointer stands. -/
structure PatternItem (γ : Type) where
  type : PatternItemType
  length : ℕ
  data : List γ
  kmpNext : List ℤ
  matchAny : Bool
  deriving DecidableEq, Repr

/-- The `length` characters of the item. -/
def PatternItem.str {γ : Type} (item : PatternItem γ) : List γ := item.data.take item.length

/-- `grow` clears the memory of a new item. -/
def newItem {γ : Type} (type : PatternItemType) (length : ℕ) (data : List γ) : PatternItem γ :=
  ⟨type, length, data, [], false⟩

inductive LikeError where
  | escapeInvalid
  deriving DecidableEq, Repr

/-- The arguments of the constructor. A wildcard that is 0 is not in use. -/
structure LikePattern (γ : Type) where
  patternStr : List γ
  escapeChar : γ
  useEscape : Bool
  sqlMatchAny : γ
  sqlMatchOne : γ

namespace LikePattern

variable {γ : Type} [DecidableEq γ] [Zero γ] (P : LikePattern γ)

def isEscape (c : γ) : Bool := P.useEscape && c = P.escapeChar

def isAny (c : γ) : Bool := P.sqlMatchAny ≠ 0 && c = P.sqlMatchAny

def isOne (c : γ) : Bool := P.sqlMatchOne ≠ 0 && c = P.sqlMatchOne

/-! ## The first pass -/

/-- An escaped character, with `data` from its escape character on. -/
def pushEscaped (items : List (PatternItem γ)) (item : PatternItem γ) (data : List γ) :
    List (PatternItem γ) × PatternItem γ :=
  match item.type with
  | .piSkipFixed | .piSkipMore =>
      (items ++ [item], newItem .piEscapedString 1 data)
  | .piNone => (items, { item with type := .piEscapedString, data, length := 1 })
  | .piSearch => (items, { item with type := .piEscapedString, length := item.length + 1 })
  | .piEscapedString => (items, { item with length := item.length + 1 })
  | .piDirectMatch => (items, item)

/-- `%`. -/
def pushAny (items : List (PatternItem γ)) (item : PatternItem γ) :
    List (PatternItem γ) × PatternItem γ :=
  match item.type with
  | .piSearch | .piEscapedString => (items ++ [item], newItem .piSkipMore 0 [])
  | .piSkipFixed | .piNone => (items, { item with type := .piSkipMore })
  | _ => (items, item)

/-- `_`. -/
def pushOne (items : List (PatternItem γ)) (item : PatternItem γ) :
    List (PatternItem γ) × PatternItem γ :=
  match item.type with
  | .piSearch | .piEscapedString =>
      (items ++ [item], newItem .piSkipFixed 1 [])
  | .piNone => (items, { item with type := .piSkipFixed, length := 1 })
  | .piSkipFixed | .piSkipMore => (items, { item with length := item.length + 1 })
  | _ => (items, item)

/-- Another character, with `data` from it on. -/
def pushChar (items : List (PatternItem γ)) (item : PatternItem γ) (data : List γ) :
    List (PatternItem γ) × PatternItem γ :=
  match item.type with
  | .piSkipFixed | .piSkipMore =>
      (items ++ [item], newItem .piSearch 1 data)
  | .piNone => (items, { item with type := .piSearch, data, length := 1 })
  | .piSearch | .piEscapedString => (items, { item with length := item.length + 1 })
  | .piDirectMatch => (items, item)

/-- The loop over the pattern, at its last item `item`. -/
def parse : List γ → List (PatternItem γ) × PatternItem γ → Except LikeError (List (PatternItem γ))
  | [], (items, item) => .ok (items ++ [item])
  | c :: rest, (items, item) =>
      if P.isEscape c then
        match rest with
        | [] => .error .escapeInvalid
        | next :: rest' =>
            if next = P.escapeChar || P.isAny next || P.isOne next then
              parse rest' (pushEscaped items item (c :: next :: rest'))
            else .error .escapeInvalid
      else if P.isAny c then parse rest (pushAny items item)
      else if P.isOne c then parse rest (pushOne items item)
      else parse rest (pushChar items item (c :: rest))

/-! ## The second pass -/

/-- So many characters from `curPos` on, without the escape characters in front of them. -/
def unescape : ℕ → List γ → List γ
  | 0, _ => []
  | _ + 1, [] => []
  | length + 1, c :: rest =>
      if P.isEscape c then
        match rest with
        | [] => []
        | next :: rest => next :: unescape length rest
      else c :: unescape length rest

/-- The last item has a `%` behind it. -/
def markLast (items : List (PatternItem γ)) : List (PatternItem γ) :=
  items.modify (items.length - 1) fun item => { item with matchAny := true }

def compileSearch (item : PatternItem γ) (directMatch : Bool) : PatternItem γ :=
  if directMatch then { item with type := .piDirectMatch }
  else { item with kmpNext := Kmp.preKmp item.str }

/-- The loop over the items: `done` are those in front of the one at hand. -/
def optimize : List (PatternItem γ) → List (PatternItem γ) → Bool → List (PatternItem γ)
  | done, [], _ => done
  | done, item :: rest, directMatch =>
      match item.type with
      | .piEscapedString =>
          let item := { item with data := P.unescape item.length item.data, type := .piSearch }
          optimize (done ++ [compileSearch item directMatch]) rest true
      | .piSearch => optimize (done ++ [compileSearch item directMatch]) rest true
      | .piSkipMore =>
          if item.length ≠ 0 then
            optimize (done ++ [{ item with type := .piSkipFixed, matchAny := true }]) rest false
          else if done ≠ [] then optimize (markLast done) rest false
          else if rest ≠ [] then optimize done rest false
          else optimize (done ++ [{ item with type := .piNone, matchAny := true }]) rest false
      | _ => optimize (done ++ [item]) rest directMatch

/-- The items that the constructor makes. -/
def compile : Except LikeError (List (PatternItem γ)) :=
  match P.parse P.patternStr ([], newItem .piNone 0 []) with
  | .error e => .error e
  | .ok items => .ok (P.optimize [] items true)

end LikePattern

/-! ## Matching -/

/-- A pointer to an item is the list of the items from it on. -/
structure BranchItem (γ : Type) where
  pattern : List (PatternItem γ)
  offset : ℤ
  deriving DecidableEq, Repr

structure LikeEvaluator (γ : Type) where
  patternItems : List (PatternItem γ)
  branches : List (BranchItem γ)
  matchType : MatchType
  deriving DecidableEq, Repr

/-- What the loop over the branches leads to. `stop` returns from `processNextChunk`. -/
inductive Pass (γ : Type) where
  | next (branches : List (BranchItem γ)) (finishCandidate : ℤ)
  | stop (matchType : MatchType) (more : Bool)
  deriving DecidableEq, Repr

namespace LikeEvaluator

variable {γ : Type}

def reset (items : List (PatternItem γ)) : LikeEvaluator γ :=
  match items with
  | [] => ⟨items, [], .MATCH_NONE⟩
  | item :: _ =>
      if item.type = .piNone then
        ⟨items, [], if item.matchAny then .MATCH_ANY else .MATCH_FIXED⟩
      else ⟨items, [⟨items, 0⟩], .MATCH_NONE⟩

def getResult (E : LikeEvaluator γ) : Bool := E.matchType ≠ .MATCH_NONE

variable [DecidableEq γ]

/-- The loop over the branches `todo` for the character `c` at `pos` of a chunk of `len`. The branches
`done` are behind it. -/
def passBranches (c : γ) (pos len : ℤ) :
    List (BranchItem γ) → List (BranchItem γ) → ℤ → Pass γ
  | done, [], finishCandidate => .next done finishCandidate
  | done, ⟨pattern, offset⟩ :: todo, finishCandidate =>
      match pattern with
      | [] => passBranches c pos len (done ++ [⟨pattern, offset⟩]) todo finishCandidate
      | item :: rest =>
          match item.type with
          | .piDirectMatch | .piSkipFixed =>
              if item.type = .piDirectMatch ∧ item.data[offset.toNat]? ≠ some c then
                if done ++ todo = [] then .stop .MATCH_NONE false
                else passBranches c pos len done todo finishCandidate
              else if offset + 1 ≥ item.length then
                if item.matchAny then
                  if rest = [] then .stop .MATCH_ANY false else .next [⟨rest, 0⟩] finishCandidate
                else if rest = [] then
                  if done ++ todo = [] then
                    if pos = len - 1 then .stop .MATCH_FIXED true else .stop .MATCH_NONE false
                  else passBranches c pos len done todo pos
                else passBranches c pos len (done ++ [⟨rest, 0⟩]) todo finishCandidate
              else passBranches c pos len (done ++ [⟨pattern, offset + 1⟩]) todo finishCandidate
          | .piSearch =>
              let offset := Kmp.fall item.str item.kmpNext (some c) (item.length + 1) offset + 1
              if offset ≥ item.length then
                match rest with
                | [] =>
                    if item.matchAny then .stop .MATCH_ANY false
                    else
                      passBranches c pos len
                        (done ++ [⟨pattern, item.kmpNext.getD offset.toNat (-1)⟩]) todo pos
                | following :: _ =>
                    if following.type = .piSearch then
                      passBranches c pos len (done ++ [⟨rest, 0⟩]) todo finishCandidate
                    else
                      passBranches c pos len
                        (done ++ [⟨pattern, item.kmpNext.getD offset.toNat (-1)⟩, ⟨rest, 0⟩]) todo
                        finishCandidate
              else passBranches c pos len (done ++ [⟨pattern, offset⟩]) todo finishCandidate
          | _ => passBranches c pos len (done ++ [⟨pattern, offset⟩]) todo finishCandidate

/-- The loop over the characters of a chunk from `pos` on. -/
def processChars (E : LikeEvaluator γ) (len : ℤ) :
    List γ → ℤ → List (BranchItem γ) → ℤ → LikeEvaluator γ × Bool
  | [], _, branches, finishCandidate =>
      ({ E with
          branches
          matchType := if finishCandidate = len - 1 then .MATCH_FIXED else E.matchType }, true)
  | c :: data, pos, branches, finishCandidate =>
      match passBranches c pos len [] branches finishCandidate with
      | .stop matchType more => ({ E with branches := [], matchType }, more)
      | .next branches finishCandidate => processChars E len data (pos + 1) branches finishCandidate

def processNextChunk (E : LikeEvaluator γ) (data : List γ) : LikeEvaluator γ × Bool :=
  if data = [] then (E, E.branches ≠ [] || E.matchType = .MATCH_FIXED)
  else
    let E := if E.matchType = .MATCH_FIXED then { E with matchType := .MATCH_NONE } else E
    if E.branches = [] then (E, false)
    else processChars E data.length data 0 E.branches (-1)

/-- The chunks up to one for which false is returned. -/
def processChunks (E : LikeEvaluator γ) : List (List γ) → LikeEvaluator γ
  | [] => E
  | data :: chunks =>
      match E.processNextChunk data with
      | (E, true) => processChunks E chunks
      | (E, false) => E

end LikeEvaluator

end FirebirdCore.Like
