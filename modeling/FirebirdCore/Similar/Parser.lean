import FirebirdCore.Similar.Match

/-!
# The parser of SIMILAR TO patterns

The parser pushes nodes while it reads the pattern. `patternPos` is what is left of the pattern. For a
repetition it inserts nodes in front of the nodes of the last primary, and pushes others behind them.
-/
namespace FirebirdCore.Similar

/-- `beyondPattern` is a read behind the end of the pattern, whose effect is not defined. -/
inductive ParseError where
  | invalidSimilarPattern
  | escapeInvalid
  | malformedString
  | beyondPattern
  | outOfFuel
  deriving DecidableEq, Repr

/-- `FLAG_NOT_EMPTY` and `FLAG_EXACTLY`. -/
structure Flags where
  notEmpty : Bool
  exactly : Bool
  deriving DecidableEq, Repr

namespace Flags

def or (f g : Flags) : Flags := ⟨f.notEmpty || g.notEmpty, f.exactly || g.exactly⟩

/-- `flags & FLAG_NOT_EMPTY`. -/
def onlyNotEmpty (f : Flags) : Flags := ⟨f.notEmpty, false⟩

/-- `f & ~(~g & FLAG_NOT_EMPTY)`. -/
def clear (f g : Flags) : Flags := ⟨f.notEmpty && g.notEmpty, f.exactly⟩

end Flags

/-- What the parser reads. No escape character is given if `escapeChar` is none. -/
structure Evaluator (α γ : Type) where
  textType : TextType α γ
  escapeChar : Option γ
  originalPatternStr : List α

structure Parsing (α γ : Type) where
  nodes : List (Node α γ)
  patternPos : List α
  deriving DecidableEq, Repr

def Parsing.push {α γ : Type} (s : Parsing α γ) (node : Node α γ) : Parsing α γ :=
  { s with nodes := s.nodes ++ [node] }

/-- A character class: its name, and the tables that it is made of. -/
def classes : List (String × List Letters) :=
  [("ALNUM", [.upperLetters, .lowerLetters, .numbers]),
    ("ALPHA", [.upperLetters, .lowerLetters]),
    ("DIGIT", [.numbers]),
    ("LOWER", [.lowerLetters]),
    ("SPACE", [.space]),
    ("UPPER", [.upperLetters]),
    ("WHITESPACE", [.whiteSpaces])]

namespace Evaluator

variable {α γ : Type} [DecidableEq γ] (E : Evaluator α γ)

def metaCharacters : List γ :=
  [Special.circumflex, .minus, .underline, .percent, .openBracket, .closeBracket, .openParen,
    .closeParen, .openBrace, .closeBrace, .verticalBar, .questionMark, .plus, .asterisk].map
      E.textType.canonicalChar ++ [E.escapeChar.getD (E.textType.canonicalChar .asterisk)]

def is (c : α) (s : Special) : Bool := E.textType.canonical c = E.textType.canonicalChar s

def isEscape (c : α) : Bool := E.escapeChar = some (E.textType.canonical c)

def isMeta (c : α) : Bool := E.textType.canonical c ∈ E.metaCharacters

def isRep (c : α) : Bool :=
  E.is c .asterisk || E.is c .plus || E.is c .questionMark || E.is c .openBrace

/-! ## Sets of characters -/

/-- The character behind an escape character. -/
def readEscaped : List α → Except ParseError (α × List α)
  | [] => .error .escapeInvalid
  | c :: rest =>
      if ¬ E.isEscape c ∧ ¬ E.isMeta c then .error .escapeInvalid else .ok (c, rest)

/-- A character class, from what follows its opening bracket. -/
def readClass : List α → Except ParseError (List γ × List α)
  | [] => .error .invalidSimilarPattern
  | c :: start =>
      if ¬ E.is c .colon then .error .invalidSimilarPattern
      else
        let name := start.takeWhile fun c => ¬ E.is c .colon
        match start.drop (name.length + 1) with
        | [] => .error .invalidSimilarPattern
        | close :: rest =>
            if ¬ E.is close .closeBracket then .error .invalidSimilarPattern
            else
              match classes.find? fun entry => entry.1 = E.textType.upperCase name with
              | none => .error .invalidSimilarPattern
              | some (_, funcs) => .ok (funcs.flatMap E.textType.canonicalLetters, rest)

/-- What a character in a set adds to `charsBuffer` and `rangeBuffer`: it may be the first one of a
range. -/
def readRange (c : α) (rest : List α) : Except ParseError (List γ × List (α × α) × List α) :=
  let chars := [E.textType.canonical c]
  match rest with
  | [] => .ok (chars, [], rest)
  | minus :: behind =>
      if ¬ E.is minus .minus then .ok (chars, [], rest)
      else
        match behind with
        | [] => .error .invalidSimilarPattern
        | last :: rest =>
            if E.isEscape last then
              match E.readEscaped rest with
              | .error e => .error e
              | .ok (last, rest) => .ok (chars ++ [E.textType.canonical last], [(c, last)], rest)
            else .ok (chars ++ [E.textType.canonical last], [(c, last)], rest)

def readElement (c : α) (rest : List α) : Except ParseError (List γ × List (α × α) × List α) :=
  if E.isEscape c then
    match E.readEscaped rest with
    | .error e => .error e
    | .ok (c, rest) => E.readRange c rest
  else if E.is c .openBracket then
    match E.readClass rest with
    | .error e => .error e
    | .ok (chars, rest) => .ok (chars, [], rest)
  else E.readRange c rest

/-- The loop over the elements of a set. `included` is what stood in front of the circumflex. -/
def readSet : ℕ → Option (List γ × List (α × α)) → List γ → List (α × α) → List α →
    Except ParseError (Enumeration α γ × List α)
  | 0, _, _, _, _ => .error .outOfFuel
  | _ + 1, _, _, _, [] => .error .invalidSimilarPattern
  | fuel + 1, included, charsBuffer, rangeBuffer, c :: rest =>
      let finish (included : Option (List γ × List (α × α))) (chars : List γ)
          (ranges : List (α × α)) : Enumeration α γ :=
        match included with
        | none => ⟨chars, ranges, [], []⟩
        | some (str, str2) => ⟨str, str2, chars, ranges⟩
      if ¬ E.isEscape c ∧ ¬ E.is c .openBracket ∧ E.is c .circumflex then
        if included.isSome then .error .invalidSimilarPattern
        else
          -- `continue` goes to the test of the loop
          match rest with
          | [] => .error .beyondPattern
          | next :: behind =>
              if E.is next .closeBracket then
                .ok (finish (some (charsBuffer, rangeBuffer)) [] [], behind)
              else readSet fuel (some (charsBuffer, rangeBuffer)) [] [] rest
      else
        match E.readElement c rest with
        | .error e => .error e
        | .ok (chars, ranges, rest) =>
            match rest with
            | [] => .error .invalidSimilarPattern
            | next :: behind =>
                if E.is next .closeBracket then
                  .ok (finish included (charsBuffer ++ chars) (rangeBuffer ++ ranges), behind)
                else readSet fuel included (charsBuffer ++ chars) (rangeBuffer ++ ranges) rest

/-! ## Repetitions -/

def intMax : ℕ := 2 ^ 31 - 1

def atoi (digits : List ℕ) : ℕ := digits.foldl (fun n ch => n * 10 + (ch - 48)) 0

/-- The loop over the characters between the braces. The characters that end it are taken from
`patternPos`, the digits from `p`. -/
def readCounts : List α → List UInt8 → List ℕ → List ℕ → Bool →
    Except ParseError ((List ℕ × List ℕ × Bool) × List α)
  | patternPos, p, s1, s2, comma =>
      match p with
      | [] => .error .invalidSimilarPattern
      | _ :: _ =>
          match E.textType.readOneChar p with
          | none => .error .malformedString
          | some (size, ch) =>
              match patternPos with
              | [] => .error .beyondPattern
              | c :: rest =>
                  if E.is c .closeBrace then
                    if s1 = [] then .error .invalidSimilarPattern else .ok ((s1, s2, comma), rest)
                  else if E.is c .comma then
                    if comma then .error .invalidSimilarPattern
                    else readCounts rest (p.drop size) s1 s2 true
                  else if 48 ≤ ch ∧ ch ≤ 57 then
                    if comma then readCounts rest (p.drop size) s1 (s2 ++ [ch]) comma
                    else readCounts rest (p.drop size) (s1 ++ [ch]) s2 comma
                  else .error .invalidSimilarPattern

/-- Where the characters between the braces are read from: `substring` is called with the position 1
and the number of characters in front of them. -/
def countsPos (patternPos : List α) : List UInt8 :=
  let skipped := E.originalPatternStr.length - patternPos.length
  (E.originalPatternStr.flatMap E.textType.bytes).drop
    (((E.originalPatternStr.drop 1).take skipped).flatMap E.textType.bytes).length

/-- The bounds of a repetition, from what follows the opening brace. -/
def parseCounts (patternPos : List α) : Except ParseError ((ℕ × ℕ) × List α) :=
  match E.readCounts patternPos (E.countsPos patternPos) [] [] false with
  | .error e => .error e
  | .ok ((s1, s2, comma), rest) =>
      if s1.length > 9 ∨ s2.length > 9 then .error .invalidSimilarPattern
      else
        let n1 := atoi s1
        let n2 := if s2 = [] then if comma then intMax else n1 else atoi s2
        if n2 < n1 then .error .invalidSimilarPattern else .ok ((n1, n2), rest)

def insert (nodes : List (Node α γ)) (pos : ℕ) (node : Node α γ) : List (Node α γ) :=
  nodes.take pos ++ node :: nodes.drop pos

/-- `x*`. -/
def pushStar (nodes : List (Node α γ)) (atomPos : ℕ) : List (Node α γ) :=
  let nodes := insert nodes atomPos (.opBranch (nodes.length - atomPos + 2))
  let nodes := nodes ++ [.opRef (atomPos - nodes.length)]
  nodes ++ [.opBranch 0]

/-- `x+`. -/
def pushPlus (nodes : List (Node α γ)) (atomPos : ℕ) : List (Node α γ) :=
  let nodes := nodes ++ [.opBranch 2]
  let nodes := nodes ++ [.opRef (atomPos - nodes.length)]
  nodes ++ [.opBranch 0]

/-- `x?`. -/
def pushOpt (nodes : List (Node α γ)) (atomPos : ℕ) : List (Node α γ) :=
  insert nodes atomPos (.opBranch (nodes.length - atomPos + 1)) ++ [.opBranch 0]

/-- `x{n1}`, `x{n1,}` and `x{n1,n2}`. -/
def pushRepeat (nodes : List (Node α γ)) (atomPos n1 n2 : ℕ) : List (Node α γ) :=
  if n1 = 0 ∧ n2 = intMax then pushStar nodes atomPos
  else
    let nodes := if n1 = 0 then pushOpt nodes atomPos else nodes
    let exprPos := atomPos + 1
    let exprSize : ℤ := nodes.length - exprPos + 1
    let nodes := insert nodes atomPos
      (.opRepeatingRefStart (if n1 = 0 then n2 else n1) (nodes.length - atomPos + 1))
    let nodes := nodes ++ [.opRepeatingRefEnd (atomPos - nodes.length)]
    let copies := (nodes.drop exprPos).take exprSize.toNat
    if n2 ≠ n1 ∧ n1 ≠ 0 then
      if n2 = intMax then
        nodes ++ .opBranch (exprSize + 2) :: copies ++ [.opRef (-exprSize - 1), .opBranch 0]
      else
        nodes ++ .opRepeatingRefStart (n2 - n1) (exprSize + 3) :: .opBranch (exprSize + 1) :: copies ++
          [.opBranch 0, .opRepeatingRefEnd (-exprSize - 3)]
    else nodes

/-- If the last primary is a string, its last character becomes a node of its own. -/
def splitLast (flags : Flags) (nodes : List (Node α γ)) (atomPos : ℕ) : List (Node α γ) × ℕ :=
  if flags.exactly then
    match nodes.getLast? with
    | some (.opExactly str) =>
        if str.length > 1 then
          (nodes.dropLast ++ [.opExactly str.dropLast] ++ (str.getLast?.map Node.opExactlyOne).toList,
            nodes.length)
        else (nodes, atomPos)
    | _ => (nodes, atomPos)
  else (nodes, atomPos)

/-- A repetition of the last primary, whose operator is `op`. -/
def parseRep (flags : Flags) (atomPos : ℕ) (nodes : List (Node α γ)) (op : α) (rest : List α) :
    Except ParseError (Flags × Parsing α γ) :=
  if ¬ flags.notEmpty ∧ ¬ E.is op .questionMark then .error .invalidSimilarPattern
  else
    let (nodes, atomPos) := splitLast flags nodes atomPos
    let result : Except ParseError (Flags × Parsing α γ) :=
      if E.is op .asterisk then .ok (⟨false, false⟩, ⟨pushStar nodes atomPos, rest⟩)
      else if E.is op .plus then .ok (⟨true, false⟩, ⟨pushPlus nodes atomPos, rest⟩)
      else if E.is op .questionMark then .ok (⟨false, false⟩, ⟨pushOpt nodes atomPos, rest⟩)
      else
        match E.parseCounts rest with
        | .error e => .error e
        | .ok ((n1, n2), rest) => .ok (⟨n1 ≠ 0, false⟩, ⟨pushRepeat nodes atomPos n1 n2, rest⟩)
    match result with
    | .error e => .error e
    | .ok (flags, s) =>
        if s.patternPos.head?.any E.isRep then .error .invalidSimilarPattern else .ok (flags, s)

/-! ## Expressions -/

/-- The string up to the next character with a meaning of its own. -/
def plainRun (rest : List α) : List α := rest.takeWhile fun c => ¬ E.isMeta c

def setRef (nodes : List (Node α γ)) (pos : ℕ) (r : ℤ) : List (Node α γ) :=
  nodes.modify pos (Node.setRef r)

/-- What `parseExpr` does behind its loop: the last branch has no alternative, and the alternatives go
to the end. -/
def finishBranches (start : ℕ) (refs : List ℕ) (s : Parsing α γ) : Parsing α γ :=
  let nodes := setRef s.nodes start 0
  { s with nodes := refs.foldl (fun nodes i => setRef nodes i (nodes.length - i)) nodes }

mutual

def parseExpr : ℕ → Parsing α γ → Except ParseError (Flags × Parsing α γ)
  | 0, _ => .error .outOfFuel
  | fuel + 1, s => parseBranches fuel ⟨true, false⟩ [] s

/-- A turn of the loop of `parseExpr`. -/
def parseBranches : ℕ → Flags → List ℕ → Parsing α γ → Except ParseError (Flags × Parsing α γ)
  | 0, _, _, _ => .error .outOfFuel
  | fuel + 1, flagp, refs, s =>
      let start := s.nodes.length
      match parseTerm fuel (s.push (.opBranch 0)) with
      | .error e => .error e
      | .ok (flags, s) =>
          let flagp := (flagp.clear flags).or flags
          let refs := refs ++ [s.nodes.length]
          let s := s.push (.opRef 0)
          let nodes := setRef s.nodes start (s.nodes.length - start)
          match s.patternPos with
          | c :: rest =>
              if E.is c .verticalBar then parseBranches fuel flagp refs ⟨nodes, rest⟩
              else .ok (flagp, finishBranches start refs ⟨nodes, s.patternPos⟩)
          | [] => .ok (flagp, finishBranches start refs ⟨nodes, s.patternPos⟩)

def parseTerm : ℕ → Parsing α γ → Except ParseError (Flags × Parsing α γ)
  | 0, _ => .error .outOfFuel
  | fuel + 1, s => parseFactors fuel ⟨false, false⟩ true s

/-- A turn of the loop of `parseTerm`. -/
def parseFactors : ℕ → Flags → Bool → Parsing α γ → Except ParseError (Flags × Parsing α γ)
  | 0, _, _, _ => .error .outOfFuel
  | fuel + 1, flagp, first, s =>
      if s.patternPos.head?.all fun c => E.is c .verticalBar || E.is c .closeParen then
        .ok (flagp, if first then s.push .opNothing else s)
      else
        match parseFactor fuel s with
        | .error e => .error e
        | .ok (flags, s) =>
            let flagp := flagp.or flags.onlyNotEmpty
            parseFactors fuel (if first then flagp.or flags else flagp) false s

def parseFactor : ℕ → Parsing α γ → Except ParseError (Flags × Parsing α γ)
  | 0, _ => .error .outOfFuel
  | fuel + 1, s =>
      match parsePrimary fuel s with
      | .error e => .error e
      | .ok (flags, s') =>
          match s'.patternPos with
          | [] => .ok (flags, s')
          | op :: rest =>
              if E.isRep op then E.parseRep flags s.nodes.length s'.nodes op rest
              else .ok (flags, s')

def parsePrimary : ℕ → Parsing α γ → Except ParseError (Flags × Parsing α γ)
  | 0, _ => .error .outOfFuel
  | fuel + 1, s =>
      match s.patternPos with
      | [] => .error .beyondPattern
      | op :: rest =>
          if E.is op .underline then .ok (⟨true, false⟩, ⟨s.nodes ++ [.opAny], rest⟩)
          else if E.is op .percent then
            .ok (⟨false, false⟩,
              ⟨s.nodes ++ [.opBranch 3, .opAny, .opRef (-2), .opBranch 0], rest⟩)
          else if E.is op .openBracket then
            match E.readSet (rest.length + 1) none [] [] rest with
            | .error e => .error e
            | .ok (set, rest) => .ok (⟨true, false⟩, ⟨s.nodes ++ [.opAnyOf set], rest⟩)
          else if E.is op .openParen then
            match parseExpr fuel ⟨s.nodes, rest⟩ with
            | .error e => .error e
            | .ok (flags, s) =>
                match s.patternPos with
                | [] => .error .invalidSimilarPattern
                | c :: rest =>
                    if E.is c .closeParen then .ok (flags.onlyNotEmpty, ⟨s.nodes, rest⟩)
                    else .error .invalidSimilarPattern
          else if E.isEscape op then
            match E.readEscaped rest with
            | .error e => .error e
            | .ok (c, rest) =>
                .ok (⟨true, false⟩, ⟨s.nodes ++ [.opExactlyOne (E.textType.canonical c)], rest⟩)
          else
            let run := E.plainRun (op :: rest)
            match run.map E.textType.canonical with
            | [] => .error .invalidSimilarPattern
            | [c] => .ok (⟨true, true⟩, ⟨s.nodes ++ [.opExactlyOne c], rest⟩)
            | str => .ok (⟨true, true⟩, ⟨s.nodes ++ [.opExactly str], (op :: rest).drop run.length⟩)

end

/-- The nodes that the constructor compiles the pattern to. -/
def compile : Except ParseError (List (Node α γ)) :=
  match E.parseExpr (6 * E.originalPatternStr.length + 6) ⟨[.opStart], E.originalPatternStr⟩ with
  | .error e => .error e
  | .ok (_, s) =>
      if s.patternPos = [] then .ok (s.nodes ++ [.opEnd]) else .error .invalidSimilarPattern

end Evaluator

end FirebirdCore.Similar
