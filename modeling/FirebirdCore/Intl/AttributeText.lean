import FirebirdCore.Intl.Attributes
import Mathlib.Logic.Relation

/-!
# Whether the parser of attributes ends

The characters of a string take the parser from one loop to another, whatever names and values they make.
It ends just if it does not meet bytes that are no character in a value.
-/
namespace FirebirdCore.Intl
open Lib.Machine

namespace CharSet

section
variable (cs : CharSet)

/-! ## Characters of the string -/

/-- The character that stands in front of the string. -/
def token (p : List UInt8) : Except Failure (Option Reader) := cs.readAttributeChar (.start p) true

/-- What a string is read as when a character is read: outside, in a name, behind it, in front of a value
and in a value. -/
inductive Context where
  | start
  | name
  | gap
  | spaces
  | value
  deriving DecidableEq, Repr

def Context.InValue : Context → Prop
  | .spaces => True
  | .value => True
  | _ => False

/-- The context behind a character. None if the parser rejects it. -/
def next (r : Reader) : Context → Option Context
  | .start =>
      if cs.isSpace r then some .start
      else
        match cs.units r with
        | .error _ => none
        | .ok uc => if isNameChar uc then some .name else none
  | .name =>
      match cs.units r with
      | .error _ => none
      | .ok uc =>
          if isNameChar uc then some .name
          else if cs.isSpace r then some .gap
          else if uc = [equalChar] then some .spaces
          else none
  | .gap =>
      if cs.isSpace r then some .gap
      else
        match cs.units r with
        | .error _ => none
        | .ok uc => if uc = [equalChar] then some .spaces else none
  | .spaces =>
      if cs.isSpace r then some .spaces
      else
        match cs.units r with
        | .error _ => none
        | .ok uc => if uc = [semiColonChar] then some .start else some .value
  | .value =>
      match cs.units r with
      | .error _ => none
      | .ok uc => if uc = [semiColonChar] then some .start else some .value

/-- Bytes that are no character are met in a value. -/
inductive Blocked : Context → List UInt8 → Prop
  | here {context : Context} {p : List UInt8} {r : Reader} (htoken : cs.token p = .ok (some r))
      (hsize : r.size = 0) (hvalue : context.InValue) : Blocked context p
  | next {context context' : Context} {p : List UInt8} {r : Reader}
      (htoken : cs.token p = .ok (some r)) (hsize : 0 < r.size) (hnext : cs.next r context = some context')
      (h : Blocked context' r.rest) : Blocked context p

/-- A character is between the positions. -/
def Advances (p q : List UInt8) : Prop := ∃ r, cs.token p = .ok (some r) ∧ 0 < r.size ∧ q = r.rest

end

variable {cs : CharSet}

theorem Reader_start_rest (p : List UInt8) : (Reader.start p).rest = p := List.drop_zero

theorem readOneChar_start (r : Reader) : cs.readOneChar (.start r.rest) = cs.readOneChar r := by
  unfold readOneChar
  simp only [Reader_start_rest]

theorem readAttributeChar_start (r : Reader) (returnEscape : Bool) :
    cs.readAttributeChar (.start r.rest) returnEscape = cs.readAttributeChar r returnEscape := by
  unfold readAttributeChar
  rw [readOneChar_start]

theorem token_rest (r : Reader) : cs.readAttributeChar r true = cs.token r.rest :=
  (readAttributeChar_start r true).symm

/-- A character is what `substring` makes of the string. -/
theorem readOneChar_some {r r' : Reader} (h : cs.readOneChar r = .ok (some r')) :
    r.rest ≠ [] ∧ r'.p = r.rest ∧ ∃ c, cs.substring r.rest 4 0 1 = some c ∧ r'.size = c.length := by
  unfold readOneChar at h
  split_ifs at h with hend
  · cases h
  · cases hc : cs.substring r.rest 4 0 1 with
    | none => simp [hc] at h
    | some c =>
      simp only [hc] at h
      split_ifs at h with hle
      · cases h
        exact ⟨hend, rfl, c, rfl, rfl⟩

theorem readOneChar_error (hcs : cs.Lawful) {r : Reader} {e : Failure} (h : cs.readOneChar r = .error e) :
    e = .raised := by
  unfold readOneChar at h
  split_ifs at h with hend
  cases hc : cs.substring r.rest 4 0 1 with
  | none =>
    simp only [hc] at h
    cases h
    rfl
  | some c =>
    simp only [hc] at h
    rw [dif_pos (hcs.substring_le _ _ hc)] at h
    cases h

theorem units_error {r : Reader} {e : Failure} (h : cs.units r = .error e) : e = .raised := by
  unfold units at h
  split at h
  · cases h
    rfl
  · cases h

/-- A character, or an escape with the character behind it. -/
theorem token_cases {p : List UInt8} {r : Reader} (h : cs.token p = .ok (some r)) :
    ∃ first, cs.readOneChar (.start p) = .ok (some first) ∧
      (cs.isAttributeEscape first = .ok false ∧ r = first ∨
        cs.isAttributeEscape first = .ok true ∧ ∃ second, cs.readOneChar first = .ok (some second) ∧
          r.p = first.p ∧ r.size = first.size + second.size) := by
  unfold token readAttributeChar at h
  cases hfirst : cs.readOneChar (.start p) with
  | error e => simp [hfirst] at h
  | ok result =>
    cases result with
    | none => simp [hfirst] at h
    | some first =>
      refine ⟨first, rfl, ?_⟩
      simp only [hfirst] at h
      cases hescape : cs.isAttributeEscape first with
      | error e => simp [hescape] at h
      | ok b =>
        cases b with
        | false =>
          simp only [hescape] at h
          cases h
          exact .inl ⟨rfl, rfl⟩
        | true =>
          simp only [hescape] at h
          cases hsecond : cs.readOneChar first with
          | error e => simp [hsecond] at h
          | ok result =>
            cases result with
            | none => simp [hsecond] at h
            | some second =>
              simp only [hsecond, if_true] at h
              split_ifs at h with hle
              cases h
              exact .inr ⟨rfl, second, rfl, rfl, rfl⟩

theorem token_p {p : List UInt8} {r : Reader} (h : cs.token p = .ok (some r)) : p ≠ [] ∧ r.p = p := by
  obtain ⟨first, hfirst, hcases⟩ := token_cases h
  obtain ⟨hne, hp, -⟩ := readOneChar_some hfirst
  rw [Reader_start_rest] at hne hp
  rcases hcases with ⟨-, rfl⟩ | ⟨-, second, -, hrp, -⟩
  · exact ⟨hne, hp⟩
  · exact ⟨hne, hrp.trans hp⟩

theorem token_error (hcs : cs.Lawful) {p : List UInt8} {e : Failure} (h : cs.token p = .error e) :
    e = .raised := by
  unfold token readAttributeChar at h
  cases hfirst : cs.readOneChar (.start p) with
  | error e' =>
    simp only [hfirst] at h
    cases h
    exact readOneChar_error hcs hfirst
  | ok result =>
    cases result with
    | none => simp [hfirst] at h
    | some first =>
      simp only [hfirst] at h
      cases hescape : cs.isAttributeEscape first with
      | error e' =>
        simp only [hescape] at h
        cases h
        unfold isAttributeEscape at hescape
        cases hunits : cs.units first with
        | error e'' =>
          simp only [hunits] at hescape
          cases hescape
          exact units_error hunits
        | ok uc => simp [hunits] at hescape
      | ok b =>
        cases b with
        | false => simp [hescape] at h
        | true =>
          simp only [hescape] at h
          cases hsecond : cs.readOneChar first with
          | error e' =>
            simp only [hsecond] at h
            cases h
            exact readOneChar_error hcs hsecond
          | ok result =>
            cases result with
            | none => simp [hsecond] at h
            | some second =>
              obtain ⟨-, hp, c, hc, hsize⟩ := readOneChar_some hsecond
              have hle := hcs.substring_le _ _ hc
              have hfirst_le := first.size_le
              have hsum : first.size + second.size ≤ first.p.length := by
                rw [Reader.rest, List.length_drop] at hle
                omega
              simp only [hsecond, if_true, dif_pos hsum] at h
              cases h

theorem Advances.length_lt {p q : List UInt8} (h : cs.Advances p q) : q <:+ p ∧ q.length < p.length := by
  obtain ⟨r, htoken, hsize, rfl⟩ := h
  obtain ⟨hne, rfl⟩ := token_p htoken
  have hpos := List.length_pos_of_ne_nil hne
  exact ⟨List.drop_suffix _ _, by rw [Reader.rest, List.length_drop]; omega⟩

theorem suffix_of_advances {p q : List UInt8} (h : Relation.ReflTransGen cs.Advances p q) : q <:+ p := by
  induction h with
  | refl => exact List.suffix_rfl
  | tail _ hadvance ih => exact hadvance.length_lt.1.trans ih

theorem between_append {first last : List UInt8} (h : last <:+ first) :
    between first last ++ last = first := by
  obtain ⟨front, rfl⟩ := h
  unfold between
  rw [List.length_append, Nat.add_sub_cancel, List.take_left]

theorem between_self (p : List UInt8) : between p p = [] := by
  unfold between
  rw [Nat.sub_self, List.take_zero]

/-- The bytes up to a position begin with the character in front. -/
theorem between_rest {r : Reader} {q : List UInt8} (h : q <:+ r.rest) :
    between r.p q = r.char ++ between r.rest q := by
  have hrest : r.rest <:+ r.p := List.drop_suffix _ _
  have hwhole : r.char ++ r.rest = r.p := List.take_append_drop _ _
  have hfront := between_append (h.trans hrest)
  have hback := between_append h
  rw [← hback, ← List.append_assoc] at hwhole
  exact List.append_cancel_right (hfront.trans hwhole.symm)

theorem isAttributeEscape_char {r r' : Reader} (h : r.char = r'.char) :
    cs.isAttributeEscape r = cs.isAttributeEscape r' := by
  unfold isAttributeEscape units
  rw [h]

theorem isAttributeEscape_nil (hcs : cs.Lawful) {r : Reader} (h : r.size = 0) :
    cs.isAttributeEscape r = .ok false := by
  have hchar : r.char = [] := by rw [Reader.char, h, List.take_zero]
  unfold isAttributeEscape units
  rw [hchar, hcs.toUnicode_nil]
  rfl

/-- A character is read alike from a part of the string that holds it. -/
theorem readOneChar_prefix (hcs : cs.Lawful) {r r' part : Reader} (h : cs.readOneChar r = .ok (some r'))
    (hsize : 0 < r'.size) {k : ℕ} (hk : r'.size ≤ k) (hpart : part.rest = r.rest.take k) :
    ∃ part', cs.readOneChar part = .ok (some part') ∧ part'.p = r'.p.take k ∧ part'.size = r'.size := by
  obtain ⟨hne, hp, c, hc, hlength⟩ := readOneChar_some h
  have hle : c.length ≤ part.rest.length := by
    have := hcs.substring_le _ _ hc
    rw [hpart, List.length_take]
    omega
  have hnil : c ≠ [] := by
    rintro rfl
    rw [hlength] at hsize
    exact absurd hsize (lt_irrefl 0)
  have hpart' : part.rest ≠ [] := by
    intro hempty
    rw [hempty] at hle
    exact hnil (List.length_eq_zero_iff.1 (Nat.le_zero.1 hle))
  have hc' : cs.substring part.rest 4 0 1 = some c := by
    rw [hpart]
    exact hcs.substring_prefix _ _ _ hc hnil (hlength ▸ hk)
  refine ⟨⟨part.rest, c.length, hle⟩, ?_, hpart.trans (by rw [hp]), hlength.symm⟩
  unfold readOneChar
  rw [if_neg hpart']
  simp only [hc', dif_pos hle]

theorem char_take {r r' : Reader} {k : ℕ} (hp : r'.p = r.p.take k) (hsize : r'.size = r.size)
    (hk : r.size ≤ k) : r'.char = r.char := by
  unfold Reader.char
  rw [hp, hsize, List.take_take, Nat.min_eq_left hk]

theorem rest_of_token {p : List UInt8} {r part : Reader} {q : List UInt8}
    (htoken : cs.token p = .ok (some r)) (hq : q <:+ r.rest) {k n : ℕ} (hk : k = (between p q).length)
    (hpart : part.p = (p.take k).drop n) (hsize : n + part.size = r.size) :
    part.rest = between r.rest q := by
  obtain ⟨-, hp⟩ := token_p htoken
  have htake : p.take k = between p q := by
    rw [hk]
    unfold between
    rw [List.length_take, Nat.min_eq_left (Nat.sub_le _ _)]
  have hlength : r.char.length = r.size := by
    rw [Reader.char, List.length_take, Nat.min_eq_left r.size_le]
  rw [Reader.rest, hpart, List.drop_drop, htake, hsize, ← hp, between_rest hq, ← hlength,
    List.drop_left]

/-- The loop goes through the characters that the parser has gone through. -/
theorem unescapeLoop_ok (hcs : cs.Lawful) {p q : List UInt8}
    (h : Relation.ReflTransGen cs.Advances p q) (fuel : ℕ) (part : Reader)
    (hpart : part.rest = between p q) (hfuel : (between p q).length < fuel) :
    ∃ ret, cs.unescapeLoop fuel part = .ok ret := by
  induction h using Relation.ReflTransGen.head_induction_on generalizing fuel part with
  | refl =>
    obtain ⟨fuel, rfl⟩ := Nat.exists_eq_succ_of_ne_zero (Nat.ne_of_gt (Nat.zero_lt_of_lt hfuel))
    rw [between_self] at hpart
    have hread : cs.readOneChar part = .ok none := by
      unfold readOneChar
      rw [if_pos hpart]
    unfold unescapeLoop readAttributeChar
    simp only [hread]
    exact ⟨[], rfl⟩
  | @head p p' hadvance hspans ih =>
    obtain ⟨fuel, rfl⟩ := Nat.exists_eq_succ_of_ne_zero (Nat.ne_of_gt (Nat.zero_lt_of_lt hfuel))
    obtain ⟨r, htoken, hpos, rfl⟩ := hadvance
    have hsuffix := suffix_of_advances hspans
    obtain ⟨hne, hp⟩ := token_p htoken
    have hbetween : between p q = r.char ++ between r.rest q := by
      rw [← hp]
      exact between_rest hsuffix
    have hlength : r.char.length = r.size := by
      rw [Reader.char, List.length_take, Nat.min_eq_left r.size_le]
    have hk : r.size ≤ (between p q).length := by
      rw [hbetween, List.length_append]
      omega
    have hshorter : (between r.rest q).length < fuel := by
      rw [hbetween, List.length_append] at hfuel
      omega
    -- the rest of the loop goes on behind this character
    have hnext : ∀ part', cs.readAttributeChar part false = .ok (some part') →
        part'.rest = between r.rest q → ∃ ret, cs.unescapeLoop (fuel + 1) part = .ok ret := by
      intro part' hread hrest
      obtain ⟨ret, hret⟩ := ih fuel part' hrest hshorter
      unfold unescapeLoop
      simp only [hread, hret]
      exact ⟨_, rfl⟩
    obtain ⟨first, hfirst, hcases⟩ := token_cases htoken
    obtain ⟨-, hfirst_p, -⟩ := readOneChar_some hfirst
    rw [Reader_start_rest] at hfirst_p
    have hfirst_pos : 0 < first.size := by
      by_contra hzero
      have hnone := isAttributeEscape_nil hcs (r := first) (by omega)
      rcases hcases with ⟨-, rfl⟩ | ⟨hescape, -⟩
      · exact hzero hpos
      · rw [hnone] at hescape
        cases hescape
    have hfirst_le : first.size ≤ r.size := by
      rcases hcases with ⟨-, rfl⟩ | ⟨-, second, -, -, hsize⟩
      · exact le_rfl
      · omega
    have hpart' : part.rest = (Reader.start p).rest.take (between p q).length := by
      rw [Reader_start_rest, hpart]
      unfold between
      rw [List.length_take, Nat.min_eq_left (Nat.sub_le _ _)]
    obtain ⟨part1, hread1, hp1, hsize1⟩ :=
      readOneChar_prefix hcs hfirst hfirst_pos (hfirst_le.trans hk) hpart'
    have hescape1 : cs.isAttributeEscape part1 = cs.isAttributeEscape first :=
      isAttributeEscape_char (char_take hp1 hsize1 (hfirst_le.trans hk))
    rw [hfirst_p] at hp1
    rcases hcases with ⟨hescape, rfl⟩ | ⟨hescape, second, hsecond, hrp, hsize⟩
    · refine hnext part1 ?_ (rest_of_token (n := 0) htoken hsuffix rfl hp1 ?_)
      · unfold readAttributeChar
        simp only [hread1, hescape1, hescape]
      · rw [hsize1, Nat.zero_add]
    · obtain ⟨-, hsecond_p, c, hc, hlength2⟩ := readOneChar_some hsecond
      have hpart1 : part1.rest = first.rest.take ((between p q).length - first.size) := by
        rw [Reader.rest, hp1, hsize1, List.drop_take, Reader.rest, hfirst_p]
      by_cases hzero : second.size = 0
      · -- the escape is the last character in front of the end
        have hrest : r.rest = first.rest := by
          rw [Reader.rest, Reader.rest, hrp, hsize, hzero, Nat.add_zero]
        have hend : q = r.rest := by
          rcases Relation.ReflTransGen.cases_head hspans with heq | ⟨_, ⟨r', htoken', hpos', -⟩, -⟩
          · exact heq.symm
          · obtain ⟨first', hfirst', hcases'⟩ := token_cases htoken'
            rw [hrest, readOneChar_start, hsecond] at hfirst'
            cases hfirst'
            rcases hcases' with ⟨-, rfl⟩ | ⟨hescape', -⟩
            · omega
            · rw [isAttributeEscape_nil hcs hzero] at hescape'
              cases hescape'
        have hempty : part1.rest = [] := by
          have hrest1 := rest_of_token (n := 0) htoken hsuffix rfl hp1 (by omega)
          rw [hrest1, hend, between_self]
        have hread2 : cs.readOneChar part1 = .ok none := by
          unfold readOneChar
          rw [if_pos hempty]
        unfold unescapeLoop readAttributeChar
        simp only [hread1, hescape1, hescape, hread2]
        exact ⟨[], rfl⟩
      · obtain ⟨part2, hread2, hp2, hsize2⟩ :=
          readOneChar_prefix hcs hsecond (Nat.pos_of_ne_zero hzero) (by omega) hpart1
        refine hnext part2 ?_ (rest_of_token (n := first.size) htoken hsuffix rfl ?_ ?_)
        · unfold readAttributeChar
          simp only [hread1, hescape1, hescape, hread2, Bool.false_eq_true, if_false]
        · rw [hp2, hsecond_p, Reader.rest, hfirst_p, List.drop_take]
        · rw [hsize2, hsize]

theorem unescapeAttribute_ok (hcs : cs.Lawful) {p q : List UInt8}
    (h : Relation.ReflTransGen cs.Advances p q) :
    ∃ ret, cs.unescapeAttribute (between p q) = .ok ret :=
  unescapeLoop_ok hcs h _ _ (Reader_start_rest _) (Nat.lt_succ_self _)

/-! ## The parser along the string -/

/-- The exceptions and the regular answers. -/
def Answer.Proper : Answer → Prop
  | .returns _ _ => True
  | .stops e => e = .raised

/-- The parser has come to a character. -/
def Here (cs : CharSet) (r : Reader) : Prop := cs.token r.p = .ok (some r)

def Context.label : Context → Label
  | .start => .leading
  | .name => .name
  | .gap => .gap
  | .spaces => .spaces
  | .value => .value

/-- The parser is in the loop of the context. -/
structure In (cs : CharSet) (context : Context) (s : Parser) : Prop where
  label : s.label = context.label
  here : cs.Here s.reader
  inName : context = .name → Relation.ReflTransGen cs.Advances s.start s.reader.p ∧
    s.reader.p.length < s.start.length
  inValue : context = .value → Relation.ReflTransGen cs.Advances s.start s.reader.p ∧
    Relation.ReflTransGen cs.Advances s.start s.endNoSpace

/-- What a character does to the parser: it comes to the next one in the next context, or halts if there
is none. -/
def Passes (cs : CharSet) (context : Context) (s : Parser) : Prop :=
  (∃ context' s', cs.next s.reader context = some context' ∧
    cs.token s.reader.rest = .ok (some s'.reader) ∧ Goes cs.turn 1 s s' ∧ cs.In context' s') ∨
  ∃ answer, Halts cs.turn s answer ∧ answer.Proper ∧
    (cs.next s.reader context = none ∨ ∀ r, cs.token s.reader.rest ≠ .ok (some r))

theorem here_of_token {p : List UInt8} {r : Reader} (h : cs.token p = .ok (some r)) : cs.Here r := by
  unfold Here
  rw [(token_p h).2]
  exact h

theorem advances_of_here {r : Reader} (h : cs.Here r) (hpos : 0 < r.size) : cs.Advances r.p r.rest :=
  ⟨r, h, hpos, rfl⟩

/-- The parser reads the next character, after which it is in the loop of the next context. -/
theorem passes_of_turn (hcs : cs.Lawful) (context' : Context) {context : Context} {s s0 : Parser}
    {x : Except Answer Parser} {f : Reader → Parser} (hgoes : Goes cs.turn 0 s s0)
    (hnext : cs.next s.reader context = some context')
    (hturn : cs.turn s0 =
      match cs.token s.reader.rest with
      | .error e => .error (.stops e)
      | .ok none => x
      | .ok (some r) => .ok (f r))
    (hnone : cs.turn s0 = x → ∃ answer, Halts cs.turn s0 answer ∧ answer.Proper)
    (hsome : ∀ r, cs.Here r → r.p = s.reader.rest →
      ∃ s', Goes cs.turn 0 (f r) s' ∧ s'.reader = r ∧ cs.In context' s') :
    cs.Passes context s := by
  cases htoken : cs.token s.reader.rest with
  | error e =>
    rw [htoken] at hturn
    exact .inr ⟨.stops e, hgoes.halts (.of_step hturn), token_error hcs htoken,
      .inr fun r hr => by simp [htoken] at hr⟩
  | ok result =>
    cases result with
    | none =>
      rw [htoken] at hturn
      obtain ⟨answer, hhalts, hproper⟩ := hnone hturn
      exact .inr ⟨answer, hgoes.halts hhalts, hproper, .inr fun r hr => by simp [htoken] at hr⟩
    | some r =>
      rw [htoken] at hturn
      obtain ⟨s', hgoes', hreader, hin⟩ := hsome r (here_of_token htoken) (token_p htoken).2
      exact .inl ⟨context', s', hnext, by rw [hreader, htoken],
        (hgoes.trans ((Goes.of_step hturn).trans hgoes')), hin⟩

theorem p_ne_nil {r : Reader} (h : cs.Here r) : r.p ≠ [] := (token_p h).1

/-- Behind the last attribute. -/
theorem halts_atEnd (s : Parser) (value : List UInt8) :
    Halts cs.turn (store s .atEnd value) (.returns true (store s .atEnd value).map) :=
  .of_step rfl

/-- In front of an attribute. -/
theorem goes_leading {s : Parser} (hlabel : s.label = .attribute) (here : cs.Here s.reader) :
    Goes cs.turn 0 s { s with label := .leading } ∧ cs.In .start { s with label := .leading } := by
  refine ⟨(Goes.of_step ?_).mono (Nat.zero_le _), rfl, here, by simp, by simp⟩
  unfold turn
  simp only [hlabel, p_ne_nil here, if_false]

/-- Another character of a name. -/
theorem passes_letter (hcs : cs.Lawful) {context : Context} {s s0 : Parser} {uc : List UInt16}
    (hgoes : Goes cs.turn 0 s s0) (hlabel : s0.label = .name) (hreader : s0.reader = s.reader)
    (here : cs.Here s.reader) (hpos : 0 < s.reader.size) (hunits : cs.units s.reader = .ok uc)
    (hchar : isNameChar uc = true) (hspans : Relation.ReflTransGen cs.Advances s0.start s.reader.p)
    (hnext : cs.next s.reader context = some .name) : cs.Passes context s := by
  refine passes_of_turn hcs .name (x := .error (.returns false s0.map))
    (f := fun r => { s0 with reader := r }) hgoes hnext ?_ ?_ ?_
  · unfold turn
    simp only [hlabel, hreader, p_ne_nil here, hunits, hchar, if_true, if_false, token_rest]
    all_goals rfl
  · exact fun h => ⟨_, .of_step h, trivial⟩
  · intro r here' hp
    have hadvance := advances_of_here here hpos
    have hspans' : Relation.ReflTransGen cs.Advances s0.start r.p := by
      rw [hp]
      exact hspans.tail hadvance
    have hlt : r.p.length < s0.start.length := by
      have hle := (suffix_of_advances hspans).length_le
      have := hadvance.length_lt.2
      rw [hp]
      omega
    exact ⟨_, .refl _, rfl, hlabel, here', fun _ => ⟨hspans', hlt⟩, by simp⟩

theorem passes_start (hcs : cs.Lawful) {s : Parser} (hin : cs.In .start s) (hpos : 0 < s.reader.size) :
    cs.Passes .start s := by
  have hlabel : s.label = .leading := hin.label
  by_cases hspace : cs.isSpace s.reader
  · refine passes_of_turn hcs .start (x := .error (.returns true s.map)) (f := fun r => { s with reader := r })
      (.refl s) (by unfold next; simp only [hspace, if_true]) ?_ ?_ ?_
    · unfold turn
      simp only [hlabel, hspace, if_true, token_rest]
      all_goals rfl
    · exact fun h => ⟨_, .of_step h, trivial⟩
    · exact fun r here _ => ⟨_, .refl _, rfl, hlabel, here, by simp, by simp⟩
  · have hstep : cs.turn s = .ok { s with label := .name, start := s.reader.p } := by
      unfold turn
      simp only [hlabel, hspace, Bool.false_eq_true, if_false]
    have hgoes := (Goes.of_step hstep).mono (Nat.zero_le 1)
    cases hunits : cs.units s.reader with
    | error e =>
      refine .inr ⟨.stops e, hgoes.halts (.of_step ?_), units_error hunits, .inl ?_⟩
      · unfold turn
        simp only [p_ne_nil hin.here, hunits, if_false]
      · unfold next
        simp only [hspace, hunits, Bool.false_eq_true, if_false]
    | ok uc =>
      by_cases hchar : isNameChar uc
      · refine passes_letter hcs hgoes rfl rfl hin.here hpos hunits hchar .refl ?_
        unfold next
        simp only [hspace, hunits, hchar, Bool.false_eq_true, if_false, if_true]
      · refine .inr ⟨.returns false s.map, hgoes.halts (.of_step ?_), trivial, .inl ?_⟩
        · unfold turn endName
          simp only [p_ne_nil hin.here, hunits, hchar, Bool.false_eq_true, if_false, Nat.sub_self,
            if_true]
        · unfold next
          simp only [hspace, hunits, hchar, Bool.false_eq_true, if_false]

/-- In the loop behind a name. -/
theorem passes_behindName (hcs : cs.Lawful) {context : Context} {s s0 : Parser}
    (hgoes : Goes cs.turn 0 s s0) (hlabel : s0.label = .gap) (hreader : s0.reader = s.reader)
    (hnext : cs.next s.reader context = cs.next s.reader .gap) : cs.Passes context s := by
  by_cases hspace : cs.isSpace s.reader
  · refine passes_of_turn hcs .gap (x := .error (.returns false s0.map))
      (f := fun r => { s0 with reader := r }) hgoes (by rw [hnext]; unfold next; simp only [hspace, if_true]) ?_ ?_ ?_
    · unfold turn
      simp only [hlabel, hreader, hspace, if_true, token_rest]
      all_goals rfl
    · exact fun h => ⟨_, .of_step h, trivial⟩
    · exact fun r here' _ => ⟨_, .refl _, rfl, hlabel, here', by simp, by simp⟩
  · cases hunits : cs.units s.reader with
    | error e =>
      refine .inr ⟨.stops e, hgoes.halts (.of_step ?_), units_error hunits, .inl ?_⟩
      · unfold turn
        simp only [hlabel, hreader, hspace, hunits, Bool.false_eq_true, if_false]
      · rw [hnext]
        unfold next
        simp only [hspace, hunits, Bool.false_eq_true, if_false]
    | ok uc =>
      by_cases hequal : uc = [equalChar]
      · refine passes_of_turn hcs .spaces (x := .ok (store s0 .atEnd []))
          (f := fun r => { s0 with label := .spaces, reader := r }) hgoes ?_ ?_
          ?_ ?_
        · rw [hnext]
          unfold next
          simp only [hspace, hunits, hequal, Bool.false_eq_true, if_false, if_true]
        · unfold turn
          simp only [hlabel, hreader, hspace, hunits, hequal, ne_eq, not_true_eq_false,
            Bool.false_eq_true, if_false, token_rest]
          all_goals rfl
        · exact fun h => ⟨_, ((Goes.of_step h).mono (Nat.zero_le 1)).halts (halts_atEnd s0 []), trivial⟩
        · exact fun r here' _ => ⟨_, .refl _, rfl, rfl, here', by simp, by simp⟩
      · refine .inr ⟨.returns false s0.map, hgoes.halts (.of_step ?_), trivial, .inl ?_⟩
        · unfold turn
          simp only [hlabel, hreader, hspace, hunits, hequal, ne_eq, not_false_eq_true,
            Bool.false_eq_true, if_false, if_true]
        · rw [hnext]
          unfold next
          simp only [hspace, hunits, hequal, Bool.false_eq_true, if_false]

theorem passes_name (hcs : cs.Lawful) {s : Parser} (hin : cs.In .name s) (hpos : 0 < s.reader.size) :
    cs.Passes .name s := by
  have hlabel : s.label = .name := hin.label
  obtain ⟨hspans, hlt⟩ := hin.inName rfl
  cases hunits : cs.units s.reader with
  | error e =>
    refine .inr ⟨.stops e, .of_step ?_, units_error hunits, .inl ?_⟩
    · unfold turn
      simp only [hlabel, p_ne_nil hin.here, hunits, if_false]
    · unfold next
      simp only [hunits]
  | ok uc =>
    by_cases hchar : isNameChar uc
    · refine passes_letter hcs (.refl s) hlabel rfl hin.here hpos hunits hchar hspans ?_
      unfold next
      simp only [hunits, hchar, if_true]
    · obtain ⟨name, hname⟩ := unescapeAttribute_ok hcs hspans
      have hstep : cs.turn s = .ok { s with label := .gap, name } := by
        unfold turn endName
        simp only [hlabel, p_ne_nil hin.here, hunits, hchar, Bool.false_eq_true, if_false,
          Nat.ne_of_gt (Nat.sub_pos_of_lt hlt), hname]
      refine passes_behindName hcs ((Goes.of_step hstep).mono (Nat.zero_le 1)) rfl rfl ?_
      unfold next
      simp only [hunits, hchar, Bool.false_eq_true, if_false]

theorem passes_gap (hcs : cs.Lawful) {s : Parser} (hin : cs.In .gap s) : cs.Passes .gap s :=
  passes_behindName hcs (.refl s) hin.label rfl rfl

/-- In the loop over a value. -/
theorem passes_inValue (hcs : cs.Lawful) {context : Context} {s s0 : Parser}
    (hgoes : Goes cs.turn 0 s s0) (hlabel : s0.label = .value) (hreader : s0.reader = s.reader)
    (here : cs.Here s.reader) (hpos : 0 < s.reader.size)
    (hspans : Relation.ReflTransGen cs.Advances s0.start s.reader.p)
    (hkept : Relation.ReflTransGen cs.Advances s0.start s0.endNoSpace)
    (hnext : cs.next s.reader context = cs.next s.reader .value) : cs.Passes context s := by
  cases hunits : cs.units s.reader with
  | error e =>
    refine .inr ⟨.stops e, hgoes.halts (.of_step ?_), units_error hunits, .inl ?_⟩
    · unfold turn
      simp only [hlabel, hreader, p_ne_nil here, hunits, if_false]
    · rw [hnext]
      unfold next
      simp only [hunits]
  | ok uc =>
    by_cases hsemi : uc = [semiColonChar]
    · obtain ⟨value, hvalue⟩ := unescapeAttribute_ok hcs hkept
      refine passes_of_turn hcs .start (x := .ok (store s0 .atEnd value)) (f := fun r => store s0 r value)
        hgoes ?_ ?_ ?_ ?_
      · rw [hnext]
        unfold next
        simp only [hunits, hsemi, if_true]
      · unfold turn endValue
        simp only [hlabel, hreader, p_ne_nil here, hunits, hsemi, ne_eq, not_true_eq_false, if_false,
          hvalue, token_rest]
        all_goals rfl
      · exact fun h => ⟨_, ((Goes.of_step h).mono (Nat.zero_le 1)).halts (halts_atEnd s0 value), trivial⟩
      · intro r here' _
        obtain ⟨hgoes', hin⟩ := goes_leading (s := store s0 r value) rfl here'
        exact ⟨_, hgoes', rfl, hin⟩
    · have hadvance := advances_of_here here hpos
      have hkept' : Relation.ReflTransGen cs.Advances s0.start
          (if cs.isSpace s.reader then s0.endNoSpace else s.reader.rest) := by
        split_ifs
        · exact hkept
        · exact hspans.tail hadvance
      obtain ⟨value, hvalue⟩ := unescapeAttribute_ok hcs hkept'
      refine passes_of_turn hcs .value (x := .ok (store s0 .atEnd value))
        (f := fun r => { s0 with
          reader := r
          endNoSpace := if cs.isSpace s.reader then s0.endNoSpace else s.reader.rest })
        hgoes ?_ ?_ ?_ ?_
      · rw [hnext]
        unfold next
        simp only [hunits, hsemi, if_false]
      · have hend : cs.endValue s0 .atEnd
            (if cs.isSpace s.reader then s0.endNoSpace else s.reader.rest) =
              .ok (store s0 .atEnd value) := by
          unfold endValue
          rw [hvalue]
          rfl
        unfold turn
        simp only [hlabel, hreader, p_ne_nil here, hunits, hsemi, ne_eq, not_false_eq_true, if_true,
          if_false, token_rest, hend]
        all_goals rfl
      · exact fun h => ⟨_, ((Goes.of_step h).mono (Nat.zero_le 1)).halts (halts_atEnd s0 value), trivial⟩
      · intro r here' hp
        refine ⟨_, .refl _, rfl, hlabel, here', by simp, fun _ => ⟨?_, hkept'⟩⟩
        rw [hp]
        exact hspans.tail hadvance

theorem passes_spaces (hcs : cs.Lawful) {s : Parser} (hin : cs.In .spaces s)
    (hpos : 0 < s.reader.size) : cs.Passes .spaces s := by
  have hlabel : s.label = .spaces := hin.label
  by_cases hspace : cs.isSpace s.reader
  · refine passes_of_turn hcs .spaces (x := .error (.returns false s.map)) (f := fun r => { s with reader := r })
      (.refl s) (by unfold next; simp only [hspace, if_true]) ?_ ?_ ?_
    · unfold turn
      simp only [hlabel, hspace, if_true, token_rest]
      all_goals rfl
    · exact fun h => ⟨_, .of_step h, trivial⟩
    · exact fun r here' _ => ⟨_, .refl _, rfl, hlabel, here', by simp, by simp⟩
  · have hstep : cs.turn s =
        .ok { s with label := .value, start := s.reader.p, endNoSpace := s.reader.p } := by
      unfold turn
      simp only [hlabel, hspace, Bool.false_eq_true, if_false]
    refine passes_inValue hcs ((Goes.of_step hstep).mono (Nat.zero_le 1)) rfl rfl hin.here hpos .refl
      .refl ?_
    unfold next
    simp only [hspace, Bool.false_eq_true, if_false]

theorem passes (hcs : cs.Lawful) {context : Context} {s : Parser} (hin : cs.In context s)
    (hpos : 0 < s.reader.size) : cs.Passes context s := by
  cases context with
  | start => exact passes_start hcs hin hpos
  | name => exact passes_name hcs hin hpos
  | gap => exact passes_gap hcs hin
  | spaces => exact passes_spaces hcs hin hpos
  | value =>
    obtain ⟨hspans, hkept⟩ := hin.inValue rfl
    exact passes_inValue hcs (.refl s) hin.label rfl hin.here hpos hspans hkept rfl

/-! ## Bytes that are no character -/

theorem units_nil (hcs : cs.Lawful) {r : Reader} (hsize : r.size = 0) : cs.units r = .ok [] := by
  unfold units Reader.char
  rw [hsize, List.take_zero, hcs.toUnicode_nil]

theorem isSpace_nil (hcs : cs.Lawful) {r : Reader} (hsize : r.size = 0) : cs.isSpace r = false := by
  have hpos := List.length_pos_of_ne_nil hcs.space_ne_nil
  unfold isSpace
  simp only [decide_eq_false_iff_not]
  rintro ⟨-, hlength, -⟩
  omega

/-- Outside a value they are rejected. -/
theorem halts_of_nil (hcs : cs.Lawful) {context : Context} {s : Parser} (hin : cs.In context s)
    (hsize : s.reader.size = 0) (hout : ¬ context.InValue) :
    ∃ answer, Halts cs.turn s answer ∧ answer.Proper := by
  have hunits := units_nil hcs hsize
  have hspace := isSpace_nil hcs hsize
  have hgap : ∀ s0 : Parser, s0.label = .gap → s0.reader = s.reader →
      Halts cs.turn s0 (.returns false s0.map) := by
    intro s0 hlabel hreader
    refine .of_step ?_
    unfold turn
    simp only [hlabel, hreader, hspace, hunits, Bool.false_eq_true, if_false]
    rfl
  cases context with
  | start =>
    have hlabel : s.label = .leading := hin.label
    have hstep : cs.turn s = .ok { s with label := .name, start := s.reader.p } := by
      unfold turn
      simp only [hlabel, hspace, Bool.false_eq_true, if_false]
    refine ⟨.returns false s.map, ((Goes.of_step hstep).mono (Nat.zero_le 1)).halts (.of_step ?_),
      trivial⟩
    unfold turn endName
    simp only [p_ne_nil hin.here, hunits, if_false, Nat.sub_self, if_true]
    rfl
  | name =>
    have hlabel : s.label = .name := hin.label
    obtain ⟨hspans, hlt⟩ := hin.inName rfl
    obtain ⟨name, hname⟩ := unescapeAttribute_ok hcs hspans
    have hstep : cs.turn s = .ok { s with label := .gap, name } := by
      unfold turn endName
      simp only [hlabel, p_ne_nil hin.here, hunits, if_false, isNameChar, Bool.false_eq_true,
        Nat.ne_of_gt (Nat.sub_pos_of_lt hlt), hname]
    exact ⟨_, ((Goes.of_step hstep).mono (Nat.zero_le 1)).halts (hgap _ rfl rfl), trivial⟩
  | gap => exact ⟨_, hgap s hin.label rfl, trivial⟩
  | spaces => exact absurd trivial hout
  | value => exact absurd trivial hout

/-- In a value the parser does not get beyond them. -/
theorem not_halts_of_nil (hcs : cs.Lawful) {context : Context} {s : Parser} (hin : cs.In context s)
    (hsize : s.reader.size = 0) (hvalue : context.InValue) (answer : Answer) :
    ¬ Halts cs.turn s answer := by
  have hunits := units_nil hcs hsize
  have hspace := isSpace_nil hcs hsize
  have hrest : s.reader.rest = s.reader.p := by rw [Reader.rest, hsize, List.drop_zero]
  have hread : cs.readAttributeChar s.reader true = .ok (some s.reader) := by
    rw [token_rest, hrest]
    exact hin.here
  have hloop : ∀ s0 : Parser, s0.label = .value ∧ s0.reader = s.reader →
      ∃ s1, cs.turn s0 = .ok s1 ∧ s1.label = .value ∧ s1.reader = s.reader := by
    rintro s0 ⟨hlabel, hreader⟩
    refine ⟨{ s0 with reader := s.reader, endNoSpace := s.reader.rest }, ?_, hlabel, rfl⟩
    unfold turn
    simp only [hlabel, hreader, p_ne_nil hin.here, hunits, hspace, hread, if_false,
      Bool.false_eq_true]
    rfl
  cases context with
  | spaces =>
    have hlabel : s.label = .spaces := hin.label
    have hstep : cs.turn s =
        .ok { s with label := .value, start := s.reader.p, endNoSpace := s.reader.p } := by
      unfold turn
      simp only [hlabel, hspace, Bool.false_eq_true, if_false]
    rw [((Goes.of_step hstep).mono (Nat.zero_le 1)).halts_iff]
    exact not_halts hloop ⟨rfl, rfl⟩
  | value => exact not_halts hloop ⟨hin.label, rfl⟩
  | start => exact hvalue.elim
  | name => exact hvalue.elim
  | gap => exact hvalue.elim

theorem halts_of_not_blocked (hcs : cs.Lawful) {context : Context} {s : Parser}
    (hin : cs.In context s) (h : ¬ cs.Blocked context s.reader.p) :
    ∃ answer, Halts cs.turn s answer ∧ answer.Proper := by
  induction hn : s.reader.p.length using Nat.strong_induction_on generalizing context s with
  | _ n ih =>
    rcases Nat.eq_zero_or_pos s.reader.size with hsize | hpos
    · exact halts_of_nil hcs hin hsize fun hvalue => h (.here hin.here hsize hvalue)
    · rcases passes hcs hin hpos with ⟨context', s', hnext, htoken, hgoes, hin'⟩ | ⟨answer, h', hproper, -⟩
      · have hp := (token_p htoken).2
        have hlt := (advances_of_here hin.here hpos).length_lt.2
        have hblocked : ¬ cs.Blocked context' s'.reader.p := by
          rw [hp]
          exact fun hblocked => h (.next hin.here hpos hnext hblocked)
        obtain ⟨answer, hhalts, hproper⟩ :=
          ih s'.reader.p.length (by rw [hp]; omega) hin' hblocked rfl
        exact ⟨answer, hgoes.halts hhalts, hproper⟩
      · exact ⟨answer, h', hproper⟩

theorem not_halts_of_blocked (hcs : cs.Lawful) {context : Context} {p : List UInt8}
    (h : cs.Blocked context p) {s : Parser} (hin : cs.In context s) (hp : s.reader.p = p)
    (answer : Answer) : ¬ Halts cs.turn s answer := by
  induction h generalizing s with
  | here htoken hsize hvalue =>
    have here := hin.here
    unfold Here at here
    rw [hp, htoken] at here
    cases here
    exact not_halts_of_nil hcs hin hsize hvalue answer
  | next htoken hsize hnext hblocked ih =>
    have here := hin.here
    unfold Here at here
    rw [hp, htoken] at here
    cases here
    rcases passes hcs hin hsize with ⟨context', s', hnext', htoken', hgoes, hin'⟩ | ⟨_, -, -, hno | hno⟩
    · rw [hnext] at hnext'
      cases hnext'
      rw [hgoes.halts_iff]
      exact ih hin' (token_p htoken').2
    · rw [hnext] at hno
      cases hno
    · cases hblocked with
      | here htoken' _ _ => exact absurd htoken' (hno _)
      | next htoken' _ _ _ => exact absurd htoken' (hno _)

/-- A parser that is blocked has no answer. -/
theorem not_parses_of_blocked (hcs : cs.Lawful) {s : List UInt8} (h : cs.Blocked .start s)
    {map : SpecificAttributesMap} (answer : Answer) : ¬ cs.Parses s map answer := by
  obtain ⟨r, htoken⟩ : ∃ r, cs.token s = .ok (some r) := by
    cases h with
    | here htoken _ _ => exact ⟨_, htoken⟩
    | next htoken _ _ _ => exact ⟨_, htoken⟩
  have hread : cs.readAttributeChar (.start s) true = .ok (some r) := htoken
  obtain ⟨hgoes, hin⟩ := goes_leading (s := initial map r) rfl (here_of_token htoken)
  unfold Parses
  simp only [hread]
  rw [hgoes.halts_iff]
  exact not_halts_of_blocked hcs h hin (token_p htoken).2 answer

/-- The parser ends, and with an exception or a regular answer, just if it is not blocked. -/
theorem parses_iff (hcs : cs.Lawful) (s : List UInt8) (map : SpecificAttributesMap) :
    (∃ answer, cs.Parses s map answer ∧ answer.Proper) ↔ ¬ cs.Blocked .start s := by
  have hread : cs.readAttributeChar (.start s) true = cs.token s := rfl
  refine ⟨fun ⟨answer, hparses, _⟩ hblocked => not_parses_of_blocked hcs hblocked answer hparses,
    fun hblocked => ?_⟩
  unfold Parses
  rw [hread]
  cases htoken : cs.token s with
  | error e => exact ⟨.stops e, rfl, token_error hcs htoken⟩
  | ok result =>
    cases result with
    | none => exact ⟨.returns true map, .of_step rfl, trivial⟩
    | some r =>
      obtain ⟨hgoes, hin⟩ := goes_leading (s := initial map r) rfl (here_of_token htoken)
      have hp : r.p = s := (token_p htoken).2
      obtain ⟨answer, hhalts, hproper⟩ := halts_of_not_blocked hcs hin (by rwa [← hp] at hblocked)
      exact ⟨answer, hgoes.halts hhalts, hproper⟩

end CharSet

end FirebirdCore.Intl
