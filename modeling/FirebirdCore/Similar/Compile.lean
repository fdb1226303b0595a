import FirebirdCore.Similar.Program
import FirebirdCore.Similar.Syntax

/-!
# What the parser compiles

The nodes that the parser pushes for a part of a pattern implement its language, if no sub-pattern
that is repeated can be empty.
-/
namespace FirebirdCore.Similar
open scoped Computability

variable {α γ : Type}

/-! ## Repetitions -/

theorem insert_append (pre f : List (Node α γ)) (node : Node α γ) :
    Evaluator.insert (pre ++ f) pre.length node = pre ++ node :: f := by
  simp [Evaluator.insert]

theorem pushStar_append (pre f : List (Node α γ)) :
    Evaluator.pushStar (pre ++ f) pre.length = pre ++ starNodes f := by
  have hbranch : ((pre ++ f).length : ℤ) - pre.length + 2 = ((f.length + 2 : ℕ) : ℤ) := by
    simp
  have href : (pre.length : ℤ) - (pre ++ Node.opBranch ((f.length + 2 : ℕ) : ℤ) :: f).length =
      -((f.length + 1 : ℕ) : ℤ) := by
    simp
  simp only [Evaluator.pushStar, hbranch, insert_append, href, starNodes, List.append_assoc,
    List.cons_append, List.nil_append]

theorem pushPlus_append (pre f : List (Node α γ)) :
    Evaluator.pushPlus (pre ++ f) pre.length = pre ++ plusNodes f := by
  have href : (pre.length : ℤ) - (pre ++ (f ++ [(Node.opBranch 2 : Node α γ)])).length =
      -((f.length + 1 : ℕ) : ℤ) := by
    simp
  simp only [Evaluator.pushPlus, plusNodes, List.append_assoc, List.cons_append, List.nil_append,
    Nat.cast_ofNat, href]

theorem pushOpt_append (pre f : List (Node α γ)) :
    Evaluator.pushOpt (pre ++ f) pre.length = pre ++ optNodes f := by
  have hbranch : ((pre ++ f).length : ℤ) - pre.length + 1 = ((f.length + 1 : ℕ) : ℤ) := by
    simp
  simp only [Evaluator.pushOpt, hbranch, insert_append, optNodes, List.append_assoc,
    List.cons_append]

/-- The nodes of a repetition with bounds. -/
def repeatNodes (n1 n2 : ℕ) (f : List (Node α γ)) : List (Node α γ) :=
  if n1 = 0 then if n2 = Evaluator.intMax then starNodes f else timesNodes n2 (optNodes f)
  else if n2 = n1 then timesNodes n1 f
  else if n2 = Evaluator.intMax then timesNodes n1 f ++ starNodes f
  else timesNodes n1 f ++ timesNodes (n2 - n1) (optNodes f)

theorem pushTimes_append (pre f : List (Node α γ)) (n : ℕ) :
    Evaluator.insert (pre ++ f) pre.length
        (.opRepeatingRefStart n ((pre ++ f).length - pre.length + 1)) ++
      [.opRepeatingRefEnd (pre.length - (Evaluator.insert (pre ++ f) pre.length
        (.opRepeatingRefStart n ((pre ++ f).length - pre.length + 1) : Node α γ)).length)] =
      pre ++ timesNodes n f := by
  have hstart : ((pre ++ f).length : ℤ) - pre.length + 1 = ((f.length + 1 : ℕ) : ℤ) := by
    simp
  have hend : (pre.length : ℤ) -
      (pre ++ Node.opRepeatingRefStart n ((f.length + 1 : ℕ) : ℤ) :: f).length =
      -((f.length + 1 : ℕ) : ℤ) := by
    simp
  simp only [hstart, insert_append, hend, timesNodes, List.append_assoc, List.cons_append]

theorem pushRepeat_append (pre f : List (Node α γ)) (n1 n2 : ℕ) :
    Evaluator.pushRepeat (pre ++ f) pre.length n1 n2 = pre ++ repeatNodes n1 n2 f := by
  unfold Evaluator.pushRepeat repeatNodes
  by_cases hn1 : n1 = 0
  · by_cases hn2 : n2 = Evaluator.intMax
    · simp only [hn1, hn2, and_self, if_true, pushStar_append]
    · simp only [hn1, hn2, and_false, if_false, if_true, pushOpt_append, ne_eq, not_true_eq_false,
        pushTimes_append]
  · have hcopies : (List.drop (pre.length + 1) (pre ++ timesNodes n1 f)).take f.length = f := by
      rw [← List.drop_drop, List.drop_left]
      simp [timesNodes]
    have hsize : ((pre ++ f).length : ℤ) - (pre.length + 1 : ℕ) + 1 = f.length := by
      simp
    simp only [hn1, false_and, if_false, hsize, ne_eq, not_false_eq_true, and_true,
      Int.toNat_natCast, pushTimes_append, hcopies]
    by_cases heq : n2 = n1
    · simp only [heq, not_true_eq_false, if_false, if_true]
    · by_cases hmax : n2 = Evaluator.intMax
      · have href : -(f.length : ℤ) - 1 = -((f.length + 1 : ℕ) : ℤ) := by
          push_cast
          ring
        simp only [heq, not_false_eq_true, if_true, if_false]
        simp only [hmax, if_true, href, starNodes, List.append_assoc, List.cons_append,
          Nat.cast_add, Nat.cast_ofNat]
      · have href : -(f.length : ℤ) - 3 = -(((optNodes f).length + 1 : ℕ) : ℤ) := by
          simp [optNodes]
          ring
        have hstart : (f.length : ℤ) + 3 = ((optNodes f).length + 1 : ℕ) := by
          simp [optNodes]
          ring
        simp only [heq, not_false_eq_true, if_true, if_false, hmax, href, hstart, timesNodes,
          List.append_assoc, List.cons_append]
        simp [optNodes]

/-! ## The words of a repetition -/

theorem exists_le_pow_iff (L : Language α) (n : ℕ) (w : List α) :
    (∃ k ≤ n, w ∈ L ^ k) ↔ w ∈ (1 + L) ^ n := by
  induction n generalizing w with
  | zero => simp
  | succ n ih =>
    rw [pow_succ', Language.mem_mul]
    constructor
    · rintro ⟨k, hk, hw⟩
      cases k with
      | zero =>
        have hnil : w ∈ (1 + L) ^ n := (ih w).1 ⟨0, Nat.zero_le n, hw⟩
        exact ⟨[], .inl (Language.nil_mem_one), w, hnil, rfl⟩
      | succ k =>
        rw [pow_succ', Language.mem_mul] at hw
        obtain ⟨u, hu, v, hv, rfl⟩ := hw
        exact ⟨u, .inr hu, v, (ih v).1 ⟨k, Nat.le_of_succ_le_succ hk, hv⟩, rfl⟩
    · rintro ⟨u, hu, v, hv, rfl⟩
      obtain ⟨k, hk, hv⟩ := (ih v).2 hv
      rcases hu with hu | hu
      · rw [(Language.mem_one u).1 hu]
        exact ⟨k, Nat.le_succ_of_le hk, hv⟩
      · refine ⟨k + 1, Nat.succ_le_succ hk, ?_⟩
        rw [pow_succ']
        exact Language.append_mem_mul hu hv

theorem exists_pow_iff (L : Language α) (w : List α) : (∃ k, w ∈ L ^ k) ↔ w ∈ L∗ := by
  rw [Language.kstar_eq_iSup_pow, Language.mem_iSup]

theorem exists_ge_pow_iff (L : Language α) (n : ℕ) (w : List α) :
    (∃ k, n ≤ k ∧ w ∈ L ^ k) ↔ w ∈ L ^ n * L∗ := by
  rw [Language.mem_mul]
  constructor
  · rintro ⟨k, hk, hw⟩
    obtain ⟨m, rfl⟩ := Nat.exists_eq_add_of_le hk
    rw [pow_add, Language.mem_mul] at hw
    obtain ⟨u, hu, v, hv, rfl⟩ := hw
    exact ⟨u, hu, v, (exists_pow_iff L v).1 ⟨m, hv⟩, rfl⟩
  · rintro ⟨u, hu, v, hv, rfl⟩
    obtain ⟨m, hv⟩ := (exists_pow_iff L v).2 hv
    refine ⟨n + m, Nat.le_add_right n m, ?_⟩
    rw [pow_add]
    exact Language.append_mem_mul hu hv

theorem exists_between_pow_iff (L : Language α) {n m : ℕ} (hle : n ≤ m) (w : List α) :
    (∃ k, n ≤ k ∧ k ≤ m ∧ w ∈ L ^ k) ↔ w ∈ L ^ n * (1 + L) ^ (m - n) := by
  rw [Language.mem_mul]
  constructor
  · rintro ⟨k, hk, hkm, hw⟩
    obtain ⟨j, rfl⟩ := Nat.exists_eq_add_of_le hk
    rw [pow_add, Language.mem_mul] at hw
    obtain ⟨u, hu, v, hv, rfl⟩ := hw
    exact ⟨u, hu, v, (exists_le_pow_iff L _ v).1 ⟨j, by omega, hv⟩, rfl⟩
  · rintro ⟨u, hu, v, hv, rfl⟩
    obtain ⟨j, hj, hv⟩ := (exists_le_pow_iff L _ v).2 hv
    refine ⟨n + j, Nat.le_add_right n j, by omega, ?_⟩
    rw [pow_add]
    exact Language.append_mem_mul hu hv

/-- The upper bound that `n2` stands for. -/
def upperBound (n2 : ℕ) : Option ℕ := if n2 = Evaluator.intMax then none else some n2

def timesWords (L : Language α) (n : ℕ) (m : Option ℕ) : Language α :=
  {w | ∃ k, n ≤ k ∧ (∀ bound ∈ m, k ≤ bound) ∧ w ∈ L ^ k}

theorem mem_timesWords (L : Language α) (n : ℕ) (m : Option ℕ) (w : List α) :
    w ∈ timesWords L n m ↔ ∃ k, n ≤ k ∧ (∀ bound ∈ m, k ≤ bound) ∧ w ∈ L ^ k := Iff.rfl

theorem timesWords_none (L : Language α) (n : ℕ) : timesWords L n none = L ^ n * L∗ := by
  ext w
  rw [← exists_ge_pow_iff, mem_timesWords]
  simp

theorem timesWords_some (L : Language α) {n m : ℕ} (hle : n ≤ m) :
    timesWords L n (some m) = L ^ n * (1 + L) ^ (m - n) := by
  ext w
  rw [← exists_between_pow_iff L hle, mem_timesWords]
  simp

theorem implements_repeat [DecidableEq γ] {T : TextType α γ} {f : List (Node α γ)} {L : Language α}
    (hf : Implements T f L) (hempty : [] ∉ L) {n1 n2 : ℕ} (hle : n1 ≤ n2)
    (hmax : n1 < Evaluator.intMax) :
    Implements T (repeatNodes n1 n2 f) (timesWords L n1 (upperBound n2)) := by
  unfold repeatNodes upperBound
  by_cases hn2 : n2 = Evaluator.intMax
  · have hne : Evaluator.intMax ≠ n1 := by omega
    by_cases hn1 : n1 = 0
    · simp only [hn1, hn2, if_true, timesWords_none, pow_zero, one_mul]
      exact implements_star hf hempty
    · simp only [hn1, hn2, hne, if_true, if_false, timesWords_none]
      exact implements_append (implements_times hf n1) (implements_star hf hempty)
  · have hopt := implements_times (implements_opt hf)
    by_cases hn1 : n1 = 0
    · simp only [hn1, hn2, if_true, if_false, timesWords_some L (Nat.zero_le n2), pow_zero, one_mul,
        Nat.sub_zero]
      exact hopt n2
    · simp only [hn1, hn2, if_false, timesWords_some L hle]
      by_cases heq : n2 = n1
      · simp only [heq, if_true, Nat.sub_self, pow_zero, mul_one]
        exact implements_times hf n1
      · simp only [heq, if_false]
        exact implements_append (implements_times hf n1) (hopt (n2 - n1))

/-! ## Sets of characters -/

section

/-- What an element adds to the characters of a set. -/
def charsOf (T : TextType α γ) : Element α → List γ
  | .char c => [T.canonical c]
  | .range first last => [T.canonical first, T.canonical last]
  | .chars tables => tables.flatMap T.canonicalLetters

def rangesOf : Element α → List (α × α)
  | .range first last => [(first, last)]
  | _ => []

theorem has_iff (T : TextType α γ) (c : α) (e : Element α) :
    e.Has T c ↔ T.canonical c ∈ charsOf T e ∨ (rangesOf e).any (T.inRange c) = true := by
  cases e <;> simp [Element.Has, charsOf, rangesOf, TextType.inRange, or_assoc]

/-- The operands that the elements of a set make up. -/
def enumeration (T : TextType α γ) (set : CharSet α) : Enumeration α γ where
  str := set.included.flatMap (charsOf T)
  str2 := set.included.flatMap rangesOf
  str3 := set.excluded.flatMap (charsOf T)
  str4 := set.excluded.flatMap rangesOf

theorem exists_has_iff (T : TextType α γ) (c : α) (elements : List (Element α)) :
    (∃ e ∈ elements, e.Has T c) ↔ T.canonical c ∈ elements.flatMap (charsOf T) ∨
      (elements.flatMap rangesOf).any (T.inRange c) = true := by
  simp only [has_iff, List.mem_flatMap, List.any_eq_true]
  constructor
  · rintro ⟨e, he, hchar | ⟨range, hrange, hin⟩⟩
    · exact .inl ⟨e, he, hchar⟩
    · exact .inr ⟨range, ⟨e, he, hrange⟩, hin⟩
  · rintro (⟨e, he, hchar⟩ | ⟨range, ⟨e, he, hrange⟩, hin⟩)
    · exact ⟨e, he, .inl hchar⟩
    · exact ⟨e, he, .inr ⟨range, hrange, hin⟩⟩

variable [DecidableEq γ]

theorem anyOf_eq_true_iff (T : TextType α γ) (set : Enumeration α γ) (c : α) :
    T.anyOf set c = true ↔
      (set.str = [] ∧ set.str2 = [] ∨ T.canonical c ∈ set.str ∨
        set.str2.any (T.inRange c) = true) ∧
      ¬ (T.canonical c ∈ set.str3 ∨ set.str4.any (T.inRange c) = true) := by
  unfold TextType.anyOf
  split_ifs with hout hexcluded
  · simp only [false_iff, not_and]
    rintro (⟨hstr, hstr2⟩ | hstr | hany)
    · exact absurd hout.2.1 (by simp [hstr, hstr2])
    · exact absurd hstr hout.1
    · exact absurd hany hout.2.2
  · simp [hexcluded]
  · have hin : set.str = [] ∧ set.str2 = [] ∨ T.canonical c ∈ set.str ∨
        set.str2.any (T.inRange c) = true := by
      by_contra hno
      rw [not_or, not_or, not_and_or] at hno
      exact hout ⟨hno.2.1, hno.1, hno.2.2⟩
    simp only [hin, hexcluded, false_or, true_and, decide_eq_true_iff]

/-- The test for no operands finds out whether there are elements, as each element adds characters. -/
theorem anyOf_iff {T : TextType α γ} {set : CharSet α}
    (hchars : ∀ e ∈ set.included, charsOf T e ≠ []) (c : α) :
    T.anyOf (enumeration T set) c = true ↔ set.Has T c := by
  have hnil : set.included = [] ↔
      set.included.flatMap (charsOf T) = [] ∧ set.included.flatMap rangesOf = [] := by
    constructor
    · intro hset
      simp [hset]
    · rintro ⟨hall, -⟩
      apply List.eq_nil_iff_forall_not_mem.2
      intro e he
      exact hchars e he (List.flatMap_eq_nil_iff.1 hall e he)
  unfold CharSet.Has
  rw [exists_has_iff, exists_has_iff, anyOf_eq_true_iff, hnil]
  rfl

variable {E : Evaluator α γ}

theorem readRange_text {c : α} {rest rest' : List α} {chars : List γ} {ranges : List (α × α)}
    (h : E.readRange c rest = .ok (chars, ranges, rest')) :
    ∃ e, E.rangeText c rest = some (e, rest') ∧ chars = charsOf E.textType e ∧
      ranges = rangesOf e ∧ charsOf E.textType e ≠ [] := by
  unfold Evaluator.readRange at h
  unfold Evaluator.rangeText
  cases rest with
  | nil =>
    cases h
    exact ⟨.char c, rfl, rfl, rfl, List.cons_ne_nil _ _⟩
  | cons minus behind =>
    by_cases hminus : E.is minus .minus
    · cases behind with
      | nil => simp [hminus] at h
      | cons last rest =>
        by_cases hescape : E.isEscape last
        · simp only [hminus, hescape, not_true_eq_false, if_false, if_true] at h ⊢
          cases hread : E.readEscaped rest with
          | error e => simp [hread] at h
          | ok result =>
            simp only [hread] at h
            cases h
            exact ⟨.range c result.1, rfl, rfl, rfl, List.cons_ne_nil _ _⟩
        · simp only [hminus, hescape, not_true_eq_false, if_false, if_true] at h ⊢
          cases h
          exact ⟨.range c last, rfl, rfl, rfl, List.cons_ne_nil _ _⟩
    · simp only [hminus] at h
      cases h
      exact ⟨.char c, by simp [hminus], rfl, rfl, List.cons_ne_nil _ _⟩

theorem readClass_text {rest rest' : List α} {chars : List γ}
    (h : E.readClass rest = .ok (chars, rest')) :
    ∃ e, E.classText rest = some (e, rest') ∧ chars = charsOf E.textType e ∧
      [] = rangesOf e ∧ charsOf E.textType e ≠ [] := by
  unfold Evaluator.readClass at h
  unfold Evaluator.classText
  cases rest with
  | nil => cases h
  | cons c start =>
    by_cases hcolon : E.is c .colon
    · simp only [hcolon, not_true_eq_false, if_false] at h ⊢
      split at h
      · cases h
      · rename_i close rest hdrop
        by_cases hclose : E.is close .closeBracket
        · simp only [hclose, not_true_eq_false, if_false, if_true, hdrop] at h ⊢
          cases hfind : classes.find? fun entry => entry.1 = E.textType.upperCase
              (start.takeWhile fun c => ¬ E.is c .colon) with
          | none => simp only [hfind, reduceCtorEq] at h
          | some entry =>
            simp only [hfind] at h ⊢
            cases h
            refine ⟨.chars entry.2, rfl, rfl, rfl, ?_⟩
            have htables : ∀ entry ∈ classes, entry.2 ≠ [] := by decide
            obtain ⟨table, htable⟩ := List.exists_mem_of_ne_nil _
              (htables entry (List.mem_of_find?_eq_some hfind))
            intro hnil
            exact E.textType.canonicalLetters_ne_nil table
              (List.flatMap_eq_nil_iff.1 hnil table htable)
        · simp [hclose] at h
    · simp [hcolon] at h

theorem readElement_text {c : α} {rest rest' : List α} {chars : List γ} {ranges : List (α × α)}
    (h : E.readElement c rest = .ok (chars, ranges, rest')) :
    ∃ e, E.elementText c rest = some (e, rest') ∧ chars = charsOf E.textType e ∧
      ranges = rangesOf e ∧ charsOf E.textType e ≠ [] := by
  unfold Evaluator.readElement at h
  unfold Evaluator.elementText
  by_cases hescape : E.isEscape c
  · simp only [hescape, if_true] at h ⊢
    cases hread : E.readEscaped rest with
    | error e => simp [hread] at h
    | ok result =>
      simp only [hread] at h ⊢
      exact readRange_text h
  · by_cases hopen : E.is c .openBracket
    · simp only [hescape, hopen, if_true] at h ⊢
      cases hread : E.readClass rest with
      | error e => simp [hread] at h
      | ok result =>
        simp only [hread] at h
        cases h
        exact readClass_text hread
    · simp only [hescape, hopen] at h ⊢
      exact readRange_text h

/-- The elements of a set, which add `charsBuffer` and `rangeBuffer` to the operands. -/
theorem readSet_text {fuel : ℕ} {included : Option (List (Element α))} {elements : List (Element α)}
    {rest rest' : List α} {enum : Enumeration α γ}
    (hincluded : ∀ es ∈ included, ∀ e ∈ es, charsOf E.textType e ≠ [])
    (helements : ∀ e ∈ elements, charsOf E.textType e ≠ [])
    (h : E.readSet fuel
      (included.map fun es => (es.flatMap (charsOf E.textType), es.flatMap rangesOf))
      (elements.flatMap (charsOf E.textType)) (elements.flatMap rangesOf) rest = .ok (enum, rest')) :
    ∃ set, E.setText fuel included elements rest = some (set, rest') ∧
      enum = enumeration E.textType set ∧ ∀ e ∈ set.included, charsOf E.textType e ≠ [] := by
  induction fuel generalizing included elements rest with
  | zero => cases h
  | succ fuel ih =>
    cases rest with
    | nil => cases h
    | cons c rest =>
      unfold Evaluator.readSet at h
      unfold Evaluator.setText
      by_cases hcircumflex : ¬ E.isEscape c ∧ ¬ E.is c .openBracket ∧ E.is c .circumflex
      · rw [if_pos hcircumflex] at h ⊢
        cases included with
        | some es => simp at h
        | none =>
          cases rest with
          | nil => simp at h
          | cons next behind =>
            by_cases hclose : E.is next .closeBracket
            · simp only [hclose, Option.map_none, Option.isSome_none, if_true] at h ⊢
              cases h
              exact ⟨⟨elements, []⟩, rfl, by simp [enumeration], helements⟩
            · simp only [hclose, Option.map_none, Option.isSome_none] at h ⊢
              refine @ih (some elements) [] _ ?_ ?_ ?_
              · intro es hes
                cases hes
                exact helements
              · simp
              · exact h
      · simp only [hcircumflex, if_false] at h ⊢
        cases helement : E.readElement c rest with
        | error e => simp [helement] at h
        | ok result =>
          obtain ⟨chars, ranges, rest⟩ := result
          obtain ⟨e, htext, rfl, rfl, he⟩ := readElement_text helement
          have hnew : ∀ x ∈ elements ++ [e], charsOf E.textType x ≠ [] := by
            intro x hx
            rcases List.mem_append.1 hx with hx | hx
            · exact helements x hx
            · rw [List.mem_singleton.1 hx]
              exact he
          simp only [helement, htext] at h ⊢
          cases rest with
          | nil => simp at h
          | cons next behind =>
            by_cases hclose : E.is next .closeBracket
            · simp only [hclose, if_true] at h ⊢
              cases included with
              | none =>
                cases h
                exact ⟨⟨elements ++ [e], []⟩, rfl, by simp [enumeration], hnew⟩
              | some es =>
                cases h
                exact ⟨⟨es, elements ++ [e]⟩, rfl, by simp [enumeration], hincluded es rfl⟩
            · simp only [hclose] at h ⊢
              apply ih hincluded hnew
              simpa using h

end

/-! ## Alternatives -/

theorem setRef_append (pre post : List (Node α γ)) (node : Node α γ) (r : ℤ) :
    Evaluator.setRef (pre ++ node :: post) pre.length r = pre ++ node.setRef r :: post := by
  rw [Evaluator.setRef, List.modify_eq_take_cons_drop (by simp)]
  simp

/-- Alternatives behind each of which another one stands; where they go to is not known yet. -/
def pendingNodes (fs : List (List (Node α γ))) : List (Node α γ) :=
  fs.flatMap fun f => .opBranch (f.length + 2 : ℕ) :: f ++ [.opRef 0]

/-- The positions at which they go to the end. -/
def refsOf : ℕ → List (List (Node α γ)) → List ℕ
  | _, [] => []
  | start, f :: fs => (start + f.length + 1) :: refsOf (start + f.length + 2) fs

theorem pendingNodes_append (fs gs : List (List (Node α γ))) :
    pendingNodes (fs ++ gs) = pendingNodes fs ++ pendingNodes gs := List.flatMap_append

theorem refsOf_append (start : ℕ) (fs : List (List (Node α γ))) (f : List (Node α γ)) :
    refsOf start (fs ++ [f]) =
      refsOf start fs ++ [start + (pendingNodes fs).length + f.length + 1] := by
  induction fs generalizing start with
  | nil => simp [refsOf, pendingNodes]
  | cons g gs ih =>
    simp only [List.cons_append, refsOf, ih, pendingNodes, List.flatMap_cons, List.length_append,
      List.length_cons, List.length_nil]
    congr 3
    omega

/-- The last alternative is known to have no other behind it. -/
def openNodes : List (List (Node α γ)) → List (Node α γ)
  | [] => []
  | [f] => .opBranch 0 :: f ++ [.opRef 0]
  | f :: fs => .opBranch (f.length + 2 : ℕ) :: f ++ .opRef 0 :: openNodes fs

theorem openNodes_append (fs : List (List (Node α γ))) (f : List (Node α γ)) :
    openNodes (fs ++ [f]) = pendingNodes fs ++ .opBranch 0 :: f ++ [.opRef 0] := by
  induction fs with
  | nil => rfl
  | cons g gs ih =>
    have hne : gs ++ [f] ≠ [] := by simp
    obtain ⟨h, hs, heq⟩ := List.exists_cons_of_ne_nil hne
    have hcons : openNodes (g :: (gs ++ [f])) =
        .opBranch (g.length + 2 : ℕ) :: g ++ .opRef 0 :: openNodes (gs ++ [f]) := by
      rw [heq]
      rfl
    rw [List.cons_append, hcons, ih]
    simp [pendingNodes]

theorem length_openNodes (fs : List (List (Node α γ))) :
    (openNodes fs).length = (altNodes fs).length := by
  fun_induction openNodes fs with
  | case1 => rfl
  | case2 f => simp [altNodes]
  | case3 f fs hne ih =>
    cases fs with
    | nil => exact absurd rfl hne
    | cons g gs => simp [altNodes, ih]

theorem foldl_setRef (pre : List (Node α γ)) (fs : List (List (Node α γ))) :
    (refsOf pre.length fs).foldl
        (fun nodes i => Evaluator.setRef nodes i (nodes.length - i)) (pre ++ openNodes fs) =
      pre ++ altNodes fs := by
  induction fs generalizing pre with
  | nil => rfl
  | cons f fs ih =>
    cases fs with
    | nil =>
      have hset := setRef_append (pre ++ .opBranch 0 :: f) [] (.opRef 0) 1
      have hpos : (pre ++ Node.opBranch 0 :: f).length = pre.length + f.length + 1 := by
        simp
        omega
      rw [hpos] at hset
      simp only [refsOf, List.foldl_cons, List.foldl_nil, openNodes, altNodes]
      have hdist : (((pre ++ (Node.opBranch 0 :: f ++ [Node.opRef 0] : List (Node α γ))).length : ℕ) : ℤ)
          - (pre.length + f.length + 1 : ℕ) = 1 := by
        simp
        ring
      rw [hdist]
      simpa [Node.setRef] using hset
    | cons g gs =>
      have hset := setRef_append (pre ++ .opBranch (f.length + 2 : ℕ) :: f) (openNodes (g :: gs))
        (.opRef 0) ((altNodes (g :: gs)).length + 1 : ℕ)
      have hpos : (pre ++ Node.opBranch (f.length + 2 : ℕ) :: f).length =
          pre.length + f.length + 1 := by
        simp
        omega
      have hdist : (((pre ++ (Node.opBranch (f.length + 2 : ℕ) :: f ++ Node.opRef 0 ::
          openNodes (g :: gs) : List (Node α γ))).length : ℕ) : ℤ) - (pre.length + f.length + 1 : ℕ) =
          ((altNodes (g :: gs)).length + 1 : ℕ) := by
        simp [length_openNodes]
        ring
      have hnext := ih (pre ++ .opBranch (f.length + 2 : ℕ) :: f ++
        [.opRef ((altNodes (g :: gs)).length + 1 : ℕ)])
      rw [hpos] at hset
      have hstart : (pre ++ .opBranch (f.length + 2 : ℕ) :: f ++
          [(.opRef ((altNodes (g :: gs)).length + 1 : ℕ) : Node α γ)]).length =
          pre.length + f.length + 2 := by
        simp
        omega
      rw [hstart] at hnext
      rw [refsOf, List.foldl_cons, openNodes, hdist]
      · simp only [List.append_assoc, List.cons_append, Node.setRef] at hset hnext ⊢
        rw [hset]
        simpa [altNodes_cons_cons] using hnext
      · simp

theorem finishBranches_append (pre : List (Node α γ)) (fs : List (List (Node α γ)))
    (f : List (Node α γ)) (patternPos : List α) :
    Evaluator.finishBranches (pre ++ pendingNodes fs).length (refsOf pre.length (fs ++ [f]))
        ⟨pre ++ pendingNodes (fs ++ [f]), patternPos⟩ =
      ⟨pre ++ altNodes (fs ++ [f]), patternPos⟩ := by
  have hset := setRef_append (pre ++ pendingNodes fs) (f ++ [.opRef 0])
    (.opBranch (f.length + 2 : ℕ)) 0
  have hopen : pre ++ openNodes (fs ++ [f]) =
      Evaluator.setRef (pre ++ pendingNodes (fs ++ [f])) (pre ++ pendingNodes fs).length 0 := by
    rw [pendingNodes_append, openNodes_append, ← List.append_assoc]
    simpa [pendingNodes, Node.setRef] using hset.symm
  simp only [Evaluator.finishBranches, ← hopen, foldl_setRef]

end FirebirdCore.Similar
