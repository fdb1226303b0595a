import FirebirdCore.Sqz.Diff

/-!
# What unpacking reads and writes

The loops of `unpack` and `applyDiff` once more, with the bytes of memory that they touch. The input is the
front part of memory, and the output is a buffer of its own.
-/
namespace FirebirdCore.Sqz

open Compressor

/-- Bytes of the input or of the output that are touched. -/
inductive Access where
  | read (offset count : ℕ)
  | write (offset count : ℕ)
  deriving DecidableEq, Repr

/-- Only bytes of the input are read, and only bytes of the output are written. -/
def Access.Inside (inLength outLength : ℕ) : Access → Prop
  | read offset count => offset + count ≤ inLength
  | write offset count => offset + count ≤ outLength

/-- The accesses, and where the input and the output stop. -/
abbrev Accesses := List Access × Except BugCheck (ℕ × ℕ)

def Accesses.after (accesses : List Access) (r : Accesses) : Accesses := (accesses ++ r.1, r.2)

/-- `unpack` from the input at `i` and the output at `o` on. -/
def unpackAccesses (memory : List UInt8) (inLength outLength i o : ℕ) : Accesses :=
  if i < inLength then
    let len := signedChar (memory.getD i 0)
    if len < 0 then
      if i + 1 ≥ inLength ∨ o + (-len).toNat > outLength then
        ([.read i 1], .error .decompressionOverran)
      else
        Accesses.after [.read i 1, .read (i + 1) 1, .write o (-len).toNat]
          (unpackAccesses memory inLength outLength (i + 2) (o + (-len).toNat))
    else if o + len.toNat > outLength then ([.read i 1], .error .decompressionOverran)
    else
      Accesses.after [.read i 1, .read (i + 1) len.toNat, .write o len.toNat]
        (unpackAccesses memory inLength outLength (i + 1 + len.toNat) (o + len.toNat))
  else if o > outLength then ([], .error .decompressionOverran)
  else ([], .ok (i, o))
termination_by inLength - i

/-- `applyDiff` behind the check of the length. -/
def diffAccesses (memory : List UInt8) (diffLength outLength i p : ℕ) : Accesses :=
  if i < diffLength ∧ p < outLength then
    let l := signedChar (memory.getD i 0)
    if l > 0 then
      if p + l.toNat > outLength then ([.read i 1], .error .appliedDifferencesWillNotFit)
      else if i + 1 + l.toNat > diffLength then ([.read i 1], .error .badDifferenceRecord)
      else
        Accesses.after [.read i 1, .read (i + 1) l.toNat, .write p l.toNat]
          (diffAccesses memory diffLength outLength (i + 1 + l.toNat) (p + l.toNat))
    else
      Accesses.after [.read i 1] (diffAccesses memory diffLength outLength (i + 1) (p + (-l).toNat))
  else if p > outLength ∨ i < diffLength then ([], .error .appliedDifferencesWillNotFit)
  else ([], .ok (i, p))
termination_by diffLength - i

def applyDiffAccesses (memory : List UInt8) (diffLength outLength : ℕ) : Accesses :=
  if diffLength > maxDifferences then ([], .error .badDifferenceRecord)
  else diffAccesses memory diffLength outLength 0 0

/-! ## The same results -/

theorem getD_drop (memory : List UInt8) (i : ℕ) : (memory.drop i).headD 0 = memory.getD i 0 := by
  simp [List.headD_eq_head?_getD, List.head?_drop]

/-- The accesses are those of `unpack`, which stops where they stop. -/
theorem unpackAccesses_result (memory : List UInt8) (inLength outLength i o : ℕ) (output : List UInt8)
    (ho : output.length = o) :
    (unpackAccesses memory inLength outLength i o).2.map Prod.snd =
      (unpackLoop outLength (inLength - i) (memory.drop i) output).map List.length := by
  fun_induction unpackAccesses memory inLength outLength i o generalizing output with
  | case1 i o hi len hlen hbad =>
    have hlen' : len = signedChar ((memory.drop i).headD 0) := by rw [getD_drop]
    have hbad' : inLength - i ≤ 1 ∨ output.length + (-len).toNat > outLength := by omega
    rw [unpackLoop, if_neg (by omega)]
    simp only [← hlen', if_pos hlen, if_pos hbad']
    rfl
  | case2 i o hi len hlen hbad ih =>
    have hlen' : len = signedChar ((memory.drop i).headD 0) := by rw [getD_drop]
    have hbad' : ¬ (inLength - i ≤ 1 ∨ output.length + (-len).toNat > outLength) := by omega
    rw [unpackLoop, if_neg (by omega)]
    simp only [← hlen', if_pos hlen, if_neg hbad', List.drop_drop]
    have hleft : inLength - i - 2 = inLength - (i + 2) := by omega
    rw [hleft]
    exact ih _ (by rw [List.length_append, List.length_replicate, ho])
  | case3 i o hi len hlen hbad =>
    have hlen' : len = signedChar ((memory.drop i).headD 0) := by rw [getD_drop]
    have hbad' : output.length + len.toNat > outLength := by omega
    rw [unpackLoop, if_neg (by omega)]
    simp only [← hlen', if_neg hlen, if_pos hbad']
    rfl
  | case4 i o hi len hlen hbad ih =>
    have hlen' : len = signedChar ((memory.drop i).headD 0) := by rw [getD_drop]
    have hbad' : ¬ output.length + len.toNat > outLength := by omega
    rw [unpackLoop, if_neg (by omega)]
    simp only [← hlen', if_neg hlen, if_neg hbad', List.drop_drop]
    have hleft : inLength - i - 1 - len.toNat = inLength - (i + 1 + len.toNat) := by omega
    rw [hleft, ← Nat.add_assoc]
    apply ih
    rw [List.length_append, List.takeD_length, ho]
  | case5 i o hi hfull =>
    rw [unpackLoop, if_pos (by omega), if_pos (by omega)]
    rfl
  | case6 i o hi hfull =>
    rw [unpackLoop, if_pos (by omega), if_neg (by omega)]
    simp [Except.map, ho]

/-- The accesses are those of `applyDiff` behind the check of the length. -/
theorem diffAccesses_result (memory : List UInt8) (diffLength outLength i p : ℕ) (output : List UInt8) :
    (diffAccesses memory diffLength outLength i p).2.map Prod.snd =
      (applyDiffLoop outLength (diffLength - i) (memory.drop i) p output).map Prod.fst := by
  fun_induction diffAccesses memory diffLength outLength i p generalizing output with
  | case1 i p h l hl hbad =>
    have hl' : l = signedChar ((memory.drop i).headD 0) := by rw [getD_drop]
    rw [applyDiffLoop, if_pos ⟨by omega, h.2⟩]
    simp only [← hl', if_pos hl, if_pos hbad]
    rfl
  | case2 i p h l hl hfit hbad =>
    have hl' : l = signedChar ((memory.drop i).headD 0) := by rw [getD_drop]
    have hbad' : 1 + l.toNat > diffLength - i := by omega
    rw [applyDiffLoop, if_pos ⟨by omega, h.2⟩]
    simp only [← hl', if_pos hl, if_neg hfit, if_pos hbad']
    rfl
  | case3 i p h l hl hfit hbad ih =>
    have hl' : l = signedChar ((memory.drop i).headD 0) := by rw [getD_drop]
    have hbad' : ¬ 1 + l.toNat > diffLength - i := by omega
    rw [applyDiffLoop, if_pos ⟨by omega, h.2⟩]
    simp only [← hl', if_pos hl, if_neg hfit, if_neg hbad', List.drop_drop]
    have hleft : diffLength - i - 1 - l.toNat = diffLength - (i + 1 + l.toNat) := by omega
    rw [hleft, ← Nat.add_assoc]
    exact ih _
  | case4 i p h l hl ih =>
    have hl' : l = signedChar ((memory.drop i).headD 0) := by rw [getD_drop]
    rw [applyDiffLoop, if_pos ⟨by omega, h.2⟩]
    simp only [← hl', if_neg hl, List.drop_drop]
    have hleft : diffLength - i - 1 = diffLength - (i + 1) := by omega
    rw [hleft]
    exact ih _
  | case5 i p h hbad =>
    rw [applyDiffLoop, if_neg (by omega), if_pos (by omega)]
    rfl
  | case6 i p h hbad =>
    rw [applyDiffLoop, if_neg (by omega), if_neg (by omega)]
    rfl

/-! ## Bounds -/

/-- Only bytes of the input are read, only bytes of the output are written, and unless there is a BUGCHECK
all of the input is consumed. -/
def Bounded (inLength outLength : ℕ) (r : Accesses) : Prop :=
  (∀ a ∈ r.1, a.Inside inLength outLength) ∧ ∀ i o, r.2 = .ok (i, o) → i = inLength

variable {inLength outLength : ℕ}

theorem bounded_error {accesses : List Access} {e : BugCheck}
    (h : ∀ a ∈ accesses, a.Inside inLength outLength) : Bounded inLength outLength (accesses, .error e) := by
  constructor
  · exact h
  · intro i o hok
    cases hok

theorem bounded_after {accesses : List Access} (h : ∀ a ∈ accesses, a.Inside inLength outLength)
    (r : Accesses) : Bounded inLength outLength (Accesses.after accesses r) ↔ Bounded inLength outLength r := by
  apply and_congr_left
  intro _
  constructor
  · intro hall a ha
    exact hall a (List.mem_append_right _ ha)
  · intro hr a ha
    obtain ha | ha := List.mem_append.1 ha
    · exact h a ha
    · exact hr a ha

/-- A difference string is never left, and neither is the record. -/
theorem diffAccesses_bounded (memory : List UInt8) {diffLength outLength i : ℕ} (p : ℕ) (hi : i ≤ diffLength) :
    Bounded diffLength outLength (diffAccesses memory diffLength outLength i p) := by
  fun_induction diffAccesses memory diffLength outLength i p with
  | case1 i p h l hl hbad =>
    apply bounded_error
    simp [Access.Inside]
    omega
  | case2 i p h l hl hfit hbad =>
    apply bounded_error
    simp [Access.Inside]
    omega
  | case3 i p h l hl hfit hbad ih =>
    rw [bounded_after]
    · exact ih (by omega)
    · simp [Access.Inside]
      omega
  | case4 i p h l hl ih =>
    rw [bounded_after]
    · exact ih (by omega)
    · simp [Access.Inside]
      omega
  | case5 i p h hbad => exact bounded_error (by simp)
  | case6 i p h hbad =>
    constructor
    · simp
    · intro i' p' hok
      cases hok
      omega

theorem applyDiffAccesses_bounded (memory : List UInt8) (diffLength outLength : ℕ) :
    Bounded diffLength outLength (applyDiffAccesses memory diffLength outLength) := by
  unfold applyDiffAccesses
  split_ifs
  · exact bounded_error (by simp)
  · exact diffAccesses_bounded memory 0 (Nat.zero_le _)

/-- As far as there is room for what they stand for, the literals do not go over the end. -/
def Whole : ℕ → List UInt8 → Prop
  | _, [] => True
  | room, c :: input =>
      if signedChar c < 0 then
        match input with
        | [] => True
        | _ :: input => (-signedChar c).toNat ≤ room → Whole (room - (-signedChar c).toNat) input
      else
        (signedChar c).toNat ≤ room →
          (signedChar c).toNat ≤ input.length ∧
            Whole (room - (signedChar c).toNat) (input.drop (signedChar c).toNat)
termination_by _ input => input.length

theorem whole_nil (room : ℕ) : Whole room [] := by
  rw [Whole]
  trivial

theorem whole_run_nil {c : UInt8} {room : ℕ} (h : signedChar c < 0) : Whole room [c] := by
  rw [Whole, if_pos h]
  trivial

theorem whole_run {b c : UInt8} {room : ℕ} {input : List UInt8} (h : signedChar c < 0) :
    Whole room (c :: b :: input) ↔
      ((-signedChar c).toNat ≤ room → Whole (room - (-signedChar c).toNat) input) := by
  rw [Whole, if_pos h]

theorem whole_literal {c : UInt8} {room : ℕ} {input : List UInt8} (h : ¬ signedChar c < 0) :
    Whole room (c :: input) ↔
      ((signedChar c).toNat ≤ room → (signedChar c).toNat ≤ input.length ∧
        Whole (room - (signedChar c).toNat) (input.drop (signedChar c).toNat)) := by
  cases input with
  | nil => rw [Whole, if_neg h]
  | cons b input => rw [Whole, if_neg h]

theorem unpackAccesses_bounded_iff (input beyond : List UInt8) (outLength i o : ℕ) (hi : i ≤ input.length)
    (ho : o ≤ outLength) :
    Bounded input.length outLength (unpackAccesses (input ++ beyond) input.length outLength i o) ↔
      Whole (outLength - o) (input.drop i) := by
  have hfront (i : ℕ) (hi : i < input.length) : ∃ rest, input.drop i = (input ++ beyond).getD i 0 :: rest := by
    refine ⟨input.drop (i + 1), ?_⟩
    rw [List.drop_eq_getElem_cons hi, List.getD_eq_getElem?_getD, List.getElem?_append_left hi,
      List.getElem?_eq_getElem hi]
    rfl
  fun_induction unpackAccesses (input ++ beyond) input.length outLength i o with
  | case1 i o hlt len hlen hbad =>
    obtain ⟨rest, hdrop⟩ := hfront i hlt
    have hlength := congrArg List.length hdrop
    simp only [List.length_drop, List.length_cons] at hlength
    rw [hdrop]
    apply iff_of_true
    · apply bounded_error
      simp [Access.Inside]
      omega
    · cases rest with
      | nil => exact whole_run_nil hlen
      | cons b rest =>
        rw [whole_run hlen]
        intro hroom
        simp only [List.length_cons] at hlength
        omega
  | case2 i o hlt len hlen hbad ih =>
    obtain ⟨rest, hdrop⟩ := hfront i hlt
    obtain ⟨b, rest, rfl⟩ : ∃ b rest', rest = b :: rest' := by
      have hlength := congrArg List.length hdrop
      simp only [List.length_drop, List.length_cons] at hlength
      exact List.exists_cons_of_length_pos (by omega)
    have hnext : input.drop (i + 2) = rest := by
      rw [← List.drop_drop, hdrop]
      rfl
    have hrest := ih (by omega) (by omega)
    rw [bounded_after (by simp [Access.Inside]; omega), hdrop, whole_run hlen]
    apply hrest.trans
    rw [hnext, Nat.sub_add_eq]
    exact (imp_iff_right (by omega)).symm
  | case3 i o hlt len hlen hbad =>
    obtain ⟨rest, hdrop⟩ := hfront i hlt
    rw [hdrop]
    apply iff_of_true
    · apply bounded_error
      simp [Access.Inside]
      omega
    · rw [whole_literal hlen]
      intro hroom
      omega
  | case4 i o hlt len hlen hbad ih =>
    obtain ⟨rest, hdrop⟩ := hfront i hlt
    have hlength := congrArg List.length hdrop
    simp only [List.length_drop, List.length_cons] at hlength
    have hnext : input.drop (i + 1 + len.toNat) = rest.drop len.toNat := by
      rw [← List.drop_drop, ← List.drop_drop, hdrop]
      rfl
    rw [hdrop, whole_literal hlen, imp_iff_right (by omega)]
    by_cases hinside : len.toNat ≤ rest.length
    · have hrest := ih (by omega) (by omega)
      rw [bounded_after (by simp [Access.Inside]; omega)]
      apply hrest.trans
      rw [hnext, Nat.sub_add_eq]
      exact (and_iff_right hinside).symm
    · apply iff_of_false
      · intro hbounded
        have hread := hbounded.1 (.read (i + 1) len.toNat) (by simp [Accesses.after])
        simp only [Access.Inside] at hread
        omega
      · exact fun h => hinside h.1
  | case5 i o hlt hfull => omega
  | case6 i o hlt hfull =>
    rw [List.drop_eq_nil_of_le (by omega)]
    apply iff_of_true
    · constructor
      · simp
      · intro i' o' hok
        cases hok
        omega
    · exact whole_nil _

/-- `unpack` and `applyDiff` keep to their bounds exactly if the literals of the compressed string do. -/
theorem unpack_applyDiff_bounded_iff (input beyond : List UInt8) (outLength : ℕ) :
    Bounded input.length outLength (unpackAccesses (input ++ beyond) input.length outLength 0 0) ∧
        Bounded input.length outLength (applyDiffAccesses (input ++ beyond) input.length outLength) ↔
      Whole outLength input := by
  rw [and_iff_left (applyDiffAccesses_bounded _ _ _),
    unpackAccesses_bounded_iff input beyond outLength 0 0 (Nat.zero_le _) (Nat.zero_le _)]
  rfl

/-- Five literals are announced, and one is there: no BUGCHECK is raised. -/
theorem unpack_overruns : Access.read 1 5 ∈ (unpackAccesses [5, 1, 0, 0, 0, 0] 2 5 0 0).1 ∧
    (unpackAccesses [5, 1, 0, 0, 0, 0] 2 5 0 0).2 = .ok (6, 5) := by
  rw [unpackAccesses]
  simp [signedChar, Accesses.after, unpackAccesses]

end FirebirdCore.Sqz
