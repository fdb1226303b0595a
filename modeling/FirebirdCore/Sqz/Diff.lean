import FirebirdCore.Lib.Buffer
import FirebirdCore.Lib.KeyOrder
import FirebirdCore.Sqz.Compressor

/-!
# Differences between records

`makeDiff` writes a difference string: a positive byte is followed by so many bytes of the second
record, a negative one skips bytes in which the records agree. `applyDiff` turns the first record
into the second. `Patch` says what a difference string does to a buffer.
-/
namespace FirebirdCore.Sqz
open FirebirdCore.KeyOrder FirebirdCore.Buffer

/-- `MAX_DIFFERENCES`. -/
def maxDifferences : ℕ := 1024

/-! ## Making the differences -/

/-- The area for the differences: the offset where the next byte goes, and what was written. -/
structure Output where
  pos : ℕ
  bytes : List UInt8
  deriving DecidableEq, Repr

namespace Output

/-- `*p = val` without a check. -/
def write (o : Output) (p : ℕ) (val : UInt8) : Output := { o with bytes := blit o.bytes p [val] }

/-- `STUFF`: the byte is written if there is room. An error keeps what was written. -/
def stuff (outLength : ℕ) (o : Output) (val : UInt8) : Except Output Output :=
  if o.pos < outLength then .ok ⟨o.pos + 1, blit o.bytes o.pos [val]⟩ else .error o

/-- Stuff a string byte by byte. -/
def stuffAll (outLength : ℕ) : Output → List UInt8 → Except Output Output
  | o, [] => .ok o
  | o, b :: bs => (o.stuff outLength b).bind (stuffAll outLength · bs)

end Output

/-- How many of the next `limit` bytes belong to the stretch in which the records differ: it ends
before two bytes that agree. -/
def differentLength : ℕ → List UInt8 → List UInt8 → ℕ
  | limit + 1, a :: rec1, b :: rec2 =>
      if a ≠ b ∨ limit ≠ 0 ∧ rec1.headD 0 ≠ rec2.headD 0 then differentLength limit rec1 rec2 + 1
      else 0
  | _, _, _ => 0

/-- A count byte and `bs` behind it. The count is written last, where it was left out. -/
def stuffLiteral (outLength : ℕ) (o : Output) (bs : List UInt8) : Except Output Output :=
  (Output.stuffAll outLength { o with pos := o.pos + 1 } bs).map fun o' =>
    o'.write o.pos (UInt8.ofNat (o'.pos - o.pos - 1))

/-- Skip `l` bytes that agree, at most 127 at a time. -/
def stuffEqual (outLength l : ℕ) (o : Output) : Except Output Output :=
  if l > 127 then
    (o.stuff outLength (UInt8.ofNat (256 - 127))).bind (stuffEqual outLength (l - 127))
  else if l ≠ 0 then o.stuff outLength (UInt8.ofNat (256 - l))
  else .ok o
termination_by l

/-- The next two bytes are not both the same. -/
def nextDiffers (rec1 rec2 : List UInt8) : Prop :=
  rec1.headD 0 ≠ rec2.headD 0 ∨ rec1.getD 1 0 ≠ rec2.getD 1 0

instance (rec1 rec2 : List UInt8) : Decidable (nextDiffers rec1 rec2) :=
  inferInstanceAs (Decidable (_ ∨ _))

theorem differentLength_le (limit : ℕ) (rec1 rec2 : List UInt8) :
    differentLength limit rec1 rec2 ≤ limit := by
  fun_induction differentLength limit rec1 rec2 with
  | case1 limit a rec1 b rec2 h ih => omega
  | case2 limit a rec1 b rec2 h => exact Nat.zero_le _
  | case3 => exact Nat.zero_le _

/-- Where the next bytes differ, a byte at least is taken. -/
theorem differentLength_pos {rec1 rec2 : List UInt8} (h₁ : rec1.length > 2)
    (h₂ : rec1.length ≤ rec2.length) (h : nextDiffers rec1 rec2) :
    0 < differentLength (min rec1.length 127) rec1 rec2 := by
  obtain ⟨a, a', rec1, rfl⟩ : ∃ a a' rest, rec1 = a :: a' :: rest := by
    match rec1, h₁ with
    | a :: a' :: rest, _ => exact ⟨a, a', rest, rfl⟩
  obtain ⟨b, b', rec2, rfl⟩ : ∃ b b' rest, rec2 = b :: b' :: rest := by
    match rec2, h₂ with
    | b :: b' :: rest, _ => exact ⟨b, b', rest, rfl⟩
  obtain ⟨limit, hlimit⟩ : ∃ limit, min (a :: a' :: rec1).length 127 = limit + 2 :=
    ⟨min (a :: a' :: rec1).length 127 - 2, by omega⟩
  rw [hlimit, differentLength, if_pos]
  · exact Nat.succ_pos _
  · rcases h with h | h
    · exact .inl h
    · exact .inr ⟨by omega, h⟩

/-- Where they do not, the records agree in a byte at least. -/
theorem lcp_pos {rec1 rec2 : List UInt8} (h₁ : rec1.length > 2) (h₂ : rec1.length ≤ rec2.length)
    (h : ¬ nextDiffers rec1 rec2) : 0 < lcp rec1 rec2 := by
  match rec1, rec2, h₁, h₂ with
  | a :: rec1, b :: rec2, _, _ =>
    have hab : a = b := not_not.1 fun hne => h (.inl hne)
    rw [hab]
    simp [lcp]

/-- The loop over both records; `rec1` ends with the shorter of them. -/
def makeDiffLoop (outLength : ℕ) (rec1 rec2 : List UInt8) (hle : rec1.length ≤ rec2.length)
    (o : Output) : Except Output (List UInt8 × Output) :=
  if h : rec1.length > 2 then
    if hd : nextDiffers rec1 rec2 then
      let n := differentLength (min rec1.length 127) rec1 rec2
      have hpos : 0 < n := differentLength_pos h hle hd
      (stuffLiteral outLength o (rec2.take n)).bind
        (makeDiffLoop outLength (rec1.drop n) (rec2.drop n)
          (by rw [List.length_drop, List.length_drop]; omega))
    else
      let l := lcp rec1 rec2
      have hpos : 0 < l := lcp_pos h hle hd
      (stuffEqual outLength l o).bind
        (makeDiffLoop outLength (rec1.drop l) (rec2.drop l)
          (by rw [List.length_drop, List.length_drop]; omega))
  else .ok (rec2, o)
termination_by rec1.length

/-- What is left of the second record follows as it is. -/
def makeDiffTail (outLength : ℕ) (rec2 : List UInt8) (o : Output) : Except Output Output :=
  if rec2 = [] then .ok o
  else
    (stuffLiteral outLength o (rec2.take 127)).bind (makeDiffTail outLength (rec2.drop 127))
termination_by rec2.length
decreasing_by
  have := List.length_pos_iff.2 ‹¬ rec2 = []›
  rw [List.length_drop]
  omega

/-- Compute the differences between two records. `none` is `MAX_ULONG`; the second component is
what was written. -/
def makeDiff (rec1 rec2 : List UInt8) (outLength : ℕ) : Option ℕ × List UInt8 :=
  match (makeDiffLoop outLength (rec1.take (min rec1.length rec2.length)) rec2
      (by rw [List.length_take]; omega) ⟨0, []⟩).bind fun r => makeDiffTail outLength r.1 r.2 with
  | .ok o => (some o.pos, o.bytes)
  | .error o => (none, o.bytes)

/-! ## Applying the differences -/

/-- Apply the `diffLength` bytes at `differences` to `output` from `p` on. -/
def applyDiffLoop (outLength diffLength : ℕ) (differences : List UInt8) (p : ℕ)
    (output : List UInt8) : Except BugCheck (ℕ × List UInt8) :=
  if diffLength ≠ 0 ∧ p < outLength then
    let l := signedChar (differences.headD 0)
    if l > 0 then
      if p + l.toNat > outLength then .error .appliedDifferencesWillNotFit
      else if 1 + l.toNat > diffLength then .error .badDifferenceRecord
      else
        applyDiffLoop outLength (diffLength - 1 - l.toNat) (differences.drop (1 + l.toNat))
          (p + l.toNat) (blit output p ((differences.drop 1).takeD l.toNat 0))
    else
      applyDiffLoop outLength (diffLength - 1) (differences.drop 1) (p + (-l).toNat) output
  else if p > outLength ∨ diffLength ≠ 0 then .error .appliedDifferencesWillNotFit
  else .ok (p, output)
termination_by diffLength

/-- Apply a differences string to a record in a buffer of `outLength` bytes: its length and the
buffer. -/
def applyDiff (diffLength : ℕ) (differences : List UInt8) (outLength : ℕ) (output : List UInt8) :
    Except BugCheck (ℕ × List UInt8) :=
  if diffLength > maxDifferences then .error .badDifferenceRecord
  else applyDiffLoop outLength diffLength differences 0 output

/-! ## What a difference string does -/

/-- `diff` turns the bytes `old` into `new`. -/
inductive Patch : List UInt8 → List UInt8 → List UInt8 → Prop
  | nil : Patch [] [] []
  | copy {bs skipped diff old new : List UInt8} (hpos : 0 < bs.length) (hmax : bs.length ≤ 127)
      (hlen : skipped.length = bs.length) (h : Patch diff old new) :
      Patch (UInt8.ofNat bs.length :: (bs ++ diff)) (skipped ++ old) (bs ++ new)
  | skip {same diff old new : List UInt8} (hpos : 0 < same.length) (hmax : same.length ≤ 127)
      (h : Patch diff old new) :
      Patch (UInt8.ofNat (256 - same.length) :: diff) (same ++ old) (same ++ new)

/-- Bytes of the new string replace as many of the old one. -/
theorem Patch.copy_of_take {n : ℕ} {diff old new : List UInt8} (hpos : 0 < n) (hmax : n ≤ 127)
    (hold : n ≤ old.length) (hnew : n ≤ new.length) (h : Patch diff (old.drop n) (new.drop n)) :
    Patch (UInt8.ofNat n :: (new.take n ++ diff)) old new := by
  have hlen : (new.take n).length = n := by rw [List.length_take]; omega
  have hlen' : (old.take n).length = n := by rw [List.length_take]; omega
  have hpos' : 0 < (new.take n).length := by omega
  have := Patch.copy hpos' (by omega) (hlen'.trans hlen.symm) h
  rwa [hlen, List.take_append_drop, List.take_append_drop] at this

/-- Bytes that agree are skipped. -/
theorem Patch.skip_of_take {n : ℕ} {diff old new : List UInt8} (hpos : 0 < n) (hmax : n ≤ 127)
    (hnew : n ≤ new.length) (hsame : old.take n = new.take n)
    (h : Patch diff (old.drop n) (new.drop n)) : Patch (UInt8.ofNat (256 - n) :: diff) old new := by
  have hlen : (new.take n).length = n := by rw [List.length_take]; omega
  have hpos' : 0 < (new.take n).length := by omega
  have := Patch.skip hpos' (by omega) h
  rw [hlen, List.take_append_drop] at this
  rwa [← hsame, List.take_append_drop] at this

theorem Patch.length_eq {diff old new : List UInt8} (h : Patch diff old new) :
    old.length = new.length := by
  induction h with
  | nil => rfl
  | copy hpos hmax hlen h ih => rw [List.length_append, List.length_append, hlen, ih]
  | skip hpos hmax h ih => rw [List.length_append, List.length_append, ih]

/-- Applying the string leaves the new bytes behind those that were there before. -/
theorem Patch.applyDiffLoop {diff old new : List UInt8} (h : Patch diff old new)
    (front rest : List UInt8) :
    Sqz.applyDiffLoop (front.length + new.length) diff.length (diff ++ rest) front.length
      (front ++ old) = .ok (front.length + new.length, front ++ new) := by
  induction h generalizing front with
  | nil =>
    rw [Sqz.applyDiffLoop, if_neg (by simp), if_neg (by simp)]
    simp
  | @copy bs skipped diff old new hpos hmax hlen h ih =>
    have hchar := signedChar_ofNat (n := bs.length) (by omega)
    have htake : (bs ++ (diff ++ rest)).takeD bs.length 0 = bs := by
      rw [List.takeD_eq_take _ (by simp), List.take_left]
    have hnext := ih (front ++ bs)
    simp only [List.length_append, List.append_assoc] at hnext
    rw [Sqz.applyDiffLoop, if_pos ⟨by simp, by simp only [List.length_append]; omega⟩]
    dsimp only
    simp only [List.cons_append, List.append_assoc, List.headD_cons, List.length_cons,
      List.length_append, List.drop_one, List.tail_cons, hchar, Int.toNat_natCast, htake]
    rw [if_pos (by omega), if_neg (by omega), if_neg (by omega), blit_replace hlen,
      Nat.add_comm 1 bs.length, List.drop_succ_cons, List.drop_left, ← Nat.add_assoc,
      show bs.length + diff.length + 1 - 1 - bs.length = diff.length by omega]
    exact hnext
  | @skip same diff old new hpos hmax h ih =>
    have hchar := signedChar_neg (n := same.length) hpos (by omega)
    have hnext := ih (front ++ same)
    simp only [List.length_append, List.append_assoc] at hnext
    rw [Sqz.applyDiffLoop, if_pos ⟨by simp, by simp only [List.length_append]; omega⟩]
    dsimp only
    simp only [List.cons_append, List.headD_cons, List.length_cons,
      List.length_append, List.drop_one, List.tail_cons, hchar, neg_neg, Int.toNat_natCast]
    rw [if_neg (by omega), ← Nat.add_assoc, Nat.add_sub_cancel]
    exact hnext

/-! ## What is written -/

theorem except_bind_bind {ε α β γ : Type} (x : Except ε α) (f : α → Except ε β)
    (g : β → Except ε γ) : (x.bind f).bind g = x.bind fun a => (f a).bind g := by
  cases x <;> rfl

/-- The area holds the bytes up to the offset, and these have room. -/
def Output.Filled (outLength : ℕ) (o : Output) : Prop :=
  o.bytes.length = o.pos ∧ o.pos ≤ outLength

/-- The bytes `ds` are added, or there was no room, and nothing was written behind it. -/
def Writes (outLength : ℕ) (o : Output) (ds : List UInt8) (r : Except Output Output) : Prop :=
  (∀ o', r = .ok o' → o'.Filled outLength ∧ o'.bytes = o.bytes ++ ds) ∧
    ∀ o', r = .error o' → o'.bytes.length ≤ outLength

variable {outLength : ℕ} {o : Output}

theorem Output.stuff_writes (ho : o.Filled outLength) (val : UInt8) :
    Writes outLength o [val] (o.stuff outLength val) := by
  obtain ⟨hlen, hroom⟩ := ho
  rw [Output.stuff, ← hlen, blit_end]
  split_ifs with hlt
  · refine ⟨?_, by simp⟩
    rintro o' ⟨⟩
    exact ⟨⟨by simp, by dsimp only; omega⟩, rfl⟩
  · refine ⟨by simp, ?_⟩
    rintro o' ⟨⟩
    omega

/-- What is written in two steps. -/
theorem Writes.bind {ds ds' : List UInt8} {r : Except Output Output}
    {f : Output → Except Output Output} (h : Writes outLength o ds r)
    (h' : ∀ o', o'.Filled outLength → o'.bytes = o.bytes ++ ds → Writes outLength o' ds' (f o')) :
    Writes outLength o (ds ++ ds') (r.bind f) := by
  cases r with
  | error e => exact ⟨by simp [Except.bind], fun o' he => h.2 o' he⟩
  | ok o₁ =>
    obtain ⟨hfilled, hbytes⟩ := h.1 o₁ rfl
    have hnext := h' o₁ hfilled hbytes
    refine ⟨fun o' he => ?_, fun o' he => hnext.2 o' he⟩
    obtain ⟨hf, hb⟩ := hnext.1 o' he
    exact ⟨hf, by rw [hb, hbytes, List.append_assoc]⟩

theorem Output.stuffAll_writes (ho : o.Filled outLength) (bs : List UInt8) :
    Writes outLength o bs (Output.stuffAll outLength o bs) := by
  induction bs generalizing o with
  | nil =>
    refine ⟨?_, by simp [Output.stuffAll]⟩
    rintro o' ⟨⟩
    exact ⟨ho, by simp⟩
  | cons b bs ih =>
    exact (Output.stuff_writes ho b).bind fun o' ho' _ => ih ho'

/-- A count and the bytes behind it. There is room for the count when there is for a byte. -/
theorem stuffLiteral_writes (ho : o.Filled outLength) {bs : List UInt8} (hne : bs ≠ []) :
    Writes outLength o (UInt8.ofNat bs.length :: bs) (stuffLiteral outLength o bs) := by
  obtain ⟨hlen, hroom⟩ := ho
  obtain ⟨b, bs, rfl⟩ := List.exists_cons_of_ne_nil hne
  have hhole : blit o.bytes (o.pos + 1) [b] = o.bytes ++ [0, b] := by rw [← hlen, blit_hole]
  rw [stuffLiteral, Output.stuffAll, Output.stuff]
  dsimp only
  split_ifs with hlt
  · have hfilled : Output.Filled outLength ⟨o.pos + 2, o.bytes ++ [0, b]⟩ :=
      ⟨by simp [hlen], by dsimp only; omega⟩
    have hall := Output.stuffAll_writes hfilled bs
    rw [Except.bind, hhole]
    cases hr : Output.stuffAll outLength ⟨o.pos + 2, o.bytes ++ [0, b]⟩ bs with
    | error e =>
      refine ⟨by simp [Except.map], fun o' he => ?_⟩
      simp only [Except.map, Except.error.injEq] at he
      exact hall.2 o' (hr.trans (congrArg _ he))
    | ok o₁ =>
      obtain ⟨⟨hlen₁, hroom₁⟩, hbytes⟩ := hall.1 o₁ hr
      have hpos : o₁.pos = o.pos + 1 + (b :: bs).length := by
        rw [← hlen₁, hbytes]
        simp [hlen]
        omega
      have hwrite : o₁.write o.pos (UInt8.ofNat (o₁.pos - o.pos - 1)) =
          ⟨o₁.pos, o.bytes ++ UInt8.ofNat (b :: bs).length :: b :: bs⟩ := by
        have hone : ([0] : List UInt8).length = [UInt8.ofNat (b :: bs).length].length := rfl
        have hreplace : blit (o.bytes ++ ([0] ++ (b :: bs))) o.bytes.length
            [UInt8.ofNat (b :: bs).length] =
              o.bytes ++ ([UInt8.ofNat (b :: bs).length] ++ (b :: bs)) := blit_replace hone (b :: bs)
        rw [Output.write, hbytes, hpos, ← hlen, List.append_assoc,
          show o.bytes.length + 1 + (b :: bs).length - o.bytes.length - 1 = (b :: bs).length by omega]
        exact congrArg _ hreplace
      refine ⟨fun o' he => ?_, by simp [Except.map]⟩
      simp only [Except.map, Except.ok.injEq] at he
      rw [← he, hwrite]
      refine ⟨⟨?_, hroom₁⟩, rfl⟩
      dsimp only
      rw [hpos, List.length_append, List.length_cons, hlen]
      omega
  · refine ⟨by simp [Except.bind, Except.map], fun o' he => ?_⟩
    simp only [Except.bind, Except.map, Except.error.injEq] at he
    rw [← he]
    dsimp only
    omega

/-- The bytes for `l` bytes that are skipped. -/
def skips (l : ℕ) : List UInt8 :=
  if l > 127 then UInt8.ofNat (256 - 127) :: skips (l - 127)
  else if l ≠ 0 then [UInt8.ofNat (256 - l)]
  else []
termination_by l

theorem stuffEqual_writes (ho : o.Filled outLength) (l : ℕ) :
    Writes outLength o (skips l) (stuffEqual outLength l o) := by
  induction l using Nat.strong_induction_on generalizing o with
  | _ l ih =>
    rw [stuffEqual, skips]
    split_ifs with hbig hzero
    · exact (Output.stuff_writes ho _).bind fun o' ho' _ => ih (l - 127) (by omega) ho'
    · exact Output.stuff_writes ho _
    · exact Output.stuffAll_writes ho []

theorem Patch.skips {l : ℕ} {diff old new : List UInt8} (hnew : l ≤ new.length)
    (hsame : old.take l = new.take l) (h : Patch diff (old.drop l) (new.drop l)) :
    Patch (Sqz.skips l ++ diff) old new := by
  induction l using Nat.strong_induction_on generalizing old new with
  | _ l ih =>
    rw [Sqz.skips]
    split_ifs with hbig hzero
    · have hfront : old.take 127 = new.take 127 := by
        have := congrArg (List.take 127) hsame
        rwa [List.take_take, List.take_take, Nat.min_eq_left (by omega)] at this
      have hrest : (old.drop 127).take (l - 127) = (new.drop 127).take (l - 127) := by
        rw [← List.drop_take, ← List.drop_take, hsame]
      refine Patch.skip_of_take (by omega) le_rfl (by omega) hfront ?_
      refine ih (l - 127) (by omega) (by rw [List.length_drop]; omega) hrest ?_
      rw [List.drop_drop, List.drop_drop, Nat.add_sub_cancel' (by omega)]
      exact h
    · exact Patch.skip_of_take (by omega) (by omega) hnew hsame h
    · rw [not_not] at hzero
      simpa [hzero] using h

/-- The rest of the second record replaces what is left of the first. -/
theorem makeDiffTail_writes (outLength : ℕ) (rec2 : List UInt8) :
    ∃ ds, (∀ o, o.Filled outLength → Writes outLength o ds (makeDiffTail outLength rec2 o)) ∧
      ∀ old, old.length = rec2.length → Patch ds old rec2 := by
  obtain ⟨len, hlen⟩ : ∃ len, len = rec2.length := ⟨_, rfl⟩
  induction len using Nat.strong_induction_on generalizing rec2 with
  | _ len ih =>
    by_cases hempty : rec2 = []
    · subst hempty
      refine ⟨[], fun o ho => ?_, fun old hold => ?_⟩
      · rw [makeDiffTail, if_pos rfl]
        exact Output.stuffAll_writes ho []
      · rw [List.length_eq_zero_iff.1 hold]
        exact .nil
    · have hpos := List.length_pos_iff.2 hempty
      obtain ⟨ds, hds, hpatch⟩ := ih (rec2.drop 127).length (by rw [List.length_drop]; omega) _ rfl
      have htake : (rec2.take 127).length = min 127 rec2.length := List.length_take
      have hdrop : rec2.drop 127 = rec2.drop (min 127 rec2.length) := by
        rcases Nat.le_total 127 rec2.length with hle | hle
        · rw [Nat.min_eq_left hle]
        · rw [Nat.min_eq_right hle, List.drop_eq_nil_of_le hle, List.drop_length]
      have hfront : rec2.take 127 = rec2.take (min 127 rec2.length) := by
        rw [← List.take_take, List.take_length]
      refine ⟨UInt8.ofNat (rec2.take 127).length :: rec2.take 127 ++ ds, fun o ho => ?_,
        fun old hold => ?_⟩
      · rw [makeDiffTail, if_neg hempty]
        have hne : rec2.take 127 ≠ [] := by simpa using hempty
        exact (stuffLiteral_writes ho hne).bind fun o' ho' _ => hds o' ho'
      · rw [htake, hfront]
        refine Patch.copy_of_take (by omega) (by omega) (by omega) (by omega) ?_
        rw [← hdrop]
        exact hpatch _ (by rw [List.length_drop, List.length_drop, hold]; omega)

/-- The difference string turns every buffer of the length of the second record that starts with
the first one into the second record. -/
theorem makeDiffLoop_writes (outLength : ℕ) (rec1 rec2 : List UInt8) (hle : rec1.length ≤ rec2.length) :
    ∃ ds, (∀ o, o.Filled outLength → Writes outLength o ds
        ((makeDiffLoop outLength rec1 rec2 hle o).bind fun r => makeDiffTail outLength r.1 r.2)) ∧
      ∀ old, old.length = rec2.length → rec1 <+: old → Patch ds old rec2 := by
  obtain ⟨len, hlen⟩ : ∃ len, len = rec1.length := ⟨_, rfl⟩
  induction len using Nat.strong_induction_on generalizing rec1 rec2 with
  | _ len ih =>
    by_cases h : rec1.length > 2
    · by_cases hd : nextDiffers rec1 rec2
      · -- a stretch in which the records differ
        obtain ⟨n, hn⟩ : ∃ n, n = differentLength (min rec1.length 127) rec1 rec2 := ⟨_, rfl⟩
        have hpos : 0 < n := hn ▸ differentLength_pos h hle hd
        have hmax : n ≤ min rec1.length 127 := hn ▸ differentLength_le _ _ _
        obtain ⟨ds, hds, hpatch⟩ := ih (rec1.drop n).length (by rw [List.length_drop]; omega)
          (rec1.drop n) (rec2.drop n) (by rw [List.length_drop, List.length_drop]; omega) rfl
        have htake : (rec2.take n).length = n := by rw [List.length_take]; omega
        refine ⟨UInt8.ofNat (rec2.take n).length :: rec2.take n ++ ds, fun o ho => ?_,
          fun old hold hfront => ?_⟩
        · have hne : rec2.take n ≠ [] := List.length_pos_iff.1 (by omega)
          rw [makeDiffLoop, dif_pos h, dif_pos hd]
          subst hn
          rw [except_bind_bind]
          exact (stuffLiteral_writes ho hne).bind fun o' ho' _ => hds o' ho'
        · rw [htake]
          refine Patch.copy_of_take hpos (by omega) (by omega) (by omega) ?_
          exact hpatch _ (by rw [List.length_drop, List.length_drop, hold]) (hfront.drop n)
      · -- a stretch in which they agree
        obtain ⟨l, hl⟩ : ∃ l, l = lcp rec1 rec2 := ⟨_, rfl⟩
        have hpos : 0 < l := hl ▸ lcp_pos h hle hd
        have hl₁ : l ≤ rec1.length := hl ▸ lcp_le_left _ _
        have hl₂ : l ≤ rec2.length := hl ▸ lcp_le_right _ _
        obtain ⟨ds, hds, hpatch⟩ := ih (rec1.drop l).length (by rw [List.length_drop]; omega)
          (rec1.drop l) (rec2.drop l) (by rw [List.length_drop, List.length_drop]; omega) rfl
        refine ⟨skips l ++ ds, fun o ho => ?_, fun old hold hfront => ?_⟩
        · rw [makeDiffLoop, dif_pos h, dif_neg hd]
          subst hl
          rw [except_bind_bind]
          exact (stuffEqual_writes ho _).bind fun o' ho' _ => hds o' ho'
        · have hsame : old.take l = rec2.take l := by
            obtain ⟨t, rfl⟩ := hfront
            rw [List.take_append_of_le_length hl₁, take_eq_of_le_lcp hl.le]
          refine Patch.skips hl₂ hsame (hpatch _ ?_ (hfront.drop l))
          rw [List.length_drop, List.length_drop, hold]
    · obtain ⟨ds, hds, hpatch⟩ := makeDiffTail_writes outLength rec2
      refine ⟨ds, fun o ho => ?_, fun old hold _ => hpatch old hold⟩
      rw [makeDiffLoop, dif_neg h]
      exact hds o ho

/-! ## The round trip -/

end FirebirdCore.Sqz
