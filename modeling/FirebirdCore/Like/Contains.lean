import FirebirdCore.Lib.Kmp

/-!
# The evaluator of CONTAINING

The pattern is searched for with the table of `preKmp`; between two chunks only the offset in the
pattern and the result are kept.
-/
namespace FirebirdCore.Like
open FirebirdCore.Kmp

structure ContainsEvaluator (γ : Type) where
  patternStr : List γ
  kmpNext : List ℤ
  offset : ℤ
  result : Bool
  deriving DecidableEq, Repr

namespace ContainsEvaluator

variable {γ : Type} [DecidableEq γ]

def reset (E : ContainsEvaluator γ) : ContainsEvaluator γ :=
  { E with
    offset := 0
    result := E.patternStr.length == 0 }

/-- The constructor. -/
def ofPattern (patternStr : List γ) : ContainsEvaluator γ :=
  reset ⟨patternStr, preKmp patternStr, 0, false⟩

def getResult (E : ContainsEvaluator γ) : Bool := E.result

/-- The loop over the characters of a chunk: the offset reached, and whether the pattern has been
found. -/
def search (patternStr : List γ) (kmpNext : List ℤ) : List γ → ℤ → ℤ × Bool
  | [], offset => (offset, false)
  | c :: data, offset =>
      let offset := fall patternStr kmpNext (some c) (patternStr.length + 1) offset + 1
      if offset ≥ patternStr.length then (offset, true) else search patternStr kmpNext data offset

/-- Also whether more data can change the result. -/
def processNextChunk (E : ContainsEvaluator γ) (data : List γ) : ContainsEvaluator γ × Bool :=
  if E.result then (E, false)
  else
    let r := search E.patternStr E.kmpNext data E.offset
    ({ E with offset := r.1, result := r.2 }, !r.2)

def processChunks (E : ContainsEvaluator γ) (chunks : List (List γ)) : ContainsEvaluator γ :=
  chunks.foldl (fun E data => (E.processNextChunk data).1) E

end ContainsEvaluator

variable {γ : Type} {x : List γ}

theorem occurs_true_iff (text : List γ) : Occurs x (fun _ => True) text ↔ x <:+: text := by
  constructor
  · rintro ⟨u, v, rfl, -⟩
    exact ⟨u, v, List.append_assoc _ _ _⟩
  · rintro ⟨u, v, rfl⟩
    exact ⟨u, v, List.append_assoc _ _ _, trivial⟩

variable [DecidableEq γ]

/-- Where the loop has found the pattern it is in the text, whatever follows; where it has not, only
the characters up to the offset matter for what follows. -/
theorem search_spec {j : ℕ} (hj : j < x.length) (data : List γ) :
    let r := ContainsEvaluator.search x (preKmp x) data j
    (r.2 = true ∧ x <:+: x.take j ++ data) ∨
      ∃ k : ℕ, r = ((k : ℤ), false) ∧ k < x.length ∧
        ∀ s, x <:+: x.take j ++ (data ++ s) ↔ x <:+: x.take k ++ s := by
  induction data generalizing j with
  | nil => exact .inr ⟨j, rfl, hj, fun s => Iff.rfl⟩
  | cons c data ih =>
    intro r
    have hr : r = if fall x (preKmp x) (some c) (x.length + 1) j + 1 ≥ x.length
        then (fall x (preKmp x) (some c) (x.length + 1) j + 1, true)
        else ContainsEvaluator.search x (preKmp x) data
          (fall x (preKmp x) (some c) (x.length + 1) j + 1) := rfl
    have hstep := fun s => search_step hj c (fun _ => True) s rfl
    simp only [occurs_true_iff] at hstep
    rcases hstep [] with ⟨hge, hlt, -⟩ | ⟨b, htop, -, -, -⟩
    · -- the text read ends with fewer characters of the pattern
      obtain ⟨k, hk⟩ := Int.eq_ofNat_of_zero_le hge
      rw [hk] at hr hlt
      have hklt : k < x.length := by omega
      rw [if_neg (by omega)] at hr
      have hnext : ∀ s, x <:+: x.take j ++ c :: s ↔ x <:+: x.take k ++ s := by
        intro s
        rcases hstep s with ⟨-, -, hiff⟩ | ⟨b, htop, -, -, -⟩
        · rwa [hk, Int.toNat_natCast] at hiff
        · omega
      rcases ih hklt with ⟨hfound, hin⟩ | ⟨l, hl, hllt, hiff⟩
      · refine .inl ⟨by rw [hr]; exact hfound, ?_⟩
        exact (hnext data).2 hin
      · refine .inr ⟨l, by rw [hr]; exact hl, hllt, ?_⟩
        intro s
        rw [List.cons_append, hnext]
        exact hiff s
    · rw [htop, if_pos le_rfl] at hr
      refine .inl ⟨by rw [hr], ?_⟩
      rcases hstep data with ⟨-, hlt, -⟩ | ⟨b, -, -, -, hiff⟩
      · omega
      · exact hiff.2 (.inl trivial)

/-- The state of an evaluator that has read this text. -/
def Searching (x text : List γ) (E : ContainsEvaluator γ) : Prop :=
  E.patternStr = x ∧ E.kmpNext = preKmp x ∧
    ((E.result = true ∧ x <:+: text) ∨
      ∃ k : ℕ, E.result = false ∧ E.offset = k ∧ k < x.length ∧
        ∀ s, x <:+: text ++ s ↔ x <:+: x.take k ++ s)

theorem searching_ofPattern (x : List γ) : Searching x [] (.ofPattern x) := by
  refine ⟨rfl, rfl, ?_⟩
  cases x with
  | nil => exact .inl ⟨rfl, List.nil_infix⟩
  | cons c x => exact .inr ⟨0, rfl, rfl, by simp, fun s => Iff.rfl⟩

theorem Searching.processNextChunk {text : List γ} {E : ContainsEvaluator γ}
    (h : Searching x text E) (data : List γ) :
    Searching x (text ++ data) (E.processNextChunk data).1 := by
  obtain ⟨hx, hnext, hstate⟩ := h
  rcases hstate with ⟨hresult, hin⟩ | ⟨j, hresult, hoffset, hj, hiff⟩
  · rw [ContainsEvaluator.processNextChunk, if_pos hresult]
    exact ⟨hx, hnext, .inl ⟨hresult, hin.trans (List.infix_append' [] text data)⟩⟩
  · rw [ContainsEvaluator.processNextChunk, if_neg (by simp [hresult]), hx, hnext, hoffset]
    refine ⟨rfl, rfl, ?_⟩
    rcases search_spec hj data with ⟨hfound, hin⟩ | ⟨k, hk, hklt, hrest⟩
    · exact .inl ⟨hfound, (hiff data).2 hin⟩
    · refine .inr ⟨k, congrArg Prod.snd hk, congrArg Prod.fst hk, hklt, ?_⟩
      intro s
      rw [List.append_assoc, hiff]
      exact hrest s

theorem Searching.processChunks {text : List γ} {E : ContainsEvaluator γ} (h : Searching x text E)
    (chunks : List (List γ)) : Searching x (text ++ chunks.flatten) (E.processChunks chunks) := by
  induction chunks generalizing text E with
  | nil =>
    rw [List.flatten_nil, List.append_nil]
    exact h
  | cons data chunks ih =>
    rw [List.flatten_cons, ← List.append_assoc]
    exact ih (h.processNextChunk data)

theorem Searching.getResult_iff {text : List γ} {E : ContainsEvaluator γ} (h : Searching x text E) :
    E.getResult = true ↔ x <:+: text := by
  obtain ⟨-, -, ⟨hresult, hin⟩ | ⟨k, hresult, -, hk, hiff⟩⟩ := h
  · exact iff_of_true hresult hin
  · apply iff_of_false
    · simp [ContainsEvaluator.getResult, hresult]
    · intro hin
      have hshort := (hiff []).1 (by simpa using hin)
      have hle := hshort.length_le
      rw [List.append_nil, List.length_take] at hle
      omega

/-- The result is whether the pattern occurs in the chunks; each entry of the table is the greatest
border with another character behind it, and the last one the greatest border of the pattern. -/
theorem contains_iff_infix (pattern : List γ) (chunks : List (List γ)) :
    (((ContainsEvaluator.ofPattern pattern).processChunks chunks).getResult = true ↔
        pattern <:+: chunks.flatten) ∧
      (∀ i < pattern.length, Best (fun k => Border pattern i k ∧ pattern[k]? ≠ pattern[i]?)
        ((preKmp pattern).getD i (-1))) ∧
      Best (Border pattern pattern.length) ((preKmp pattern).getD pattern.length (-1)) := by
  refine ⟨?_, ?_⟩
  · simpa using ((searching_ofPattern pattern).processChunks chunks).getResult_iff
  · cases pattern with
    | nil =>
      have hfirst : (preKmp ([] : List γ)).getD ([] : List γ).length (-1) = -1 := rfl
      rw [hfirst]
      refine ⟨fun i hi => absurd hi (Nat.not_lt_zero i), le_rfl, fun h => absurd h (by decide), ?_⟩
      rintro k ⟨hk, -⟩
      exact absurd hk (Nat.not_lt_zero k)
    | cons c pattern => exact preKmp_spec (List.cons_ne_nil c pattern)

/-- An occurrence over the border of two chunks. -/
example : ((ContainsEvaluator.ofPattern [1, 1, 2]).processChunks [[1, 1], [], [1, 2, 3]]).getResult =
    true := by decide

end FirebirdCore.Like
