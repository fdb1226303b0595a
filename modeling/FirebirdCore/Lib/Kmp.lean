import Mathlib.Data.List.Basic
import Mathlib.Data.List.TakeDrop
import Mathlib.Tactic

/-!
# The search of Knuth, Morris and Pratt

`preKmp` computes for each position of a pattern where to go on when the character there does not match,
and for its end where to go on behind an occurrence. `fall` follows the table.
-/
namespace FirebirdCore.Kmp

variable {α : Type*} [DecidableEq α]

/-- The inner loop: back to a position in front of the character `c`, or to -1. -/
def fall (x : List α) (next : List ℤ) (c : Option α) : ℕ → ℤ → ℤ
  | 0, j => j
  | fuel + 1, j =>
      if 0 ≤ j ∧ x[j.toNat]? ≠ c then fall x next c fuel (next.getD j.toNat (-1)) else j

/-- The outer loop with so many turns left, and the entry for the end. -/
def preKmpLoop (x : List α) : ℕ → ℕ → ℤ → List ℤ → List ℤ
  | 0, i, j, next => next ++ [fall x next x[i]? (i + 1) j + 1]
  | turns + 1, i, j, next =>
      let j := fall x next x[i]? (i + 1) j + 1
      let i := i + 1
      let entry := if x[i]? = x[j.toNat]? then next.getD j.toNat (-1) else j
      preKmpLoop x turns i j (next ++ [entry])

def preKmp (x : List α) : List ℤ := preKmpLoop x (x.length - 1) 0 (-1) [-1]

/-! ## Borders -/

section

omit [DecidableEq α]

/-- The first `k` characters are a proper end of the first `i`. -/
def Border (x : List α) (i k : ℕ) : Prop := k < i ∧ x.take k <:+ x.take i

/-- The first `k` characters are an end of the first `j`, of which there are none if `j` is -1. -/
def Ends (x : List α) (j : ℤ) (k : ℕ) : Prop := (k : ℤ) ≤ j ∧ x.take k <:+ x.take j.toNat

/-- The greatest number with the property, or -1. -/
structure Best (P : ℕ → Prop) (r : ℤ) : Prop where
  ge : -1 ≤ r
  holds : 0 ≤ r → P r.toNat
  le : ∀ k, P k → (k : ℤ) ≤ r

variable {x : List α}

theorem Best.congr {P Q : ℕ → Prop} {r : ℤ} (h : Best P r) (hiff : ∀ k, P k ↔ Q k) : Best Q r where
  ge := h.ge
  holds hr := (hiff _).1 (h.holds hr)
  le k hk := h.le k ((hiff k).2 hk)

theorem take_suffix_of_le {t : List α} {k l : ℕ} (hk : x.take k <:+ t) (hl : x.take l <:+ t)
    (hle : k ≤ l) : x.take k <:+ x.take l := by
  apply List.suffix_of_suffix_length_le hk hl
  rw [List.length_take, List.length_take]
  exact min_le_min_right _ hle

theorem take_succ_suffix_iff {t : List α} {k : ℕ} {c : α} (hk : k < x.length) :
    x.take (k + 1) <:+ t ++ [c] ↔ x[k]? = some c ∧ x.take k <:+ t := by
  have hlength : [x[k]].length = [c].length := rfl
  rw [List.take_add_one, List.getElem?_eq_getElem hk, Option.toList_some,
    List.suffix_append_inj_of_length_eq hlength]
  simp [and_comm]

theorem border_succ_iff {i k : ℕ} (hi : i < x.length) :
    Border x (i + 1) (k + 1) ↔ Border x i k ∧ x[k]? = x[i]? := by
  unfold Border
  rw [List.take_add_one (i := i), List.getElem?_eq_getElem hi, Option.toList_some]
  constructor
  · rintro ⟨hlt, hsuffix⟩
    have hk : k < i := Nat.lt_of_succ_lt_succ hlt
    obtain ⟨hc, hsuffix⟩ := (take_succ_suffix_iff (hk.trans hi)).1 hsuffix
    exact ⟨⟨hk, hsuffix⟩, hc⟩
  · rintro ⟨⟨hk, hsuffix⟩, hc⟩
    exact ⟨Nat.succ_lt_succ hk, (take_succ_suffix_iff (hk.trans hi)).2 ⟨hc, hsuffix⟩⟩

theorem border_zero {i : ℕ} : Border x (i + 1) 0 := ⟨Nat.succ_pos i, by simp⟩

theorem ends_of_border {i k : ℕ} (h : Border x i k) : Ends x i k :=
  ⟨Int.ofNat_le.2 h.1.le, by simpa using h.2⟩

theorem border_iff_ends {i : ℕ} {j : ℤ} (h : Best (Border x i) j) (k : ℕ) :
    Border x i k ↔ Ends x j k := by
  constructor
  · intro hk
    have hle := h.le k hk
    have hj := h.holds (by omega)
    exact ⟨hle, take_suffix_of_le hk.2 hj.2 (by omega)⟩
  · rintro ⟨hle, hsuffix⟩
    have hj := h.holds (by omega)
    have hlt := hj.1
    exact ⟨by omega, hsuffix.trans hj.2⟩

end

/-! ## The table -/

/-- The entries in front of `n` are right: each is the greatest border with another character behind
it. -/
def Sound (x : List α) (next : List ℤ) (n : ℕ) : Prop :=
  ∀ i < n, Best (fun k => Border x i k ∧ x[k]? ≠ x[i]?) (next.getD i (-1))

variable {x : List α} {next : List ℤ}

theorem fall_best {n : ℕ} (hsound : Sound x next n) {c : Option α} {fuel : ℕ} {j : ℤ} (hj : -1 ≤ j)
    (hn : j < n) (hfuel : j < fuel) :
    Best (fun k => Ends x j k ∧ x[k]? = c) (fall x next c fuel j) := by
  induction fuel generalizing j with
  | zero =>
    have heq : j = -1 := by omega
    subst heq
    unfold fall
    refine ⟨le_rfl, fun h => absurd h (by decide), ?_⟩
    rintro k ⟨⟨hk, -⟩, -⟩
    exact hk
  | succ fuel ih =>
    unfold fall
    split_ifs with hmiss
    · obtain ⟨hpos, hne⟩ := hmiss
      have hentry := hsound j.toNat (by omega)
      have hlt : next.getD j.toNat (-1) < j := by
        by_cases hneg : 0 ≤ next.getD j.toNat (-1)
        · have hborder := (hentry.holds hneg).1.1
          omega
        · omega
      have hrec := ih hentry.ge (by omega) (by omega)
      refine ⟨hrec.ge, fun hr => ?_, ?_⟩
      · obtain ⟨hends, hc⟩ := hrec.holds hr
        have hle := hends.1
        have hborder := (hentry.holds (by omega)).1
        exact ⟨⟨by omega, hends.2.trans hborder.2⟩, hc⟩
      · rintro k ⟨hends, hc⟩
        have hkj : k ≠ j.toNat := by
          rintro rfl
          exact hne hc
        have hle := hends.1
        have hborder : Border x j.toNat k := ⟨by omega, hends.2⟩
        have hother : x[k]? ≠ x[j.toNat]? := by
          rw [hc]
          exact fun h => hne h.symm
        have hkle := hentry.le k ⟨hborder, hother⟩
        refine hrec.le k ⟨⟨hkle, ?_⟩, hc⟩
        exact take_suffix_of_le hborder.2 (hentry.holds (by omega)).1.2 (by omega)
    · refine ⟨hj, fun hpos => ⟨⟨by omega, List.suffix_rfl⟩, ?_⟩, fun k hk => hk.1.1⟩
      by_contra hne
      exact hmiss ⟨hpos, hne⟩

/-- A turn of the outer loop: the greatest border of one more character. -/
theorem fall_border {i : ℕ} (hi : i < x.length) (hsound : Sound x next (i + 1)) {j : ℤ}
    (hbest : Best (Border x i) j) :
    Best (Border x (i + 1)) (fall x next x[i]? (i + 1) j + 1) := by
  have hlt : j < i + 1 := by
    by_cases hneg : 0 ≤ j
    · have hborder := (hbest.holds hneg).1
      omega
    · omega
  have hends : Best (fun k => Ends x j k ∧ x[k]? = x[i]?) (fall x next x[i]? (i + 1) j) :=
    fall_best hsound hbest.ge (by push_cast; exact hlt) (by push_cast; exact hlt)
  have hfall := hends.congr fun k => by rw [← border_iff_ends hbest k]
  have hge := hfall.ge
  refine ⟨by omega, fun _ => ?_, fun k hk => ?_⟩
  · by_cases hneg : 0 ≤ fall x next x[i]? (i + 1) j
    · have hborder := (border_succ_iff hi).2 (hfall.holds hneg)
      rwa [show (fall x next x[i]? (i + 1) j + 1).toNat =
        (fall x next x[i]? (i + 1) j).toNat + 1 by omega]
    · rw [show fall x next x[i]? (i + 1) j + 1 = 0 by omega]
      exact border_zero
  · cases k with
    | zero => omega
    | succ k =>
      have hle := hfall.le k ((border_succ_iff hi).1 hk)
      push_cast
      omega

theorem getD_append_of_lt {next : List ℤ} {i : ℕ} (h : i < next.length) (v : ℤ) :
    (next ++ [v]).getD i (-1) = next.getD i (-1) := by
  simp [List.getD, List.getElem?_append_left h]

theorem getD_append_length (next : List ℤ) (v : ℤ) : (next ++ [v]).getD next.length (-1) = v := by
  simp [List.getD]

/-- The table is right, and its last entry is the greatest border of the whole pattern. -/
theorem preKmpLoop_spec {turns i : ℕ} {j : ℤ} (hturns : i + turns + 1 = x.length)
    (hlength : next.length = i + 1) (hsound : Sound x next (i + 1)) (hbest : Best (Border x i) j) :
    Sound x (preKmpLoop x turns i j next) x.length ∧
      Best (Border x x.length) ((preKmpLoop x turns i j next).getD x.length (-1)) := by
  induction turns generalizing i j next with
  | zero =>
    have hnext := fall_border (by omega) hsound hbest
    have hlen : x.length = next.length := by omega
    refine ⟨fun k hk => ?_, ?_⟩
    · rw [preKmpLoop, getD_append_of_lt (by omega)]
      exact hsound k (by omega)
    · rw [preKmpLoop, hlen, getD_append_length, hlength]
      exact hnext
  | succ turns ih =>
    have hnext := fall_border (by omega) hsound hbest
    rw [preKmpLoop]
    refine ih (by omega) (by simp [hlength]) (fun k hk => ?_) hnext
    rcases Nat.lt_or_eq_of_le (Nat.le_of_lt_succ hk) with hlt | rfl
    · rw [getD_append_of_lt (by omega)]
      exact hsound k hlt
    · rw [← hlength, getD_append_length, hlength]
      generalize fall x next x[i]? (i + 1) j + 1 = j' at hnext ⊢
      have hj' : 0 ≤ j' := by
        have hzero := hnext.le 0 border_zero
        exact_mod_cast hzero
      have hborder := hnext.holds hj'
      split_ifs with hsame
      · refine (hsound j'.toNat hborder.1).congr fun k => ?_
        constructor
        · rintro ⟨hk, hne⟩
          exact ⟨⟨hk.1.trans hborder.1, hk.2.trans hborder.2⟩, by rwa [hsame]⟩
        · rintro ⟨hk, hne⟩
          have hle := hnext.le k hk
          have hlt : k < j'.toNat := by
            rcases Nat.lt_or_eq_of_le (show k ≤ j'.toNat by omega) with hlt | rfl
            · exact hlt
            · exact absurd hsame.symm hne
          exact ⟨⟨hlt, take_suffix_of_le hk.2 hborder.2 hlt.le⟩, by rwa [← hsame]⟩
      · refine ⟨by omega, fun _ => ⟨hborder, fun h => hsame h.symm⟩, fun k hk => hnext.le k hk.1⟩

theorem preKmp_spec (hne : x ≠ []) :
    Sound x (preKmp x) x.length ∧ Best (Border x x.length) ((preKmp x).getD x.length (-1)) := by
  have hpos := List.length_pos_of_ne_nil hne
  apply preKmpLoop_spec (by omega) rfl
  · intro i hi
    obtain rfl : i = 0 := by omega
    refine ⟨le_rfl, fun h => absurd h (by decide), ?_⟩
    rintro k ⟨⟨hk, -⟩, -⟩
    exact absurd hk (Nat.not_lt_zero k)
  · refine ⟨le_rfl, fun h => absurd h (by decide), ?_⟩
    rintro k ⟨hk, -⟩
    exact absurd hk (Nat.not_lt_zero k)

/-! ## Occurrences -/

section

omit [DecidableEq α]

/-- The pattern occurs in the text, with the property of what follows it. -/
def Occurs (x : List α) (K : List α → Prop) (text : List α) : Prop :=
  ∃ u v, text = u ++ (x ++ v) ∧ K v

/-- Of a text that is no longer than the pattern, only the longest end counts that is a beginning of
the pattern. -/
theorem occurs_append_iff {t : List α} {b : ℕ} (ht : t.length ≤ x.length) (hb : x.take b <:+ t)
    (hmax : ∀ k < x.length, x.take k <:+ t → k ≤ b) (K : List α → Prop) (s : List α) :
    Occurs x K (t ++ s) ↔ t = x ∧ K s ∨ Occurs x K (x.take b ++ s) := by
  constructor
  · rintro ⟨u, v, heq, hK⟩
    rcases List.append_eq_append_iff.1 heq with ⟨w, rfl, rfl⟩ | ⟨w, rfl, hrest⟩
    · exact .inr ⟨x.take b ++ w, v, (List.append_assoc ..).symm, hK⟩
    · rw [List.length_append] at ht
      have hw : w <+: x := by
        apply List.prefix_of_prefix_length_le ⟨s, hrest.symm⟩ ⟨v, rfl⟩
        omega
      rcases Nat.lt_or_eq_of_le hw.length_le with hlt | hlength
      · have htake : x.take w.length = w := (List.prefix_iff_eq_take.1 hw).symm
        have hwb : x.take w.length <:+ x.take b := by
          apply take_suffix_of_le _ hb (hmax _ hlt (by rw [htake]; exact ⟨u, rfl⟩))
          rw [htake]
          exact ⟨u, rfl⟩
        obtain ⟨a, ha⟩ := hwb
        refine .inr ⟨a, v, ?_, hK⟩
        rw [← ha, htake, List.append_assoc, hrest]
      · have hu : u = [] := List.length_eq_zero_iff.1 (by omega)
        have hwx : w = x := hw.eq_of_length hlength
        subst hwx
        rw [List.append_cancel_left hrest] at hK
        exact .inl ⟨by rw [hu, List.nil_append], hK⟩
  · rintro (⟨rfl, hK⟩ | ⟨u, v, heq, hK⟩)
    · exact ⟨[], s, rfl, hK⟩
    · obtain ⟨a, rfl⟩ := hb
      exact ⟨a ++ u, v, by rw [List.append_assoc, heq, List.append_assoc], hK⟩

end

/-- A character is read when the text ends with the first `j` characters of the pattern. -/
theorem search_step {j : ℕ} (hj : j < x.length) (c : α) (K : List α → Prop) (s : List α) {r : ℤ}
    (hr : r = fall x (preKmp x) (some c) (x.length + 1) j + 1) :
    (0 ≤ r ∧ r < x.length ∧
      (Occurs x K (x.take j ++ c :: s) ↔ Occurs x K (x.take r.toNat ++ s))) ∨
    ∃ b : ℕ, r = x.length ∧ b < x.length ∧ (preKmp x).getD x.length (-1) = b ∧
      (Occurs x K (x.take j ++ c :: s) ↔ K s ∨ Occurs x K (x.take b ++ s)) := by
  have hne : x ≠ [] := List.ne_nil_of_length_pos (by omega)
  obtain ⟨hsound, hlast⟩ := preKmp_spec hne
  have hbest : Best (fun k => Ends x j k ∧ x[k]? = some c)
      (fall x (preKmp x) (some c) (x.length + 1) j) :=
    fall_best hsound (by omega) (by omega) (by push_cast; omega)
  have hge := hbest.ge
  have hlength : (x.take j ++ [c]).length = j + 1 := by
    rw [List.length_append, List.length_take, min_eq_left hj.le, List.length_singleton]
  -- an end of what has been read that is a beginning of the pattern
  have hends : ∀ k < x.length, x.take (k + 1) <:+ x.take j ++ [c] → (k : ℤ) + 1 ≤ r := by
    intro k hk hsuffix
    have hle := hsuffix.length_le
    rw [hlength, List.length_take, min_eq_left hk] at hle
    obtain ⟨hc, hsuffix⟩ := (take_succ_suffix_iff hk).1 hsuffix
    have := hbest.le k ⟨⟨by omega, by simpa using hsuffix⟩, hc⟩
    omega
  have happend : x.take j ++ c :: s = (x.take j ++ [c]) ++ s := by simp
  by_cases hfound : r < x.length
  · refine .inl ⟨by omega, hfound, ?_⟩
    rw [happend, occurs_append_iff (b := r.toNat) (by omega)]
    · have hno : ¬ (x.take j ++ [c] = x ∧ K s) := by
        rintro ⟨heq, -⟩
        have htop := hends (x.length - 1) (by omega) (by
          rw [heq, show x.length - 1 + 1 = x.length by omega, List.take_length])
        omega
      simp only [hno, false_or]
    · rcases Nat.eq_zero_or_pos r.toNat with hzero | hpos
      · rw [hzero]
        exact List.nil_suffix
      · obtain ⟨⟨-, hsuffix⟩, hc⟩ := hbest.holds (by omega)
        have hrk : r.toNat = (fall x (preKmp x) (some c) (x.length + 1) j).toNat + 1 := by omega
        rw [hrk]
        exact (take_succ_suffix_iff (by omega)).2 ⟨hc, by simpa using hsuffix⟩
    · intro k hk hsuffix
      cases k with
      | zero => exact Nat.zero_le _
      | succ k =>
        have hle := hends k (by omega) hsuffix
        omega
  · obtain ⟨⟨hle, -⟩, hc⟩ := hbest.holds (by omega)
    have hjr : (fall x (preKmp x) (some c) (x.length + 1) j).toNat = j := by omega
    have hlast0 : 0 ≤ (preKmp x).getD x.length (-1) := by
      have hborder : Border x x.length 0 := ⟨by omega, by simp⟩
      exact_mod_cast hlast.le 0 hborder
    have hborder := hlast.holds hlast0
    have hx : x.take j ++ [c] = x := by
      rw [hjr] at hc
      have htake := List.take_add_one (l := x) (i := j)
      rw [hc, Option.toList_some, show j + 1 = x.length by omega, List.take_length] at htake
      exact htake.symm
    refine .inr ⟨((preKmp x).getD x.length (-1)).toNat, by omega, hborder.1, by omega, ?_⟩
    rw [happend, occurs_append_iff (b := ((preKmp x).getD x.length (-1)).toNat) (by omega)]
    · simp only [hx, true_and]
    · rw [hx]
      simpa using hborder.2
    · intro k hk hsuffix
      have hle := hlast.le k ⟨hk, by rw [List.take_length]; rwa [hx] at hsuffix⟩
      omega

end FirebirdCore.Kmp
