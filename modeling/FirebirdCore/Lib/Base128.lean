import Mathlib.Data.List.Basic
import Mathlib.Tactic

/-!
# Numbers in groups of seven bits

Low groups come first; each byte but the last carries the continuation bit `128`. A field
has room for `k + 1` groups, and `last` bounds the value of the final group.
-/
namespace FirebirdCore.Base128

/-- Write `n` in at most `k + 1` groups; what does not fit the last group is dropped. -/
def writeGroups (last : ℕ) : ℕ → ℕ → List UInt8
  | 0, n => [UInt8.ofNat (n % last)]
  | k + 1, n =>
      if n / 128 > 0 then UInt8.ofNat (n % 128 + 128) :: writeGroups last k (n / 128)
      else [UInt8.ofNat (n % 128)]

/-- Read at most `k + 1` groups: the value and the number of bytes consumed. -/
def readGroups (last : ℕ) : ℕ → List UInt8 → ℕ × ℕ
  | 0, bs => ((bs.headD 0).toNat % last, 1)
  | k + 1, bs =>
      let tmp := (bs.headD 0).toNat
      if tmp ≥ 128 then
        let r := readGroups last k bs.tail
        (tmp % 128 + 128 * r.1, r.2 + 1)
      else (tmp, 1)

/-- Number of groups `writeGroups` emits. -/
def groupCount : ℕ → ℕ → ℕ
  | 0, _ => 1
  | k + 1, n => if n / 128 > 0 then groupCount k (n / 128) + 1 else 1

@[simp] theorem writeGroups_length (last k n : ℕ) :
    (writeGroups last k n).length = groupCount k n := by
  induction k generalizing n with
  | zero => rfl
  | succ k ih =>
    simp only [writeGroups, groupCount]
    split
    · simp [ih]
    · rfl

theorem groupCount_pos (k n : ℕ) : 0 < groupCount k n := by
  cases k with
  | zero => exact Nat.one_pos
  | succ k => simp only [groupCount]; split <;> omega

theorem groupCount_le (k n : ℕ) : groupCount k n ≤ k + 1 := by
  induction k generalizing n with
  | zero => exact le_rfl
  | succ k ih =>
    have := ih (n / 128)
    simp only [groupCount]
    split <;> omega

theorem groupCount_mono (k : ℕ) {m n : ℕ} (h : m ≤ n) : groupCount k m ≤ groupCount k n := by
  induction k generalizing m n with
  | zero => exact le_rfl
  | succ k ih =>
    have hd : m / 128 ≤ n / 128 := Nat.div_le_div_right h
    have := ih hd
    have := groupCount_pos k (n / 128)
    simp only [groupCount]
    split <;> split <;> omega

/-- What was written is read back, whatever bytes follow. -/
theorem readGroups_writeGroups {last : ℕ} (hl : last ≤ 128) (k n : ℕ) (rest : List UInt8)
    (h : n < last * 128 ^ k) :
    readGroups last k (writeGroups last k n ++ rest) = (n, groupCount k n) := by
  induction k generalizing n with
  | zero =>
    rw [pow_zero, mul_one] at h
    have hmod : n % last = n := Nat.mod_eq_of_lt h
    simp only [writeGroups, readGroups, groupCount, List.singleton_append, List.headD_cons,
      UInt8.toNat_ofNat', hmod]
    rw [Nat.mod_eq_of_lt (show n < 2 ^ 8 by omega), hmod]
  | succ k ih =>
    simp only [writeGroups, groupCount]
    by_cases hn : n / 128 > 0
    · have hq : n / 128 < last * 128 ^ k := by
        rw [Nat.div_lt_iff_lt_mul (by decide)]
        rwa [pow_succ, ← mul_assoc] at h
      have hb : (n % 128 + 128) % 2 ^ 8 = n % 128 + 128 := Nat.mod_eq_of_lt (by omega)
      simp only [if_pos hn, List.cons_append, readGroups, List.headD_cons, List.tail_cons,
        UInt8.toNat_ofNat', hb, ih _ hq]
      rw [if_pos (by omega)]
      exact Prod.ext (by simp only; omega) rfl
    · have hb : n % 128 % 2 ^ 8 = n % 128 := Nat.mod_eq_of_lt (by omega)
      simp only [if_neg hn, List.singleton_append, readGroups, List.headD_cons,
        UInt8.toNat_ofNat', hb]
      rw [if_neg (by omega)]
      exact Prod.ext (by simp only; omega) rfl

end FirebirdCore.Base128
