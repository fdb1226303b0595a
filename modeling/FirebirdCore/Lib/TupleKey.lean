import FirebirdCore.Lib.KeyOrder

/-!
# Tuples of words as one word

The letters of each word are stored in groups of `g`, and a marker that falls from one word to the
next precedes every group. A group that another word follows is filled with a least letter. For
words that do not end in the fill letter the stored words compare as the tuples do.
-/
namespace FirebirdCore.TupleKey
open FirebirdCore.KeyOrder

variable {α : Type*} [LinearOrder α] {g n : ℕ} {pad m : α} {marker : ℕ → α}

/-- The letters of a word with the marker before each group; `k` letters of the current group are
still free. -/
def stuff (g : ℕ) (m : α) : ℕ → List α → List α
  | _, [] => []
  | 0, b :: s => m :: b :: stuff g m (g - 1) s
  | k + 1, b :: s => b :: stuff g m k s

/-- Letters that are free in the last group. -/
def room (g : ℕ) : ℕ → List α → ℕ
  | k, [] => k
  | 0, _ :: s => room g (g - 1) s
  | k + 1, _ :: s => room g k s

/-- The stored form of a tuple whose first word has the number `n`. -/
def encodeTuple (g : ℕ) (pad : α) (marker : ℕ → α) : ℕ → List (List α) → List α
  | _, [] => []
  | n, [s] => stuff g (marker n) 0 s
  | n, s :: t :: ss =>
      stuff g (marker n) 0 s ++ List.replicate (room g 0 s) pad ++
        encodeTuple g pad marker (n + 1) (t :: ss)

/-- Tuples of the same length, compared word by word; a shorter word comes before its
extensions. -/
def TupleBefore : List (List α) → List (List α) → Prop
  | s :: ss, t :: ts => Before false s t ∨ s = t ∧ TupleBefore ss ts
  | _, _ => False

instance decidableTupleBefore : (ss ts : List (List α)) → Decidable (TupleBefore ss ts)
  | s :: ss, t :: ts =>
      have := decidableTupleBefore ss ts
      inferInstanceAs (Decidable (Before false s t ∨ s = t ∧ TupleBefore ss ts))
  | [], _ => inferInstanceAs (Decidable False)
  | _ :: _, [] => inferInstanceAs (Decidable False)

/-- The word does not end in the fill letter, unless that is all of it. -/
def Trimmed (pad : α) (s : List α) : Prop := s.getLast? ≠ some pad ∨ s = [pad]

instance (pad : α) (s : List α) : Decidable (Trimmed pad s) :=
  inferInstanceAs (Decidable (_ ∨ _))

theorem tupleBefore_trichotomy {ss ts : List (List α)} (h : ss.length = ts.length) :
    TupleBefore ss ts ∨ ss = ts ∨ TupleBefore ts ss := by
  induction ss generalizing ts with
  | nil => exact .inr (.inl (List.length_eq_zero_iff.1 h.symm).symm)
  | cons s ss ih =>
    cases ts with
    | nil => simp at h
    | cons t ts =>
      rcases before_trichotomy false s t with hst | rfl | hst
      · exact .inl (.inl hst)
      · rcases ih (by simpa using h) with hs | rfl | hs
        · exact .inl (.inr ⟨rfl, hs⟩)
        · exact .inr (.inl rfl)
        · exact .inr (.inr (.inr ⟨rfl, hs⟩))
      · exact .inr (.inr (.inl hst))

theorem tupleBefore_irrefl (ss : List (List α)) : ¬ TupleBefore ss ss := by
  induction ss with
  | nil => exact id
  | cons s ss ih => simp [TupleBefore, before_irrefl, ih]

omit [LinearOrder α] in
theorem getLast?_tail {b : α} {t : List α} (hne : t ≠ []) (h : (b :: t).getLast? ≠ some pad) :
    t.getLast? ≠ some pad := by
  obtain ⟨c, t, rfl⟩ := List.exists_cons_of_ne_nil hne
  simpa using h

theorem before_ne_nil {s t : List α} (h : Before false s t) : t ≠ [] := by
  rintro rfl
  cases s <;> simp [Before] at h

/-- Stored words compare as the words do, where another word follows. A word that ends inside a
group is filled with the least letter, so a longer one exceeds it at the latest at its last
letter. -/
theorem stuff_before_padded (hpad : ∀ a : α, pad ≤ a) {s t x y : List α} {k : ℕ}
    (hx : ∀ b ∈ x.head?, b < m) (h : Before false s t)
    (ht : t.getLast? ≠ some pad ∨ k = 0 ∧ t = [pad]) :
    Before false (stuff g m k s ++ List.replicate (room g k s) pad ++ x)
      (stuff g m k t ++ List.replicate (room g k t) pad ++ y) := by
  induction t generalizing s k with
  | nil => exact absurd rfl (before_ne_nil h)
  | cons b t ih =>
    cases s with
    | nil =>
      cases k with
      | zero =>
        cases x with
        | nil => rfl
        | cons c x => exact .inl (hx c rfl)
      | succ k =>
        rcases (hpad b).lt_or_eq with hlt | heq
        · exact .inl hlt
        · have htb : (b :: t).getLast? ≠ some pad := ht.resolve_right (by simp)
          have hne : t ≠ [] := by
            rintro rfl
            simp [heq] at htb
          refine .inr ⟨heq, ?_⟩
          refine ih (s := []) (k := k) ?_ (.inl (getLast?_tail hne htb))
          obtain ⟨c, t, rfl⟩ := List.exists_cons_of_ne_nil hne
          rfl
    | cons a s =>
      have hstep : a < b ∨ a = b ∧ ∀ k, Before false
          (stuff g m k s ++ List.replicate (room g k s) pad ++ x)
          (stuff g m k t ++ List.replicate (room g k t) pad ++ y) := by
        refine h.imp id fun ⟨hab, hst⟩ => ⟨hab, fun k => ih hst (.inl ?_)⟩
        have hne := before_ne_nil hst
        exact getLast?_tail hne (ht.resolve_right fun hk => hne (List.cons.inj hk.2).2)
      cases k with
      | zero => exact .inr ⟨rfl, hstep.imp id fun hab => ⟨hab.1, hab.2 (g - 1)⟩⟩
      | succ k => exact hstep.imp id fun hab => ⟨hab.1, hab.2 k⟩

/-- Stored words compare as the words do, at the end of a tuple. -/
theorem stuff_before {s t : List α} {k : ℕ} (h : Before false s t) :
    Before false (stuff g m k s) (stuff g m k t) := by
  induction t generalizing s k with
  | nil => exact absurd rfl (before_ne_nil h)
  | cons b t ih =>
    cases s with
    | nil => cases k <;> rfl
    | cons a s =>
      cases k with
      | zero => exact .inr ⟨rfl, h.imp id fun hab => ⟨hab.1, ih hab.2⟩⟩
      | succ k => exact h.imp id fun hab => ⟨hab.1, ih hab.2⟩

omit [LinearOrder α] in
/-- What is stored starts with the marker of a word. -/
theorem head_encodeTuple {ss : List (List α)} :
    ∀ b ∈ (encodeTuple g pad marker n ss).head?, ∃ i < ss.length, b = marker (n + i) := by
  induction ss generalizing n with
  | nil => simp [encodeTuple]
  | cons s ss ih =>
    cases ss with
    | nil =>
      cases s with
      | nil => simp [encodeTuple, stuff]
      | cons a s => simp [encodeTuple, stuff]
    | cons t ss =>
      cases s with
      | nil =>
        intro b hb
        obtain ⟨i, hi, rfl⟩ := ih (n := n + 1) b (by simpa [encodeTuple, stuff, room] using hb)
        exact ⟨i + 1, by simpa using hi, by rw [Nat.add_right_comm, Nat.add_assoc]⟩
      | cons a s => simpa [encodeTuple, stuff] using ⟨0, by simp, rfl⟩

/-- Tuples in order are stored in order. -/
theorem encodeTuple_before (hpad : ∀ a : α, pad ≤ a) {ss ts : List (List α)}
    (hm : ∀ i j, i < j → j < n + ts.length → marker j < marker i)
    (hlen : ss.length = ts.length) (ht : ∀ t ∈ ts, Trimmed pad t) (h : TupleBefore ss ts) :
    Before false (encodeTuple g pad marker n ss) (encodeTuple g pad marker n ts) := by
  induction ss generalizing ts n with
  | nil => exact h.elim
  | cons s ss ih =>
    cases ts with
    | nil => exact h.elim
    | cons t ts =>
      simp only [List.length_cons, Nat.add_right_cancel_iff] at hlen
      cases ss with
      | nil =>
        obtain rfl := List.length_eq_zero_iff.1 hlen.symm
        rcases h with h | ⟨-, h⟩
        · exact stuff_before h
        · exact h.elim
      | cons s' ss =>
        obtain ⟨t', ts, rfl⟩ := List.exists_cons_of_length_pos (l := ts) (by
          simp only [List.length_cons] at hlen
          omega)
        rcases h with h | ⟨rfl, h⟩
        · refine stuff_before_padded hpad ?_ h ((ht t (by simp)).imp id fun he => ⟨rfl, he⟩)
          intro b hb
          obtain ⟨i, hi, rfl⟩ := head_encodeTuple b hb
          refine hm n _ (by omega) ?_
          simp only [List.length_cons] at hi hlen ⊢
          omega
        · rw [encodeTuple, encodeTuple, before_append]
          refine ih ?_ hlen (fun u hu => ht u (by simp [hu])) h
          intro i j hij hj
          exact hm i j hij (by simp only [List.length_cons] at hj ⊢; omega)

/-- The stored form of trimmed tuples preserves and reflects the order. -/
theorem encodeTuple_before_iff (hpad : ∀ a : α, pad ≤ a) {ss ts : List (List α)}
    (hm : ∀ i j, i < j → j < n + ts.length → marker j < marker i)
    (hlen : ss.length = ts.length) (hs : ∀ s ∈ ss, Trimmed pad s) (ht : ∀ t ∈ ts, Trimmed pad t) :
    Before false (encodeTuple g pad marker n ss) (encodeTuple g pad marker n ts) ↔
      TupleBefore ss ts := by
  refine ⟨fun h => ?_, encodeTuple_before hpad hm hlen ht⟩
  rcases tupleBefore_trichotomy hlen with h' | rfl | h'
  · exact h'
  · exact absurd h (before_irrefl _ _)
  · exact absurd h (encodeTuple_before hpad (hlen ▸ hm) hlen.symm hs h').asymm

end FirebirdCore.TupleKey
