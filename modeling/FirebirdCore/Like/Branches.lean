import FirebirdCore.Like.Pattern

/-!
# What the branches of LIKE stand for

A branch stands for the strings that can follow. A character takes the branches to others that stand
for what can follow then. Only branches between two `%` are alive at the same time, and with more than
one there is always one that searches, which never dies.
-/
namespace FirebirdCore.Like

variable {γ : Type}

/-! ## Languages of branches -/

/-- What follows when an item has been matched. -/
def afterLanguage (item : PatternItem γ) (rest : List (PatternItem γ)) : Language γ :=
  item.tailLanguage * itemsLanguage rest

theorem afterLanguage_nil (item : PatternItem γ) : afterLanguage item [] = item.tailLanguage :=
  mul_one _

def BranchItem.language (b : BranchItem γ) : Language γ :=
  match b.pattern with
  | [] => 0
  | item :: rest =>
      match item.type with
      | .piDirectMatch => {item.str.drop b.offset.toNat} * afterLanguage item rest
      | .piSkipFixed => oneChar γ ^ (item.length - b.offset.toNat) * afterLanguage item rest
      | .piSearch =>
          {w | Kmp.Occurs item.str (· ∈ afterLanguage item rest) (item.str.take b.offset.toNat ++ w)}
      | _ => 0

/-- The items behind the next `%`. -/
def behind : List (PatternItem γ) → Option (List (PatternItem γ))
  | [] => none
  | item :: rest => if item.matchAny then some rest else behind rest

theorem behind_cons {item : PatternItem γ} (h : ¬ item.matchAny = true) (rest : List (PatternItem γ)) :
    behind (item :: rest) = behind rest := by
  rw [behind, if_neg h]

theorem mem_singleton_cons_mul {c x : γ} {w xs : List γ} {L : Language γ} :
    c :: w ∈ ({x :: xs} : Language γ) * L ↔ x = c ∧ w ∈ ({xs} : Language γ) * L := by
  rw [Language.mem_mul, Language.mem_mul]
  constructor
  · rintro ⟨u, rfl, v, hv, heq⟩
    obtain ⟨rfl, rfl⟩ := List.cons.inj heq
    exact ⟨rfl, xs, rfl, v, hv, rfl⟩
  · rintro ⟨rfl, u, hu, v, hv, rfl⟩
    rw [Set.mem_singleton_iff.1 hu]
    exact ⟨x :: xs, rfl, v, hv, rfl⟩

theorem mem_oneChar_pow_succ_mul {n : ℕ} {c : γ} {w : List γ} {L : Language γ} :
    c :: w ∈ oneChar γ ^ (n + 1) * L ↔ w ∈ oneChar γ ^ n * L := by
  rw [pow_succ', mul_assoc, Language.mem_mul]
  constructor
  · rintro ⟨u, ⟨d, rfl⟩, v, hv, heq⟩
    obtain ⟨rfl, rfl⟩ := List.cons.inj heq
    exact hv
  · intro hw
    exact ⟨[c], ⟨c, rfl⟩, w, hw, rfl⟩

theorem singleton_nil_mul (L : Language γ) : ({[]} : Language γ) * L = L := one_mul L

theorem mem_top_mul_of_append {u v : List γ} {L : Language γ} (h : v ∈ (⊤ : Language γ) * L) :
    u ++ v ∈ (⊤ : Language γ) * L := by
  obtain ⟨x, -, y, hy, rfl⟩ := Language.mem_mul.1 h
  exact Language.mem_mul.2 ⟨u ++ x, trivial, y, hy, by simp⟩

/-- A word of the items has one of those behind the next `%` as its end. -/
theorem mem_top_mul_behind {items q : List (PatternItem γ)} (hq : behind items = some q) {w : List γ}
    (hw : w ∈ itemsLanguage items) : w ∈ (⊤ : Language γ) * itemsLanguage q := by
  induction items generalizing w with
  | nil => cases hq
  | cons item rest ih =>
    obtain ⟨u, -, v, hv, rfl⟩ := Language.mem_mul.1 hw
    apply mem_top_mul_of_append
    unfold behind at hq
    unfold PatternItem.tailLanguage at hv
    split_ifs at hq hv
    · cases hq
      exact hv
    · rw [one_mul] at hv
      exact ih hq hv

variable [DecidableEq γ]

theorem Valid.length_str {item : PatternItem γ} (h : Valid item) (htype : item.type ≠ .piSkipFixed) :
    item.str.length = item.length := by
  unfold Valid at h
  cases hitem : item.type <;> simp [hitem] at h htype <;>
    simp [PatternItem.str, List.length_take, h.2]

theorem Valid.length_pos {item : PatternItem γ} (h : Valid item) : 0 < item.length := by
  unfold Valid at h
  cases hitem : item.type <;> simp only [hitem] at h
  · exact h.1
  · exact h
  · exact h.1

theorem Linked.tail {item : PatternItem γ} {rest : List (PatternItem γ)} (h : Linked (item :: rest)) :
    Linked rest :=
  ⟨fun x hx => h.valid x (List.mem_cons_of_mem _ hx), h.chain.tail⟩

/-- A branch that stands in an item. -/
inductive Ready : BranchItem γ → Prop where
  | mk {item : PatternItem γ} {rest : List (PatternItem γ)} {o : ℕ} (hlinked : Linked (item :: rest))
      (ho : o < item.length) : Ready ⟨item :: rest, o⟩

theorem Linked.ready {items : List (PatternItem γ)} (h : Linked items) (hne : items ≠ []) :
    Ready ⟨items, 0⟩ := by
  cases items with
  | nil => exact absurd rfl hne
  | cons item rest => exact .mk (o := 0) h (h.valid item (by simp)).length_pos

theorem language_start {items : List (PatternItem γ)} (h : Linked items) (hne : items ≠ []) :
    (⟨items, 0⟩ : BranchItem γ).language = itemsLanguage items := by
  cases items with
  | nil => exact absurd rfl hne
  | cons item rest =>
    have hvalid := h.valid item (by simp)
    unfold BranchItem.language itemsLanguage PatternItem.bodyLanguage
    cases htype : item.type with
    | piSearch =>
      simp only [htype, Int.toNat_zero, List.take_zero, List.nil_append]
      ext w
      rw [mul_assoc, Language.mem_mul]
      constructor
      · rintro ⟨u, v, rfl, hv⟩
        exact ⟨u, trivial, item.str ++ v, Language.mem_mul.2 ⟨item.str, rfl, v, hv, rfl⟩, rfl⟩
      · rintro ⟨u, -, x, hx, rfl⟩
        obtain ⟨y, rfl, v, hv, rfl⟩ := Language.mem_mul.1 hx
        exact ⟨u, v, rfl, hv⟩
    | piSkipFixed => simp [htype, afterLanguage]
    | piDirectMatch => simp [htype, afterLanguage]
    | piNone => simp [Valid, htype] at hvalid
    | piEscapedString => simp [Valid, htype] at hvalid
    | piSkipMore => simp [Valid, htype] at hvalid

/-- Behind an item, the branch stands at the start of the next one. -/
theorem afterLanguage_eq {item : PatternItem γ} {rest : List (PatternItem γ)}
    (h : Linked (item :: rest)) (hne : rest ≠ []) :
    afterLanguage item rest = (⟨rest, 0⟩ : BranchItem γ).language := by
  rw [language_start h.tail hne, afterLanguage, PatternItem.tailLanguage]
  split_ifs with hany
  · cases rest with
    | nil => exact absurd rfl hne
    | cons next rest =>
      have hsearch : next.type = .piSearch := h.chain.rel.1 hany
      have hbody : next.bodyLanguage = ⊤ * {next.str} := by
        unfold PatternItem.bodyLanguage
        rw [hsearch]
      rw [itemsLanguage, hbody, mul_assoc, ← mul_assoc ⊤ ⊤, top_mul_top]
  · exact one_mul _

/-- A word of a branch begins with characters of its item. -/
theorem Ready.split {item : PatternItem γ} {rest : List (PatternItem γ)} {o : ℕ}
    (hlinked : Linked (item :: rest)) (ho : o < item.length) {w : List γ}
    (hw : w ∈ (⟨item :: rest, o⟩ : BranchItem γ).language) :
    ∃ u v, u ≠ [] ∧ w = u ++ v ∧ v ∈ afterLanguage item rest := by
  have hvalid := hlinked.valid item (by simp)
  unfold BranchItem.language at hw
  cases htype : item.type with
  | piSearch =>
    simp only [htype, Int.toNat_natCast] at hw
    obtain ⟨u, v, heq, hv⟩ := hw
    have hlength := hvalid.length_str (by simp [htype])
    have hle : v.length ≤ w.length := by
      have := congrArg List.length heq
      simp only [List.length_append, List.length_take] at this
      omega
    refine ⟨w.take (w.length - v.length), v, ?_, ?_, hv⟩
    · have := congrArg List.length heq
      simp only [List.length_append, List.length_take] at this
      apply List.ne_nil_of_length_pos
      rw [List.length_take]
      omega
    · have hwhole : v <:+ item.str.take o ++ w := by
        rw [heq]
        exact ⟨u ++ item.str, List.append_assoc ..⟩
      have hsuffix : v <:+ w := List.suffix_of_suffix_length_le hwhole (List.suffix_append ..) hle
      obtain ⟨t, rfl⟩ := hsuffix
      rw [List.length_append, Nat.add_sub_cancel, List.take_left]
  | piSkipFixed =>
    simp only [htype, Int.toNat_natCast] at hw
    obtain ⟨u, hu, v, hv, rfl⟩ := Language.mem_mul.1 hw
    refine ⟨u, v, List.ne_nil_of_length_pos ?_, rfl, hv⟩
    rw [mem_oneChar_pow.1 hu]
    omega
  | piDirectMatch =>
    simp only [htype, Int.toNat_natCast] at hw
    obtain ⟨u, rfl, v, hv, rfl⟩ := Language.mem_mul.1 hw
    refine ⟨_, v, List.ne_nil_of_length_pos ?_, rfl, hv⟩
    rw [List.length_drop, hvalid.length_str (by simp [htype])]
    omega
  | piNone => simp [Valid, htype] at hvalid
  | piEscapedString => simp [Valid, htype] at hvalid
  | piSkipMore => simp [Valid, htype] at hvalid

theorem Ready.nil_notMem {b : BranchItem γ} (h : Ready b) : [] ∉ b.language := by
  intro hw
  cases h with
  | mk hlinked ho =>
    obtain ⟨u, v, hne, heq, -⟩ := Ready.split hlinked ho hw
    exact hne (List.append_eq_nil_iff.1 heq.symm).1

theorem Ready.mem_top_mul_behind {b : BranchItem γ} (h : Ready b) {q : List (PatternItem γ)}
    (hq : behind b.pattern = some q) {w : List γ} (hw : w ∈ b.language) :
    ∃ u v, u ≠ [] ∧ w = u ++ v ∧ v ∈ (⊤ : Language γ) * itemsLanguage q := by
  cases h with
  | @mk item rest o hlinked ho =>
    obtain ⟨u, v, hne, heq, hv⟩ := Ready.split hlinked ho hw
    refine ⟨u, v, hne, heq, ?_⟩
    unfold behind at hq
    unfold afterLanguage PatternItem.tailLanguage at hv
    split_ifs at hq hv
    · cases hq
      exact hv
    · rw [one_mul] at hv
      exact Like.mem_top_mul_behind hq hv

/-! ## The step of a branch -/

section

variable {item : PatternItem γ} {rest : List (PatternItem γ)} {o : ℕ} {c : γ} {w : List γ}

/-- The word that is left when the item ends with the character. -/
theorem language_last (hlinked : Linked (item :: rest)) (ho : o + 1 = item.length)
    (htype : item.type = .piDirectMatch ∨ item.type = .piSkipFixed) :
    c :: w ∈ (⟨item :: rest, o⟩ : BranchItem γ).language ↔
      (item.type = .piDirectMatch → item.data[o]? = some c) ∧ w ∈ afterLanguage item rest := by
  have hvalid := hlinked.valid item (by simp)
  unfold BranchItem.language
  rcases htype with htype | htype
  · have hlength := hvalid.length_str (by simp [htype])
    have hdata : item.data[o]? = item.str[o]? := by
      rw [PatternItem.str, List.getElem?_take_of_lt (by omega)]
    simp only [htype, Int.toNat_natCast, forall_const]
    rw [List.drop_eq_getElem_cons (by omega), mem_singleton_cons_mul,
      List.drop_of_length_le (by omega), singleton_nil_mul, hdata, List.getElem?_eq_getElem (by omega),
      Option.some.injEq]
  · simp only [htype, Int.toNat_natCast, reduceCtorEq, false_implies, true_and]
    rw [← ho, Nat.add_sub_cancel_left, ← zero_add 1, mem_oneChar_pow_succ_mul, pow_zero, one_mul]

/-- The word that is left when the item goes on. -/
theorem language_inside (hlinked : Linked (item :: rest)) (ho : o + 1 < item.length)
    (htype : item.type = .piDirectMatch ∨ item.type = .piSkipFixed) :
    c :: w ∈ (⟨item :: rest, o⟩ : BranchItem γ).language ↔
      (item.type = .piDirectMatch → item.data[o]? = some c) ∧
        w ∈ (⟨item :: rest, (o + 1 : ℕ)⟩ : BranchItem γ).language := by
  have hvalid := hlinked.valid item (by simp)
  unfold BranchItem.language
  rcases htype with htype | htype
  · have hlength := hvalid.length_str (by simp [htype])
    have hdata : item.data[o]? = item.str[o]? := by
      rw [PatternItem.str, List.getElem?_take_of_lt (by omega)]
    simp only [htype, Int.toNat_natCast, forall_const]
    rw [List.drop_eq_getElem_cons (by omega), mem_singleton_cons_mul, hdata,
      List.getElem?_eq_getElem (by omega), Option.some.injEq]
  · simp only [htype, Int.toNat_natCast, reduceCtorEq, false_implies, true_and]
    have hsub : item.length - o = item.length - (o + 1) + 1 := by omega
    rw [hsub, mem_oneChar_pow_succ_mul]

/-- Where a search goes with a character: on in the string, or behind it and back to a border. -/
theorem language_search (hlinked : Linked (item :: rest)) (ho : o < item.length)
    (htype : item.type = .piSearch) (c : γ) {r : ℤ}
    (hr : r = Kmp.fall item.str item.kmpNext (some c) (item.length + 1) o + 1) :
    (∃ i : ℕ, r = i ∧ i < item.length ∧ ∀ w, c :: w ∈ (⟨item :: rest, o⟩ : BranchItem γ).language ↔
        w ∈ (⟨item :: rest, i⟩ : BranchItem γ).language) ∨
      ∃ b : ℕ, r = item.length ∧ b < item.length ∧ item.kmpNext.getD r.toNat (-1) = b ∧
        ∀ w, c :: w ∈ (⟨item :: rest, o⟩ : BranchItem γ).language ↔
          w ∈ afterLanguage item rest ∨ w ∈ (⟨item :: rest, b⟩ : BranchItem γ).language := by
  have hvalid := hlinked.valid item (by simp)
  have hlength := hvalid.length_str (by simp [htype])
  have hnext : item.kmpNext = Kmp.preKmp item.str := by
    simp only [Valid, htype] at hvalid
    exact hvalid.2.2
  have hmem (i : ℕ) (w : List γ) : w ∈ (⟨item :: rest, i⟩ : BranchItem γ).language ↔
      Kmp.Occurs item.str (· ∈ afterLanguage item rest) (item.str.take i ++ w) := by
    unfold BranchItem.language
    simp only [htype, Int.toNat_natCast]
    exact Iff.rfl
  rw [hnext, ← hlength] at hr
  have hstep := fun w => Kmp.search_step (hlength ▸ ho) c (· ∈ afterLanguage item rest) w hr
  rcases hstep [] with ⟨h0, hlt, -⟩ | ⟨b, hend, hb, hborder, -⟩
  · refine .inl ⟨r.toNat, by omega, by omega, fun w => ?_⟩
    rw [hmem, hmem]
    rcases hstep w with ⟨-, -, hiff⟩ | ⟨b, hend, -⟩
    · exact hiff
    · omega
  · refine .inr ⟨b, by omega, by omega, ?_, fun w => ?_⟩
    · rw [hnext, hend, Int.toNat_natCast, hborder]
    · rw [hmem, hmem]
      rcases hstep w with ⟨-, hlt, -⟩ | ⟨b', -, -, hborder', hiff⟩
      · omega
      · obtain rfl : b' = b := by omega
        exact hiff

end

end FirebirdCore.Like
