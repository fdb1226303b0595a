import FirebirdCore.Cvt.DateTimeForm

/-!
# Reading strings by components

The components of a string are read as they are written, and `parseComponents` reads them.
-/
namespace FirebirdCore.Cvt.DateTime

/-! ## Characters -/

theorem isDigit_iff (c : UInt8) : isDigit c = true ↔ 48 ≤ c.toNat ∧ c.toNat ≤ 57 := by
  simp [isDigit, UInt8.le_iff_toNat_le]

theorem isLetter_iff (c : UInt8) : isLetter c = true ↔
    65 ≤ c.toNat ∧ c.toNat ≤ 90 ∨ 97 ≤ c.toNat ∧ c.toNat ≤ 122 := by
  unfold isLetter LETTER7 UPPER
  split_ifs with h
  · simp only [UInt8.le_iff_toNat_le] at h
    obtain ⟨hlo, hhi⟩ := h
    have hsub : (c - 32).toNat = c.toNat - 32 := by
      rw [UInt8.toNat_sub_of_le]
      · rfl
      · rw [UInt8.le_iff_toNat_le]
        exact le_trans (by decide) hlo
    simp only [UInt8.le_iff_toNat_le, Bool.and_eq_true, decide_eq_true_eq, hsub]
    change 97 ≤ c.toNat at hlo
    change c.toNat ≤ 122 at hhi
    change 65 ≤ c.toNat - 32 ∧ c.toNat - 32 ≤ 90 ↔ _
    omega
  · simp only [UInt8.le_iff_toNat_le, Bool.and_eq_true, decide_eq_true_eq] at h ⊢
    change ¬ (97 ≤ c.toNat ∧ c.toNat ≤ 122) at h
    change 65 ≤ c.toNat ∧ c.toNat ≤ 90 ↔ _
    omega

theorem isBlank_iff (c : UInt8) : isBlank c = true ↔ c.toNat = 32 ∨ c.toNat = 9 := by
  simp [isBlank, ← UInt8.toNat_inj]

theorem isSeparator_iff (c : UInt8) : isSeparator c = true ↔ 44 ≤ c.toNat ∧ c.toNat ≤ 47 ∨ c.toNat = 58 := by
  simp [isSeparator, ← UInt8.toNat_inj]
  omega

theorem isLetter_of_digit {c : UInt8} (h : isDigit c = true) : isLetter c = false := by
  rw [isDigit_iff] at h
  rw [Bool.eq_false_iff, ne_eq, isLetter_iff]
  omega

theorem isBlank_of_front {c : UInt8} (h : isDigit c = true ∨ isLetter c = true) : isBlank c = false := by
  rw [isDigit_iff, isLetter_iff] at h
  rw [Bool.eq_false_iff, ne_eq, isBlank_iff]
  omega

theorem isSeparator_of_front {c : UInt8} (h : isDigit c = true ∨ isLetter c = true) :
    isSeparator c = false := by
  rw [isDigit_iff, isLetter_iff] at h
  rw [Bool.eq_false_iff, ne_eq, isSeparator_iff]
  omega

theorem isBlank_of_separator {c : UInt8} (h : isSeparator c = true) : isBlank c = false := by
  rw [isSeparator_iff] at h
  rw [Bool.eq_false_iff, ne_eq, isBlank_iff]
  omega

theorem ends_of_blank {c : UInt8} (h : isBlank c = true ∨ isSeparator c = true) :
    isDigit c = false ∧ isLetter c = false := by
  rw [isBlank_iff, isSeparator_iff] at h
  rw [Bool.eq_false_iff, Bool.eq_false_iff, ne_eq, ne_eq, isDigit_iff, isLetter_iff]
  omega

/-! ## Words -/

section
variable {p : UInt8 → Bool} {w s : List UInt8}

theorem takeWhile_word (hw : ∀ c ∈ w, p c = true) (hs : ∀ c ∈ s.head?, p c = false) :
    (w ++ s).takeWhile p = w ∧ (w ++ s).dropWhile p = s := by
  rw [List.takeWhile_append_of_pos hw, List.dropWhile_append_of_pos hw]
  cases s with
  | nil => exact ⟨List.append_nil w, rfl⟩
  | cons c s =>
    have hc := hs c rfl
    rw [List.takeWhile_cons_of_neg (by rw [hc]; decide), List.dropWhile_cons_of_neg (by rw [hc]; decide),
      List.append_nil]
    exact ⟨rfl, rfl⟩

theorem dropWhile_head (p : UInt8 → Bool) (s : List UInt8) : ∀ c ∈ (s.dropWhile p).head?, p c = false := by
  intro c hc
  have h := List.head?_dropWhile_not p s
  rw [Option.mem_def.1 hc] at h
  simpa using h

theorem mem_takeWhile {c : UInt8} (h : c ∈ s.takeWhile p) : p c = true := List.mem_takeWhile_imp h

theorem dropWhile_blank (hb : ∀ c ∈ w, isBlank c = true) :
    (w ++ s).dropWhile isBlank = s.dropWhile isBlank := List.dropWhile_append_of_pos hb

theorem dropWhile_of_head (hs : ∀ c ∈ s.head?, p c = false) : s.dropWhile p = s := by
  have h := (takeWhile_word (p := p) (w := []) (by simp) hs).2
  rwa [List.nil_append] at h

end

/-! ## The front of a string -/

section
variable {m k : ℕ} {c : Component} {w s : List UInt8} {items : List Item}

theorem Spells.front (h : Spells c w) : ∃ x w', w = x :: w' ∧ (isDigit x = true ∨ isLetter x = true) := by
  cases h with
  | number hne hw =>
    obtain ⟨x, w', rfl⟩ := List.exists_cons_of_ne_nil hne
    exact ⟨x, w', rfl, .inl (hw x List.mem_cons_self)⟩
  | month hlength hw _ =>
    obtain ⟨x, w', rfl⟩ := List.exists_cons_of_length_pos (l := w) (by omega)
    exact ⟨x, w', rfl, .inr (hw x List.mem_cons_self)⟩

theorem readFront_spells (h : Spells c w) (hmonth : c.IsMonth → 0 < m) (hends : Ends c s) :
    readFront m (w ++ s) = some (c, s) := by
  cases h with
  | number hne hw =>
    obtain ⟨htake, hdrop⟩ := takeWhile_word hw hends
    rw [readFront, htake, hdrop, if_pos hne]
  | month hlength hw hname =>
    obtain ⟨htake, hdrop⟩ := takeWhile_word hw hends
    have hdigits : (w ++ s).takeWhile isDigit = [] := by
      obtain ⟨x, w', rfl⟩ := List.exists_cons_of_length_pos (l := w) (by omega)
      have hx : isDigit x = false := by
        cases hdigit : isDigit x with
        | false => rfl
        | true => exact absurd (hw x List.mem_cons_self) (by rw [isLetter_of_digit hdigit]; decide)
      exact List.takeWhile_cons_of_neg (by rw [hx]; decide)
    rw [readFront, hdigits, htake, hdrop, if_neg (not_not.2 rfl), if_pos ⟨hmonth trivial, hlength⟩, hname]
    rfl

theorem readFront_some {s' : List UInt8} (h : readFront m s = some (c, s')) :
    ∃ w, s = w ++ s' ∧ Spells c w ∧ (c.IsMonth → 0 < m) ∧ Ends c s' := by
  unfold readFront at h
  split_ifs at h with hdigits hletters
  · cases h
    exact ⟨_, (List.takeWhile_append_dropWhile).symm, .number hdigits fun _ => mem_takeWhile, fun hmonth => hmonth.elim,
      dropWhile_head _ _⟩
  · obtain ⟨n, hn, heq⟩ := Option.map_eq_some_iff.1 h
    cases heq
    exact ⟨_, (List.takeWhile_append_dropWhile).symm, .month hletters.2 (fun _ => mem_takeWhile) hn,
      fun _ => hletters.1, dropWhile_head _ _⟩

theorem readSeparator_toList {separator : Option UInt8} (h : ∀ x ∈ separator, isSeparator x = true)
    (hs : separator = none → ∀ x ∈ s.head?, isSeparator x = false) :
    readSeparator (separator.toList ++ s) = (separator, s) := by
  cases separator with
  | some x => exact if_pos (h x rfl)
  | none =>
    cases s with
    | nil => rfl
    | cons x s => exact if_neg (by rw [hs rfl x rfl]; decide)

theorem readSeparator_spec (s : List UInt8) : ∃ separator s', readSeparator s = (separator, s') ∧
    s = separator.toList ++ s' ∧ ∀ x ∈ separator, isSeparator x = true := by
  cases s with
  | nil => exact ⟨none, [], rfl, rfl, by simp⟩
  | cons x s =>
    by_cases hx : isSeparator x = true
    · exact ⟨some x, s, if_pos hx, rfl, by simp [hx]⟩
    · exact ⟨none, x :: s, if_neg hx, rfl, by simp⟩

/-! ## Written strings are read -/

theorem readItems_dropWhile (hk : 0 < k) : readItems k m (s.dropWhile isBlank) = readItems k m s := by
  obtain ⟨k, rfl⟩ := Nat.exists_eq_succ_of_ne_zero (Nat.ne_of_gt hk)
  unfold readItems
  rw [dropWhile_of_head (dropWhile_head isBlank s)]

theorem Written.length_pos (h : Written m items s) : 0 < items.length := by
  cases h with
  | last => exact Nat.zero_lt_one
  | cons => exact Nat.zero_lt_succ _

theorem Written.closed (h : Written m items s) : Closed items := by
  induction h with
  | last => exact rfl
  | cons _ _ _ _ _ _ h ih =>
    obtain ⟨item, items, rfl⟩ := List.exists_cons_of_length_pos h.length_pos
    exact ih

/-- In front is a component. -/
theorem Written.front (h : Written m items s) :
    ∀ x ∈ (s.dropWhile isBlank).head?, isDigit x = true ∨ isLetter x = true := by
  have hword : ∀ {c : Component} {b w rest : List UInt8}, (∀ x ∈ b, isBlank x = true) → Spells c w →
      ∀ x ∈ ((b ++ (w ++ rest)).dropWhile isBlank).head?, isDigit x = true ∨ isLetter x = true := by
    intro c b w rest hb hspells x hx
    obtain ⟨y, w', rfl, hy⟩ := hspells.front
    rw [dropWhile_blank hb, List.cons_append, List.dropWhile_cons_of_neg (by rw [isBlank_of_front hy]; decide)] at hx
    cases hx
    exact hy
  cases h with
  | last hb hspells _ _ => exact hword hb hspells
  | cons hb hspells _ _ _ _ _ => exact hword hb hspells

theorem dropWhile_spells {b : List UInt8} (hb : ∀ x ∈ b, isBlank x = true) (h : Spells c w) :
    (b ++ (w ++ s)).dropWhile isBlank = w ++ s := by
  obtain ⟨y, w', rfl, hy⟩ := h.front
  rw [dropWhile_blank hb, List.cons_append, List.dropWhile_cons_of_neg (by rw [isBlank_of_front hy]; decide)]

theorem Written.readItems_eq (h : Written m items s) (hk : items.length ≤ k) :
    readItems k m s = (items, []) := by
  induction h generalizing k with
  | @last m c b w b' hb hspells hmonth hb' =>
    obtain ⟨k, rfl⟩ := Nat.exists_eq_succ_of_ne_zero (Nat.ne_of_gt (Nat.lt_of_lt_of_le Nat.zero_lt_one hk))
    have hends : Ends c b' := by
      have hblank : ∀ x ∈ b'.head?, isDigit x = false ∧ isLetter x = false := fun x hx =>
        ends_of_blank (.inl (hb' x (List.mem_of_mem_head? hx)))
      cases c with
      | number _ => exact fun x hx => (hblank x hx).1
      | month _ => exact fun x hx => (hblank x hx).2
    have hdrop : b'.dropWhile isBlank = [] := List.dropWhile_eq_nil_iff.2 hb'
    unfold readItems
    simp only [dropWhile_spells hb hspells, readFront_spells hspells hmonth hends, hdrop]
    cases k with
    | zero => rfl
    | succ k => simp [readItems, readSeparator, readFront]
  | @cons m c b w b' s separator items hb hspells hmonth hb' hseparator hends h ih =>
    obtain ⟨k, rfl⟩ := Nat.exists_eq_succ_of_ne_zero (Nat.ne_of_gt (Nat.lt_of_lt_of_le (Nat.zero_lt_succ _) hk))
    have hk' : items.length ≤ k := Nat.le_of_succ_le_succ hk
    have hpos : 0 < k := Nat.lt_of_lt_of_le h.length_pos hk'
    obtain ⟨s', hdrop, hread⟩ : ∃ s', readSeparator ((b' ++ (separator.toList ++ s)).dropWhile isBlank) =
        (separator, s') ∧ readItems k (monthsLeft c m) s' = (items, []) := by
      rw [dropWhile_blank hb']
      cases separator with
      | some x =>
        have hx : isSeparator x = true := hseparator x rfl
        refine ⟨s, ?_, ih hk'⟩
        rw [Option.toList_some, List.singleton_append,
          List.dropWhile_cons_of_neg (by rw [isBlank_of_separator hx]; decide)]
        exact if_pos hx
      | none =>
        refine ⟨s.dropWhile isBlank, ?_, (readItems_dropWhile hpos).trans (ih hk')⟩
        exact @readSeparator_toList _ none hseparator
          fun _ x hx => isSeparator_of_front (h.front x hx)
    unfold readItems
    simp only [dropWhile_spells hb hspells, readFront_spells hspells hmonth hends, hdrop, hread]

/-! ## What is read is written -/

theorem written_of_readItems (h : readItems k m s = (items, [])) (hclosed : Closed items) :
    Written m items s := by
  induction k generalizing m s items with
  | zero =>
    cases h
    exact hclosed.elim
  | succ k ih =>
    unfold readItems at h
    cases hfront : readFront m (s.dropWhile isBlank) with
    | none =>
      rw [hfront] at h
      obtain rfl : [] = items := congrArg Prod.fst h
      exact hclosed.elim
    | some result =>
      obtain ⟨c, s'⟩ := result
      obtain ⟨w, hw, hspells, hmonth, hends⟩ := readFront_some hfront
      obtain ⟨separator, s'', hread, hs', hseparator⟩ := readSeparator_spec (s'.dropWhile isBlank)
      obtain ⟨items', hitems'⟩ : ∃ items', readItems k (monthsLeft c m) s'' = (items', []) ∧
          items = (c, separator) :: items' := by
        simp only [hfront, hread] at h
        have hleft : (readItems k (monthsLeft c m) s'').2 = [] := congrArg Prod.snd h
        exact ⟨_, Prod.ext rfl hleft, (congrArg Prod.fst h).symm⟩
      obtain ⟨hitems', rfl⟩ := hitems'
      have hb : ∀ x ∈ s.takeWhile isBlank, isBlank x = true := fun _ => mem_takeWhile
      have hb' : ∀ x ∈ s'.takeWhile isBlank, isBlank x = true := fun _ => mem_takeWhile
      have hs : s = s.takeWhile isBlank ++ (w ++ (s'.takeWhile isBlank ++ (separator.toList ++ s''))) := by
        rw [← hs', List.takeWhile_append_dropWhile, ← hw, List.takeWhile_append_dropWhile]
      cases items' with
      | nil =>
        obtain rfl : separator = none := hclosed
        have hnil : s'' = [] := by
          cases k with
          | zero => exact congrArg Prod.snd hitems'
          | succ k =>
            have hstuck := dropWhile_head isBlank s'
            rw [hs', Option.toList_none, List.nil_append] at hstuck
            have hdrop := dropWhile_of_head hstuck
            unfold readItems at hitems'
            rw [hdrop] at hitems'
            cases hfront' : readFront (monthsLeft c m) s'' with
            | none =>
              rw [hfront'] at hitems'
              exact congrArg Prod.snd hitems'
            | some result =>
              rw [hfront'] at hitems'
              cases congrArg Prod.fst hitems'
        rw [hnil, Option.toList_none, List.append_nil, List.append_nil] at hs
        rw [hs]
        exact .last hb hspells hmonth hb'
      | cons item items' =>
        rw [hs]
        refine .cons hb hspells hmonth hb' hseparator ?_ (ih hitems' hclosed)
        rw [← hs', List.takeWhile_append_dropWhile]
        exact hends

/-- The strings that are written with the components are those that are read as them. -/
theorem written_iff (hk : items.length ≤ k) :
    Written m items s ↔ readItems k m s = (items, []) ∧ Closed items :=
  ⟨fun h => ⟨h.readItems_eq hk, h.closed⟩, fun h => written_of_readItems h.1 h.2⟩

end

/-! ## Components as `USHORT` numbers -/

/-- The component and its description. -/
def Component.part : Component → UInt16 × ℤ
  | .number w => (.ofNat (value w), w.length)
  | .month n => (.ofNat n, ENGLISH_MONTH)

theorem digit_step {c : UInt8} (h : isDigit c = true) (n : ℕ) :
    UInt16.ofNat n * 10 + c.toUInt16 - 48 = .ofNat (n * 10 + digit c) := by
  rw [isDigit_iff] at h
  have hc : c.toUInt16 = .ofNat (digit c) + 48 := by
    rw [← UInt16.toNat_inj, UInt16.toNat_add, UInt8.toNat_toUInt16, UInt16.toNat_ofNat', digit]
    change c.toNat = ((c.toNat - 48) % 2 ^ 16 + 48) % 2 ^ 16
    omega
  rw [hc, ← UInt16.add_assoc, UInt16.add_sub_cancel, UInt16.ofNat_add, UInt16.ofNat_mul]
  rfl

theorem readNumber_digits {w s : List UInt8} (hw : ∀ c ∈ w, isDigit c = true)
    (hs : ∀ c ∈ s.head?, isDigit c = false) (n precision : ℕ) :
    readNumber (w ++ s) (.ofNat n) (.ofNat precision) =
      ((.ofNat (numberFrom 10 n (w.map digit)), .ofNat (precision + w.length)), s) := by
  induction w generalizing n precision with
  | nil =>
    cases s with
    | nil => rfl
    | cons c s =>
      have hc := hs c rfl
      rw [List.nil_append, readNumber, if_neg (by rw [hc]; decide)]
      rfl
  | cons c w ih =>
    obtain ⟨hc, hw⟩ := List.forall_mem_cons.1 hw
    have hprecision : UInt16.ofNat precision + 1 = .ofNat (precision + 1) := by
      rw [UInt16.ofNat_add]
      rfl
    rw [List.cons_append, readNumber, if_pos hc, digit_step hc, hprecision, ih hw, List.map_cons,
      numberFrom_cons, List.length_cons, Nat.add_right_comm, Nat.add_assoc]

theorem readLetters_eq (room : ℕ) (p : List UInt8) :
    readLetters room p = (((p.takeWhile isLetter).take room).map UPPER,
      p.drop ((p.takeWhile isLetter).take room).length) := by
  induction room generalizing p with
  | zero => rfl
  | succ room ih =>
    cases p with
    | nil => rfl
    | cons c p =>
      by_cases hc : isLetter c = true
      · have hletter : LETTER7 (UPPER c) = true := hc
        rw [readLetters, if_pos hletter, ih, List.takeWhile_cons_of_pos hc]
        rfl
      · have hletter : ¬ LETTER7 (UPPER c) = true := hc
        rw [readLetters, if_neg hletter, List.takeWhile_cons_of_neg hc]
        rfl

/-- No name is as long as the room for letters. -/
theorem findMonth_length {temp : List UInt8} {n : ℕ} (h : findMonth temp = some n) : temp.length < ROOM := by
  obtain ⟨i, hi, -⟩ := Option.map_eq_some_iff.1 h
  obtain ⟨hlt, hpre, -⟩ := List.findIdx?_eq_some_iff_getElem.1 hi
  have hle := (List.isPrefixOf_iff_prefix.1 hpre).length_le
  have hnames : ∀ name ∈ FB_LONG_MONTHS_UPPER, name.length < ROOM := by decide
  exact lt_of_le_of_lt hle (hnames _ (List.getElem_mem hlt))

theorem UPPER_digit (c : UInt8) : isDigit (UPPER c) = isDigit c := by
  have hiff : isDigit (UPPER c) = true ↔ isDigit c = true := by
    rw [isDigit_iff, isDigit_iff]
    unfold UPPER
    split_ifs with h
    · simp only [UInt8.le_iff_toNat_le] at h
      obtain ⟨hlo, hhi⟩ := h
      have hsub : (c - 32).toNat = c.toNat - 32 := by
        rw [UInt8.toNat_sub_of_le]
        · rfl
        · rw [UInt8.le_iff_toNat_le]
          exact le_trans (by decide) hlo
      change 97 ≤ c.toNat at hlo
      omega
    · rfl
  exact Bool.eq_iff_iff.2 hiff

/-! ## The loop over the components -/

/-- The state behind a component. -/
def Scanner.push (s : Scanner) (item : Item) : Scanner where
  parts := s.parts ++ [item.1.part]
  have_english_month := s.have_english_month || decide (item.1.part.2 = ENGLISH_MONTH)
  dot_separator_seen := s.dot_separator_seen || (decide (item.2 = some 46) && decide (s.parts.length ≤ 1))

def Scanner.months (s : Scanner) : ℕ := if s.have_english_month then 0 else 2 - s.parts.length

theorem months_push (s : Scanner) (c : Component) (separator : Option UInt8) :
    (s.push (c, separator)).months = monthsLeft c s.months := by
  cases c with
  | number w =>
    have hne : ((w.length : ℤ) = ENGLISH_MONTH) = False := by
      rw [eq_iff_iff, iff_false, ENGLISH_MONTH]
      omega
    simp only [Scanner.months, Scanner.push, Component.part, hne, decide_false, Bool.or_false, monthsLeft,
      List.length_append, List.length_singleton]
    split_ifs
    · rfl
    · omega
  | month n => simp [Scanner.months, Scanner.push, Component.part, monthsLeft]

/-- The word at the front of what is left, if it can be a special one. -/
def wordAt (e : List UInt8) : Option (List UInt8) :=
  let letters := (e.takeWhile isLetter).take ROOM
  if 3 ≤ letters.length ∧ ∀ c ∈ (e.drop letters.length).drop 1, isTrailing c = true then some (letters.map UPPER)
  else none

/-- What the parser makes of what is left, if it is no component. -/
def atWord (s : Scanner) (e : List UInt8) : Except DateTimeError (List UInt8) :=
  if s.have_english_month then .error .convert_error
  else
    match wordAt e with
    | none => .error .convert_error
    | some temp => .ok temp

theorem readComponent_some {s : Scanner} {c : Component} {x : UInt8} {p p' : List UInt8}
    (hp : (x :: p).length < 2 ^ 16) (h : readFront s.months (x :: p) = some (c, p')) :
    readComponent s x p = .ok (.part c.part.1 c.part.2 p') := by
  obtain ⟨w, hw, hspells, hmonth, hends⟩ := readFront_some h
  cases hspells with
  | number hne hdigits =>
    obtain ⟨y, w', rfl⟩ := List.exists_cons_of_ne_nil hne
    rw [List.cons_append] at hw
    obtain ⟨rfl, rfl⟩ := List.cons.inj hw
    have hx : isDigit x = true := hdigits x List.mem_cons_self
    have hread := readNumber_digits hdigits hends 0 0
    rw [Nat.zero_add] at hread
    have hlength : (UInt16.ofNat (x :: w').length).toNat = (x :: w').length := by
      rw [UInt16.toNat_ofNat', Nat.mod_eq_of_lt]
      rw [List.length_cons, List.length_append] at hp
      rw [List.length_cons]
      omega
    unfold readComponent
    rw [UPPER_digit, if_pos hx]
    change Except.ok (Read.part (readNumber (x :: w' ++ p') (.ofNat 0) (.ofNat 0)).1.1 _ _) = _
    have hread' : readNumber (x :: (w' ++ p')) 0 0 = _ := hread
    rw [hread', hread, hlength]
    rfl
  | month hlength hletters hname =>
    obtain ⟨y, w', rfl⟩ := List.exists_cons_of_length_pos (l := w) (by omega)
    rw [List.cons_append] at hw
    obtain ⟨rfl, rfl⟩ := List.cons.inj hw
    have hx : isLetter x = true := hletters x List.mem_cons_self
    have hdigit : isDigit x ≠ true := by
      intro hdigit
      rw [isLetter_of_digit hdigit] at hx
      cases hx
    have hmonths : s.have_english_month = false ∧ s.parts.length < 2 := by
      have hpos := hmonth trivial
      unfold Scanner.months at hpos
      split_ifs at hpos with hhave
      · exact absurd hpos (lt_irrefl 0)
      · exact ⟨by simpa using hhave, by omega⟩
    have hshort := findMonth_length hname
    rw [List.length_map] at hshort
    have hread : readLetters ROOM (x :: (w' ++ p')) = ((x :: w').map UPPER, p') := by
      have htake := (takeWhile_word hletters hends).1
      rw [List.cons_append] at htake
      rw [readLetters_eq, htake, List.take_of_length_le hshort.le, ← List.cons_append, List.drop_left]
    unfold readComponent
    rw [UPPER_digit, if_neg hdigit, if_pos ⟨hx, by rw [hmonths.1]; decide⟩]
    simp only [hread, List.length_map, if_neg (not_lt.2 hlength), if_pos hmonths.2, hname]
    rfl

theorem readComponent_none {s : Scanner} {x : UInt8} {p : List UInt8}
    (h : readFront s.months (x :: p) = none) : readComponent s x p = (atWord s (x :: p)).map .special := by
  unfold readFront at h
  have hdigit : isDigit x ≠ true := by
    intro hx
    rw [List.takeWhile_cons_of_pos hx, if_pos (List.cons_ne_nil _ _)] at h
    cases h
  have hnil : (x :: p).takeWhile isDigit = [] := List.takeWhile_cons_of_neg hdigit
  rw [hnil, if_neg (not_not.2 rfl)] at h
  unfold readComponent
  rw [UPPER_digit, if_neg hdigit, readLetters_eq]
  by_cases hhave : s.have_english_month = true
  · rw [if_neg fun hletter => hletter.2 hhave, atWord, if_pos hhave]
    rfl
  by_cases hletter : isLetter x = true
  · have hmonth : (if s.parts.length < 2 then
        findMonth ((((x :: p).takeWhile isLetter).take ROOM).map UPPER) else none) = none ∨
          (((x :: p).takeWhile isLetter).take ROOM).length < 3 := by
      by_cases hshort : (((x :: p).takeWhile isLetter).take ROOM).length < 3
      · exact .inr hshort
      · refine .inl ?_
        split_ifs with hposition
        · rw [List.length_take] at hshort
          have hpos : 0 < s.months ∧ 3 ≤ ((x :: p).takeWhile isLetter).length := by
            rw [Scanner.months, if_neg hhave]
            omega
          rw [if_pos hpos] at h
          have hfind := Option.map_eq_none_iff.1 h
          rcases Nat.lt_or_ge ((x :: p).takeWhile isLetter).length ROOM with hlt | hge
          · rw [List.take_of_length_le hlt.le, hfind]
          · cases hfind' : findMonth ((((x :: p).takeWhile isLetter).take ROOM).map UPPER) with
            | none => rfl
            | some n =>
              have hlt := findMonth_length hfind'
              rw [List.length_map, List.length_take, Nat.min_eq_left hge] at hlt
              exact absurd hlt (lt_irrefl _)
        · rfl
    rw [if_pos ⟨hletter, hhave⟩, atWord, if_neg hhave, wordAt]
    simp only [List.length_map]
    rcases Nat.lt_or_ge (((x :: p).takeWhile isLetter).take ROOM).length 3 with hshort | hlong
    · rw [if_pos hshort, if_neg fun hword => absurd hword.1 (not_le.2 hshort)]
      rfl
    · rw [if_neg (not_lt.2 hlong), hmonth.resolve_right (not_lt.2 hlong)]
      by_cases htrailing : ∀ c ∈ ((x :: p).drop (((x :: p).takeWhile isLetter).take ROOM).length).drop 1,
          isTrailing c = true
      · have hword := And.intro hlong htrailing
        simp only [if_pos htrailing, if_pos hword]
        rfl
      · have hword : ¬ (3 ≤ (((x :: p).takeWhile isLetter).take ROOM).length ∧ _) := fun hword => htrailing hword.2
        simp only [if_neg htrailing, if_neg hword]
        rfl
  · have hnil' : (x :: p).takeWhile isLetter = [] := List.takeWhile_cons_of_neg hletter
    have hletter' : ¬ (LETTER7 (UPPER x) = true ∧ ¬ s.have_english_month = true) := fun hx => hletter hx.1
    rw [if_neg hletter', atWord, if_neg hhave, wordAt, hnil']
    rfl

/-- The position at which the loop ends: that of the last component, if nothing stands behind it. -/
def index : List Item → List UInt8 → ℕ
  | [], _ => 0
  | [(_, separator)], e => if separator = none ∧ e = [] then 0 else 1
  | _ :: item :: items, e => index (item :: items) e + 1

theorem index_cons {item : Item} {items : List Item} {e : List UInt8}
    (h : items ≠ [] ∨ item.2 ≠ none ∨ e ≠ []) : index (item :: items) e = index items e + 1 := by
  cases items with
  | nil =>
    have hopen : ¬ (item.2 = none ∧ e = []) := fun hclosed =>
      h.elim (fun hne => hne rfl) fun h => h.elim (fun hne => hne hclosed.1) fun hne => hne hclosed.2
    exact if_neg hopen
  | cons item' items => rfl

/-- If no component follows, the rest is left. -/
theorem readItems_nil {k m : ℕ} {s e : List UInt8} (hs : ∀ x ∈ s.head?, isBlank x = false)
    (h : readItems k m s = ([], e)) : e = s := by
  cases k with
  | zero => exact (congrArg Prod.snd h).symm
  | succ k =>
    unfold readItems at h
    rw [dropWhile_of_head hs] at h
    cases hfront : readFront m s with
    | none =>
      rw [hfront] at h
      exact (congrArg Prod.snd h).symm
    | some result =>
      rw [hfront] at h
      cases congrArg Prod.fst h

/-- The loop reads the components. At its end is the string, the last of the positions, or a word. -/
theorem parseComponents_eq (k : ℕ) (s : Scanner) (p : List UInt8) (hp : p.length < 2 ^ 16)
    {items : List Item} {e : List UInt8} (h : readItems k s.months p = (items, e)) :
    parseComponents k s p =
      if e = [] ∨ items.length = k then
        .ok (.components (s.parts.length + index items e) (items.foldl Scanner.push s) e)
      else (atWord (items.foldl Scanner.push s) e).map .special := by
  induction k generalizing s p items e with
  | zero =>
    cases h
    rw [if_pos (.inr rfl)]
    rfl
  | succ k ih =>
    unfold readItems at h
    unfold parseComponents
    cases hdrop : p.dropWhile isBlank with
    | nil =>
      rw [hdrop] at h
      have hfront : readFront s.months [] = none := by simp [readFront]
      rw [hfront] at h
      cases h
      rw [if_pos (.inl rfl)]
      rfl
    | cons x p' =>
      have hlength : (x :: p').length ≤ p.length := by
        rw [← hdrop]
        exact (List.dropWhile_suffix _).length_le
      rw [hdrop] at h
      cases hfront : readFront s.months (x :: p') with
      | none =>
        rw [hfront] at h
        cases h
        rw [if_neg (by simp), List.foldl_nil]
        simp only [readComponent_none hfront]
        cases atWord s (x :: p') with
        | error e => rfl
        | ok temp => rfl
      | some result =>
        obtain ⟨c, p''⟩ := result
        obtain ⟨separator, rest, hread, hrest, hseparator⟩ := readSeparator_spec (p''.dropWhile isBlank)
        obtain ⟨items', hitems', rfl⟩ : ∃ items', readItems k (s.push (c, separator)).months rest = (items', e) ∧
            items = (c, separator) :: items' := by
          simp only [hfront, hread] at h
          rw [months_push]
          have hleft : (readItems k (monthsLeft c s.months) rest).2 = e := congrArg Prod.snd h
          exact ⟨_, Prod.ext rfl hleft, (congrArg Prod.fst h).symm⟩
        have hcomponent := readComponent_some (lt_of_le_of_lt hlength hp) hfront
        simp only [hcomponent]
        have hlength' : (p''.dropWhile isBlank).length ≤ (x :: p').length := by
          obtain ⟨w, hw, -⟩ := readFront_some hfront
          rw [hw, List.length_append]
          exact (List.dropWhile_suffix _).length_le.trans (Nat.le_add_left _ _)
        have hstuck := dropWhile_head isBlank p''
        -- the code goes on with this state behind the component and its separator
        have hgoes : rest.length < 2 ^ 16 → (items' = [] → separator ≠ none ∨ e ≠ []) →
            parseComponents k (s.push (c, separator)) rest =
              if e = [] ∨ ((c, separator) :: items').length = k + 1 then
                .ok (.components (s.parts.length + index ((c, separator) :: items') e)
                  (((c, separator) :: items').foldl Scanner.push s) e)
              else (atWord (((c, separator) :: items').foldl Scanner.push s) e).map .special := by
          intro hrest_length hopen
          have hindex : index ((c, separator) :: items') e = index items' e + 1 := by
            refine index_cons ?_
            by_cases hnil : items' = []
            · exact .inr (hopen hnil)
            · exact .inl hnil
          have hparts : (s.push (c, separator)).parts.length = s.parts.length + 1 := by
            rw [Scanner.push, List.length_append, List.length_singleton]
          rw [ih _ _ hrest_length hitems', hindex, hparts, List.foldl_cons]
          simp only [List.length_cons, Nat.add_right_cancel_iff, Nat.add_assoc, Nat.add_comm 1]
        cases hbehind : p''.dropWhile isBlank with
        | nil =>
          rw [hbehind] at hread
          obtain ⟨rfl, rfl⟩ : none = separator ∧ [] = rest := Prod.ext_iff.1 hread
          obtain ⟨rfl, rfl⟩ : [] = items' ∧ [] = e := by
            have hnil : readItems k (s.push (c, none)).months [] = ([], []) := by
              cases k with
              | zero => rfl
              | succ k => simp [readItems, readFront]
            rw [hnil] at hitems'
            exact Prod.ext_iff.1 hitems'
          rw [if_pos (.inl rfl)]
          simp [Scanner.push, index]
        | cons y q =>
          rw [hbehind] at hread hrest hlength' hstuck
          rw [List.length_cons] at hlength'
          have hq : q.length < 2 ^ 16 := by omega
          by_cases hsep : isSeparator y = true
          · obtain ⟨rfl, rfl⟩ : some y = separator ∧ q = rest := by
              rw [readSeparator, if_pos hsep] at hread
              exact Prod.ext_iff.1 hread
            have hcode := hgoes hq fun _ => .inl (Option.some_ne_none y)
            rw [← hcode]
            by_cases hdot : y = 46
            · subst hdot
              simp [Scanner.push]
            · have hother : y = 47 ∨ y = 45 ∨ y = 44 ∨ y = 58 := by
                simp only [isSeparator, Bool.or_eq_true, decide_eq_true_eq] at hsep
                tauto
              simp [Scanner.push, hother, hdot]
          · obtain ⟨rfl, rfl⟩ : none = separator ∧ y :: q = rest := by
              rw [readSeparator, if_neg hsep] at hread
              exact Prod.ext_iff.1 hread
            have hcode := hgoes (by rw [List.length_cons]; omega) fun hnil => by
              rw [hnil] at hitems'
              have he := readItems_nil hstuck hitems'
              exact .inr (by rw [he]; exact List.cons_ne_nil _ _)
            rw [← hcode]
            simp only [isSeparator, Bool.or_eq_true, decide_eq_true_eq, not_or] at hsep
            simp [Scanner.push, hsep]

end FirebirdCore.Cvt.DateTime
