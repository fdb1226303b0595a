import FirebirdCore.Cvt.DateTimeRead

/-!
# What the components are converted to

Behind its loop `string_to_datetime` accepts the components that denote a timestamp, if there is a minute
to each hour.
-/
namespace FirebirdCore.Cvt.DateTime
open FirebirdCore.TimeStamp FirebirdCore.Gregorian

/-! ## Components that were read -/

/-- The components are spelled, and months are at the first positions. -/
def Placed : ℕ → List Item → Prop
  | _, [] => True
  | m, (c, _) :: items => ((∃ w, Spells c w) ∧ (c.IsMonth → 0 < m)) ∧ Placed (monthsLeft c m) items

theorem placed_of_readItems {k m : ℕ} {s e : List UInt8} {items : List Item}
    (h : readItems k m s = (items, e)) : Placed m items ∧ items.length ≤ k := by
  induction k generalizing m s items with
  | zero =>
    cases h
    exact ⟨trivial, Nat.zero_le _⟩
  | succ k ih =>
    unfold readItems at h
    cases hfront : readFront m (s.dropWhile isBlank) with
    | none =>
      rw [hfront] at h
      cases h
      exact ⟨trivial, Nat.zero_le _⟩
    | some result =>
      obtain ⟨c, s'⟩ := result
      obtain ⟨w, -, hspells, hmonth, -⟩ := readFront_some hfront
      simp only [hfront] at h
      obtain rfl := congrArg Prod.fst h
      have hleft : (readItems k (monthsLeft c m) (readSeparator (s'.dropWhile isBlank)).2).2 = e :=
        congrArg Prod.snd h
      obtain ⟨hplaced, hle⟩ := ih (Prod.ext rfl hleft)
      exact ⟨⟨⟨⟨w, hspells⟩, hmonth⟩, hplaced⟩, Nat.succ_le_succ hle⟩

/-- Behind the first positions are only numbers. -/
theorem Placed.drop {m j : ℕ} {items : List Item} (h : Placed m items) (hj : m ≤ j) :
    Placed 0 (items.drop j) := by
  induction items generalizing m j with
  | nil =>
    rw [List.drop_nil]
    trivial
  | cons item items ih =>
    cases j with
    | zero =>
      obtain rfl : m = 0 := Nat.le_zero.1 hj
      exact h
    | succ j =>
      obtain ⟨c, separator⟩ := item
      refine ih h.2 ?_
      cases c with
      | number _ => exact Nat.sub_le_of_le_add hj
      | month _ => exact Nat.zero_le j

theorem value_lt {w : List UInt8} (hw : ∀ c ∈ w, isDigit c = true) : value w < 10 ^ w.length := by
  induction w using List.reverseRecOn with
  | nil => exact Nat.zero_lt_one
  | append_singleton w c ih =>
    have hc := digit_lt (hw c (List.mem_append_right _ (List.mem_singleton_self c)))
    have hlt := ih fun x hx => hw x (List.mem_append_left _ hx)
    unfold value at hlt ⊢
    rw [List.map_append, numberFrom_append, List.length_append, List.length_singleton, pow_succ]
    simp only [List.map_cons, List.map_nil, numberFrom_cons, numberFrom_nil]
    omega

/-- A number of four digits at most is not cut off. -/
theorem toNat_part {w : List UInt8} (hw : ∀ c ∈ w, isDigit c = true) (hlength : w.length ≤ 4) :
    (Component.number w).part.1.toNat = value w := by
  have hlt := value_lt hw
  have hpow : 10 ^ w.length ≤ 10 ^ 4 := Nat.pow_le_pow_right (by decide) hlength
  rw [Component.part, UInt16.toNat_ofNat', Nat.mod_eq_of_lt (by omega)]

theorem Spells.digits {w w' : List UInt8} (h : Spells (.number w) w') :
    w ≠ [] ∧ ∀ c ∈ w, isDigit c = true := by
  cases h with
  | number hne hw => exact ⟨hne, hw⟩

theorem Spells.month_le {n : ℕ} {w : List UInt8} (h : Spells (.month n) w) : 1 ≤ n ∧ n ≤ 12 := by
  cases h with
  | month _ _ hname =>
    obtain ⟨i, hi, rfl⟩ := Option.map_eq_some_iff.1 hname
    obtain ⟨hlt, -⟩ := List.findIdx?_eq_some_iff_getElem.1 hi
    exact ⟨Nat.succ_pos i, hlt⟩

/-! ## The date -/

/-- The date as the code goes on with it. -/
def DateForm.tm (f : DateForm) (now : GDS_TIMESTAMP) : Tm :=
  { Tm.zero with
    tm_year := f.yearNumber (currentYear now) (expandYear now.decode) - 1900
    tm_mon := (f.monthNumber : ℤ) - 1
    tm_mday := value f.day }

def yearPart : Option (List UInt8) → UInt16 × ℤ
  | none => (0, 0)
  | some y => (Component.number y).part

/-- The parts of a date are at the positions. -/
structure DateForm.At (f : DateForm) (s : Scanner) (positions : ℕ × ℕ × ℕ) : Prop where
  year : s.parts.getD positions.1 (0, 0) = yearPart f.year
  month : s.parts.getD positions.2.1 (0, 0) = f.month.part
  day : s.parts.getD positions.2.2 (0, 0) = (Component.number f.day).part
  year_spelled : ∀ y ∈ f.year, ∃ w, Spells (.number y) w
  month_spelled : ∃ w, Spells f.month w
  day_spelled : ∃ w, Spells (.number f.day) w

theorem DateForm.short_iff (f : DateForm) : f.Short ↔
    (∀ y ∈ f.year, y.length ≤ 4) ∧ (∀ w, f.month = .number w → w.length ≤ 2) ∧ f.day.length ≤ 2 :=
  ⟨fun h => ⟨h.year, h.month, h.day⟩, fun h => ⟨h.1, h.2.1, h.2.2⟩⟩

/-- The code rejects what is too long or missing. -/
theorem DateForm.At.check {f : DateForm} {s : Scanner} {y m d : ℕ} (h : f.At s (y, m, d)) :
    (s.description y > 4 ∨ s.description m > 2 ∨ s.description m = 0 ∨ s.description d > 2 ∨
      s.description d ≤ 0) ↔ ¬ f.Short := by
  obtain ⟨hyear, hmonth, hday, -, ⟨w, hspelled⟩, ⟨w', hspelled'⟩⟩ := h
  have hpos := List.length_pos_of_ne_nil hspelled'.digits.1
  have hyear' : s.description y > 4 ↔ ¬ ∀ y ∈ f.year, y.length ≤ 4 := by
    rw [Scanner.description, hyear]
    cases f.year with
    | none => simp [yearPart]
    | some y => simp [yearPart, Component.part]
  have hmonth' : (s.description m > 2 ∨ s.description m = 0) ↔
      ¬ ∀ w, f.month = .number w → w.length ≤ 2 := by
    rw [Scanner.description, hmonth]
    cases hf : f.month with
    | number w =>
      rw [hf] at hspelled
      have hpos' := List.length_pos_of_ne_nil hspelled.digits.1
      simp only [Component.part, Component.number.injEq, forall_eq']
      omega
    | month n => simp [Component.part, ENGLISH_MONTH]
  have hday' : (s.description d > 2 ∨ s.description d ≤ 0) ↔ ¬ f.day.length ≤ 2 := by
    rw [Scanner.description, hday]
    simp only [Component.part]
    omega
  rw [f.short_iff, not_and_or, not_and_or, ← hyear', ← hmonth', ← hday']
  tauto

theorem dateOf_at {f : DateForm} {s : Scanner} (now : GDS_TIMESTAMP) (h : f.At s (positions s)) (times : Tm) :
    dateOf now s = some times ↔ f.Short ∧ times = f.tm now := by
  unfold dateOf
  generalize positions s = position at h
  obtain ⟨y, m, d⟩ := position
  have hcheck := h.check
  dsimp only
  by_cases hshort : f.Short
  · rw [if_neg (mt hcheck.1 (not_not.2 hshort)), Option.some_inj, and_iff_right hshort, eq_comm]
    have hyear : (if s.description y = 0 then now.decode.tm_year + 1900
        else if s.description y ≤ 2 then expandYear now.decode (s.component y).toNat
        else (s.component y).toNat) = f.yearNumber (currentYear now) (expandYear now.decode) := by
      have hat := h.year
      have hspelled := h.year_spelled
      have hlength := hshort.year
      unfold Scanner.description Scanner.component DateForm.yearNumber
      rw [hat]
      cases hf : f.year with
      | none => rfl
      | some y =>
        rw [hf] at hspelled hlength
        obtain ⟨w, hw⟩ := hspelled y rfl
        have hpos := List.length_pos_of_ne_nil hw.digits.1
        have hvalue := toNat_part hw.digits.2 (hlength y rfl)
        have hne : ¬ (Component.number y).part.2 = 0 := fun heq => by
          have hzero : (y.length : ℤ) = 0 := heq
          omega
        have htwo : (Component.number y).part.2 ≤ 2 ↔ y.length ≤ 2 := by
          change (y.length : ℤ) ≤ 2 ↔ _
          norm_cast
        simp only [yearPart, hvalue, hne, htwo, if_false]
    have hmonth : (s.component m).toNat = f.monthNumber := by
      have hlength := hshort.month
      obtain ⟨w, hw⟩ := h.month_spelled
      rw [Scanner.component, h.month, DateForm.monthNumber]
      cases hf : f.month with
      | number w' =>
        rw [hf] at hw
        exact toNat_part hw.digits.2 (le_trans (hlength w' hf) (by decide))
      | month n =>
        rw [hf] at hw
        have hle := hw.month_le.2
        simp only [Component.part]
        rw [UInt16.toNat_ofNat', Nat.mod_eq_of_lt (by omega)]
    have hday : (s.component d).toNat = value f.day := by
      obtain ⟨w, hw⟩ := h.day_spelled
      rw [Scanner.component, h.day]
      exact toNat_part hw.digits.2 (le_trans hshort.day (by decide))
    rw [DateForm.tm, ← hyear, ← hmonth, ← hday]
  · rw [if_pos (hcheck.2 hshort)]
    simp [hshort]

theorem Placed.spelled_front {m : ℕ} {item : Item} {items : List Item} (h : Placed m (item :: items)) :
    ∃ w, Spells item.1 w := h.1.1

theorem Placed.tail {m : ℕ} {item : Item} {items : List Item} (h : Placed m (item :: items)) :
    Placed (monthsLeft item.1 m) items := h.2

/-- Whether a period stands behind one of the first two components. -/
def dotSeen : List Item → Bool
  | [] => false
  | [a] => a.2 = some 46
  | a :: b :: _ => a.2 = some 46 || b.2 = some 46

/-- The components from the first one on. -/
def startState : Scanner := ⟨[], false, false⟩

theorem foldl_push (items : List Item) (s : Scanner) :
    (items.foldl Scanner.push s).parts = s.parts ++ items.map (fun item => item.1.part) ∧
      (2 ≤ s.parts.length → (items.foldl Scanner.push s).dot_separator_seen = s.dot_separator_seen) := by
  induction items generalizing s with
  | nil => simp
  | cons item items ih =>
    obtain ⟨hparts, hdot⟩ := ih (s.push item)
    rw [List.foldl_cons, hparts]
    refine ⟨by simp [Scanner.push], fun hlength => ?_⟩
    rw [hdot (by rw [Scanner.push, List.length_append]; omega), Scanner.push]
    simp only [decide_eq_false (Nat.not_le_of_gt hlength), Bool.and_false, Bool.or_false]

theorem parts_startState (items : List Item) :
    (items.foldl Scanner.push startState).parts = items.map fun item => item.1.part :=
  (foldl_push items startState).1

theorem dot_startState (items : List Item) :
    (items.foldl Scanner.push startState).dot_separator_seen = dotSeen items := by
  cases items with
  | nil => rfl
  | cons a items =>
    cases items with
    | nil => simp [Scanner.push, startState, dotSeen]
    | cons b items =>
      rw [List.foldl_cons, List.foldl_cons, (foldl_push items _).2 (by simp [Scanner.push])]
      simp [Scanner.push, startState, dotSeen]

section
variable {s : Scanner} {w : List UInt8} {n : ℕ}

theorem positions_yearFirst (h : s.description 0 ≥ 3) : positions s = (0, 1, 2) := if_pos h

theorem positions_monthFirst (h : s.description 0 = ENGLISH_MONTH) : positions s = (2, 0, 1) := by
  have hlt : ¬ s.description 0 ≥ 3 := by rw [h]; decide
  rw [positions, if_neg hlt, if_pos h]

theorem positions_number (h : 1 ≤ s.description 0 ∧ s.description 0 < 3) :
    positions s = if s.description 1 = ENGLISH_MONTH ∨ s.dot_separator_seen = true then (2, 1, 0)
      else (2, 0, 1) := by
  have hmonth : s.description 0 ≠ ENGLISH_MONTH := by
    intro heq
    rw [heq] at h
    exact absurd h.1 (by decide)
  rw [positions, if_neg (not_le.2 h.2), if_neg hmonth]
  split_ifs <;> simp_all

end

/-- The year that may stand behind the day and the month is at the last of the positions. -/
theorem yearOf_parts {items : List Item} {m : ℕ} (hplaced : Placed m items) (hm : m = 0) :
    ∃ y, yearOf (items.take 1) = some y ∧ (items.map fun item => item.1.part).getD 0 (0, 0) = yearPart y ∧
      ∀ y' ∈ y, ∃ w, Spells (.number y') w := by
  cases items with
  | nil => exact ⟨none, rfl, rfl, by simp⟩
  | cons a items =>
    obtain ⟨a, separator⟩ := a
    cases a with
    | number w =>
      refine ⟨some w, rfl, rfl, ?_⟩
      rintro _ ⟨⟩
      exact hplaced.spelled_front
    | month n => exact absurd (hplaced.1.2 trivial) (by omega)

/-- The parts of a form are where the code looks for them. What is no form has no month or no day there. -/
theorem form_positions {items : List Item} (hplaced : Placed 2 items) {s : Scanner}
    (hs : s = items.foldl Scanner.push startState) :
    match dateForm (items.take 3) with
    | some f => f.At s (positions s)
    | none => s.description (positions s).2.1 = 0 ∨ s.description (positions s).2.2 ≤ 0 := by
  have hparts : s.parts = items.map fun item => item.1.part := by rw [hs, parts_startState]
  have hdot : s.dot_separator_seen = dotSeen items := by rw [hs, dot_startState]
  have hdescription : ∀ k, s.description k = ((items.map fun item => item.1.part).getD k (0, 0)).2 :=
    fun k => by rw [Scanner.description, hparts]
  clear hs
  cases items with
  | nil =>
    have hzero : ∀ k, s.description k = 0 := fun k => by rw [hdescription]; rfl
    exact .inl (hzero _)
  | cons a items =>
    obtain ⟨a, sa⟩ := a
    have hspelled := hplaced.spelled_front
    cases items with
    | nil =>
      have h1 : s.description 1 = 0 := hdescription 1
      cases a with
      | month n =>
        have h0 : s.description 0 = ENGLISH_MONTH := hdescription 0
        rw [positions_monthFirst h0]
        exact .inr h1.le
      | number w =>
        obtain ⟨w', hw⟩ := hspelled
        have hpos := List.length_pos_of_ne_nil hw.digits.1
        have h0 : s.description 0 = w.length := hdescription 0
        by_cases hyear : s.description 0 ≥ 3
        · rw [positions_yearFirst hyear]
          exact .inl h1
        · rw [positions_number ⟨by omega, by omega⟩]
          split_ifs
          · exact .inl h1
          · exact .inr h1.le
    | cons b rest =>
      obtain ⟨b, sb⟩ := b
      have hspelled' := hplaced.tail.spelled_front
      have h1 : s.description 1 = b.part.2 := hdescription 1
      have hdots : s.dot_separator_seen = (decide (sa = some 46) || decide (sb = some 46)) := hdot
      cases a with
      | month n =>
        have h0 : s.description 0 = ENGLISH_MONTH := hdescription 0
        have hnumber : ¬ b.IsMonth := fun hmonth => absurd (hplaced.tail.1.2 hmonth) (by simp [monthsLeft])
        cases b with
        | month _ => exact absurd trivial hnumber
        | number d =>
          obtain ⟨y, hy, hat, hy'⟩ := yearOf_parts hplaced.tail.tail (by simp [monthsLeft])
          have hform : dateForm (((Component.month n, sa) :: (.number d, sb) :: rest).take 3) =
              some ⟨y, .month n, d⟩ := by
            change (yearOf (rest.take 1)).map _ = _
            rw [hy]
            rfl
          rw [hform, positions_monthFirst h0]
          have hparts' : ∀ k, s.parts.getD (k + 2) (0, 0) = (rest.map fun item => item.1.part).getD k (0, 0) := by
            rw [hparts]
            exact fun _ => rfl
          exact ⟨(hparts' 0).trans hat, by rw [hparts]; rfl, by rw [hparts]; rfl, hy', hspelled, hspelled'⟩
      | number wa =>
        obtain ⟨w', hw⟩ := hspelled
        have hpos := List.length_pos_of_ne_nil hw.digits.1
        have h0 : s.description 0 = wa.length := hdescription 0
        have hparts' : ∀ k, s.parts.getD (k + 2) (0, 0) = (rest.map fun item => item.1.part).getD k (0, 0) := by
          rw [hparts]
          exact fun _ => rfl
        have hzero : (monthsLeft b (monthsLeft (.number wa) 2)) = 0 := by
          cases b <;> rfl
        by_cases hyear : 3 ≤ wa.length
        · rw [positions_yearFirst (by omega)]
          cases rest with
          | nil =>
            have hform : dateForm (((Component.number wa, sa) :: (b, sb) :: []).take 3) = none := by
              change (if 3 ≤ wa.length then _ else _) = _
              rw [if_pos hyear]
            rw [hform]
            exact .inr (hdescription 2).le
          | cons c rest =>
            obtain ⟨c, sc⟩ := c
            cases c with
            | month _ => exact absurd (hplaced.tail.tail.1.2 trivial) (by rw [hzero]; exact lt_irrefl 0)
            | number d =>
              have hform : dateForm (((Component.number wa, sa) :: (b, sb) :: (.number d, sc) :: rest).take 3) =
                  some ⟨some wa, b, d⟩ := by
                change (if 3 ≤ wa.length then _ else _) = _
                rw [if_pos hyear]
              rw [hform]
              refine ⟨by rw [hparts]; rfl, by rw [hparts]; rfl, by rw [hparts]; rfl, ?_, hspelled',
                hplaced.tail.tail.spelled_front⟩
              rintro _ ⟨⟩
              exact ⟨w', hw⟩
        · obtain ⟨y, hy, hat, hy'⟩ := yearOf_parts hplaced.tail.tail hzero
          rw [positions_number ⟨by omega, by omega⟩, h1, hdots]
          cases b with
          | month n =>
            have hform : dateForm (((Component.number wa, sa) :: (.month n, sb) :: rest).take 3) =
                some ⟨y, .month n, wa⟩ := by
              change (if 3 ≤ wa.length then _ else (yearOf (rest.take 1)).map _) = _
              rw [if_neg hyear, hy]
              rfl
            rw [hform, if_pos (.inl rfl)]
            exact ⟨(hparts' 0).trans hat, by rw [hparts]; rfl, by rw [hparts]; rfl, hy', hspelled', w', hw⟩
          | number wb =>
            have hne : ¬ (Component.number wb).part.2 = ENGLISH_MONTH := fun heq => by
              have hlength : (wb.length : ℤ) = -1 := heq
              omega
            by_cases hperiod : sa = some 46 ∨ sb = some 46
            · have hform : dateForm (((Component.number wa, sa) :: (.number wb, sb) :: rest).take 3) =
                  some ⟨y, .number wb, wa⟩ := by
                change (if 3 ≤ wa.length then _ else if sa = some 46 ∨ sb = some 46 then
                  (yearOf (rest.take 1)).map _ else _) = _
                rw [if_neg hyear, if_pos hperiod, hy]
                rfl
              rw [hform, if_pos (.inr (by simpa using hperiod))]
              exact ⟨(hparts' 0).trans hat, by rw [hparts]; rfl, by rw [hparts]; rfl, hy', hspelled', w', hw⟩
            · have hform : dateForm (((Component.number wa, sa) :: (.number wb, sb) :: rest).take 3) =
                  some ⟨y, .number wa, wb⟩ := by
                change (if 3 ≤ wa.length then _ else if sa = some 46 ∨ sb = some 46 then _ else
                  (yearOf (rest.take 1)).map _) = _
                rw [if_neg hyear, if_neg hperiod, hy]
                rfl
              rw [hform, if_neg (by simpa [hne] using hperiod)]
              exact ⟨(hparts' 0).trans hat, by rw [hparts]; rfl, by rw [hparts]; rfl, hy', ⟨w', hw⟩, hspelled'⟩

/-- The date of the components is that of their form. -/
theorem dateOf_iff {items : List Item} (hplaced : Placed 2 items) (now : GDS_TIMESTAMP) (times : Tm) :
    dateOf now (items.foldl Scanner.push startState) = some times ↔
      ∃ f, dateForm (items.take 3) = some f ∧ f.Short ∧ times = f.tm now := by
  have hpositions := form_positions hplaced rfl
  cases hform : dateForm (items.take 3) with
  | some f =>
    rw [hform] at hpositions
    rw [dateOf_at now hpositions]
    simp
  | none =>
    rw [hform] at hpositions
    generalize items.foldl Scanner.push startState = s at hpositions
    have hnone : dateOf now s = none := by
      unfold dateOf
      generalize positions s = position at hpositions
      obtain ⟨y, m, d⟩ := position
      exact if_pos (by tauto)
    rw [hnone]
    simp

/-! ## The time of day -/

section
variable {s : Scanner} {clock : List Item}

/-- The parts of a time of day stand behind three others. -/
def ClockAt (s : Scanner) (clock : List Item) : Prop :=
  ∀ k, s.parts.getD (k + 3) (0, 0) = (clock.map fun item => item.1.part).getD k (0, 0)

theorem Placed.numbers (h : Placed 0 clock) : ∀ item ∈ clock, ∃ w, item.1 = .number w ∧ Spells (.number w) w := by
  induction clock with
  | nil => simp
  | cons item clock ih =>
    obtain ⟨c, separator⟩ := item
    cases c with
    | month n => exact absurd (h.1.2 trivial) (lt_irrefl 0)
    | number w =>
      obtain ⟨w', hw⟩ := h.spelled_front
      obtain ⟨hne, hdigits⟩ := hw.digits
      rintro item hitem
      rcases List.mem_cons.1 hitem with rfl | hitem
      · exact ⟨w, rfl, .number hne hdigits⟩
      · exact ih h.tail item hitem

theorem digitsAt_spelled (hplaced : Placed 0 clock) (k : ℕ) :
    (∀ c ∈ digitsAt clock k, isDigit c = true) ∧ ((digitsAt clock k).length = 0 ↔ clock.length ≤ k) ∧
      (clock.map fun item => item.1.part).getD k (0, 0) =
        (.ofNat (value (digitsAt clock k)), ((digitsAt clock k).length : ℤ)) := by
  unfold digitsAt
  rw [List.getD_eq_getElem?_getD, List.getElem?_map]
  cases hitem : clock[k]? with
  | none => exact ⟨by simp, by simpa using hitem, rfl⟩
  | some item =>
    obtain ⟨w, hw, hspells⟩ := hplaced.numbers item (List.mem_of_getElem? hitem)
    obtain ⟨c, separator⟩ := item
    obtain rfl : c = .number w := hw
    obtain ⟨hne, hdigits⟩ := hspells.digits
    obtain ⟨hlt, -⟩ := List.getElem?_eq_some_iff.1 hitem
    have hpos := List.length_pos_of_ne_nil hne
    exact ⟨hdigits, ⟨fun hzero => absurd hzero (Nat.ne_of_gt hpos), fun hle => absurd hlt (not_lt.2 hle)⟩, rfl⟩

theorem part_clock (hat : ClockAt s clock) (hplaced : Placed 0 clock) (k : ℕ) :
    s.description (k + 3) = (digitsAt clock k).length ∧
      ((digitsAt clock k).length ≤ 4 → (s.component (k + 3)).toNat = value (digitsAt clock k)) := by
  obtain ⟨hdigits, -, hpart⟩ := digitsAt_spelled hplaced k
  unfold Scanner.description Scanner.component
  rw [hat k, hpart]
  refine ⟨rfl, fun hlength => ?_⟩
  exact toNat_part hdigits hlength

theorem toNat_gt {n m : UInt16} : n > m ↔ n.toNat > m.toNat := UInt16.lt_iff_toNat_lt

/-- The time of day is not rejected if it is one with a minute. -/
theorem not_badTime_iff (hat : ClockAt s clock) (hplaced : Placed 0 clock) :
    ¬ badTime s ↔ 2 ≤ clock.length ∧
      ((digitsAt clock 0).length ≤ 2 ∧ value (digitsAt clock 0) < 24) ∧
      ((digitsAt clock 1).length ≤ 2 ∧ value (digitsAt clock 1) < 60) ∧
      ((digitsAt clock 2).length ≤ 2 ∧ value (digitsAt clock 2) < 60) ∧ (digitsAt clock 3).length ≤ 4 := by
  obtain ⟨hd0, hc0⟩ := part_clock hat hplaced 0
  obtain ⟨hd1, hc1⟩ := part_clock hat hplaced 1
  obtain ⟨hd2, hc2⟩ := part_clock hat hplaced 2
  obtain ⟨hd3, -⟩ := part_clock hat hplaced 3
  obtain ⟨-, hmissing, -⟩ := digitsAt_spelled hplaced 0
  obtain ⟨-, hmissing', -⟩ := digitsAt_spelled hplaced 1
  unfold badTime
  rw [hd0, hd1, hd2, hd3, toNat_gt, toNat_gt, toNat_gt]
  change ¬ (_ > 23 ∨ _ > 59 ∨ _ > 59 ∨ _) ↔ _
  constructor
  · intro h
    simp only [not_or] at h
    obtain ⟨h0, h1, h2, hl0, hm0, hl1, hm1, hl2, hl3⟩ := h
    have hlength0 : (digitsAt clock 0).length ≤ 2 := by omega
    have hlength1 : (digitsAt clock 1).length ≤ 2 := by omega
    have hlength2 : (digitsAt clock 2).length ≤ 2 := by omega
    rw [hc0 (by omega)] at h0
    rw [hc1 (by omega)] at h1
    rw [hc2 (by omega)] at h2
    exact ⟨by omega, ⟨hlength0, by omega⟩, ⟨hlength1, by omega⟩, ⟨hlength2, by omega⟩, by omega⟩
  · rintro ⟨hcount, ⟨hl0, hv0⟩, ⟨hl1, hv1⟩, ⟨hl2, hv2⟩, hl3⟩
    rw [hc0 (by omega), hc1 (by omega), hc2 (by omega)]
    omega

theorem isClock_iff (hplaced : Placed 0 clock) (hcount : clock.length ≤ 4) (ticks : ℤ) :
    IsClock clock ticks ↔ 0 < clock.length ∧
      (((digitsAt clock 0).length ≤ 2 ∧ value (digitsAt clock 0) < 24) ∧
        ((digitsAt clock 1).length ≤ 2 ∧ value (digitsAt clock 1) < 60) ∧
        ((digitsAt clock 2).length ≤ 2 ∧ value (digitsAt clock 2) < 60) ∧ (digitsAt clock 3).length ≤ 4) ∧
      ticks = encode_time (value (digitsAt clock 0)) (value (digitsAt clock 1)) (value (digitsAt clock 2))
        (value (digitsAt clock 3) * 10 ^ (4 - (digitsAt clock 3).length)) := by
  constructor
  · intro h
    exact ⟨h.pos, ⟨h.hours, h.minutes, h.seconds, h.fraction⟩, h.ticks_eq⟩
  · rintro ⟨hpos, ⟨hhours, hminutes, hseconds, hfraction⟩, hticks⟩
    refine ⟨hpos, hcount, fun item hitem hmonth => ?_, hhours, hminutes, hseconds, hfraction, hticks⟩
    obtain ⟨w, hw, -⟩ := hplaced.numbers item hitem
    rw [hw] at hmonth
    exact hmonth

theorem scaleFraction_toNat (k : ℕ) (n : UInt16) (h : n.toNat * 10 ^ k < 2 ^ 16) :
    (scaleFraction k n).toNat = n.toNat * 10 ^ k := by
  induction k generalizing n with
  | zero => exact (Nat.mul_one _).symm
  | succ k ih =>
    rw [pow_succ, Nat.mul_comm (10 ^ k), ← Nat.mul_assoc] at h ⊢
    have hle : n.toNat * 10 ≤ n.toNat * 10 * 10 ^ k := Nat.le_mul_of_pos_right _ (Nat.pow_pos (by decide))
    have hmul : (n * 10).toNat = n.toNat * 10 := by
      rw [UInt16.toNat_mul]
      exact Nat.mod_eq_of_lt (lt_of_le_of_lt hle h)
    rw [scaleFraction, ih _ (by rw [hmul]; exact h), hmul]

theorem fraction_eq (hat : ClockAt s clock) (hplaced : Placed 0 clock) (hlength : (digitsAt clock 3).length ≤ 4) :
    (scaleFraction (4 - s.description 6).toNat (s.component 6)).toNat =
      value (digitsAt clock 3) * 10 ^ (4 - (digitsAt clock 3).length) := by
  obtain ⟨hdescription, hcomponent⟩ := part_clock hat hplaced 3
  have hlt := value_lt (digitsAt_spelled hplaced 3).1
  have hsum : (digitsAt clock 3).length + (4 - (digitsAt clock 3).length) = 4 := by omega
  have hbound : value (digitsAt clock 3) * 10 ^ (4 - (digitsAt clock 3).length) < 10 ^ 4 := by
    calc value (digitsAt clock 3) * 10 ^ (4 - (digitsAt clock 3).length)
        < 10 ^ (digitsAt clock 3).length * 10 ^ (4 - (digitsAt clock 3).length) :=
          Nat.mul_lt_mul_of_pos_right hlt (Nat.pow_pos (by decide))
      _ = 10 ^ 4 := by rw [← pow_add, hsum]
  have hcount : (4 - s.description 6).toNat = 4 - (digitsAt clock 3).length := by
    rw [hdescription]
    omega
  rw [hcount, scaleFraction_toNat, hcomponent hlength]
  rw [hcomponent hlength]
  exact lt_trans hbound (by decide)

end

/-! ## The timestamp -/

/-- The time of day is one. -/
structure HasTime (times : Tm) : Prop where
  hour : 0 ≤ times.tm_hour ∧ times.tm_hour < 24
  minute : 0 ≤ times.tm_min ∧ times.tm_min < 60
  second : 0 ≤ times.tm_sec ∧ times.tm_sec < 60

theorem encode_time_range {times : Tm} (h : HasTime times) {fraction : ℤ}
    (hfraction : 0 ≤ fraction ∧ fraction < ISC_TIME_SECONDS_PRECISION) :
    0 ≤ encode_time times.tm_hour times.tm_min times.tm_sec fraction ∧
      encode_time times.tm_hour times.tm_min times.tm_sec fraction < 24 * 3600 * ISC_TIME_SECONDS_PRECISION := by
  obtain ⟨⟨hhour, hhour'⟩, ⟨hmin, hmin'⟩, hsec, hsec'⟩ := h
  rw [ISC_TIME_SECONDS_PRECISION] at hfraction ⊢
  rw [encode_time, ISC_TIME_SECONDS_PRECISION]
  omega

/-- What is accepted is a date that there is. -/
theorem accepted_iff {times : Tm} (h : HasTime times) :
    ((GDS_TIMESTAMP.encode times).isValid ∧ ¬ Differs times (GDS_TIMESTAMP.encode times).decode) ↔
      ∃ d : Date, times.IsDate d ∧ d.year ≤ 9999 := by
  have hfraction : (0 : ℤ) ≤ 0 ∧ (0 : ℤ) < ISC_TIME_SECONDS_PRECISION := ⟨le_rfl, by decide⟩
  have hrange := encode_time_range h hfraction
  have htime := decode_encode_time h.hour.1 h.minute h.second hfraction
  constructor
  · rintro ⟨⟨⟨hmin, hmax⟩, -⟩, hsame⟩
    obtain ⟨d, hnumber, hdecode, -⟩ := encode_decode _ hmin
    refine ⟨d, ?_, (year_le_iff d).2 (hnumber ▸ hmax)⟩
    unfold Differs at hsame
    simp only [not_or, not_not] at hsame
    obtain ⟨hyear, hmon, hmday, -⟩ := hsame
    have hdate : decode_date (encode_date times) = Tm.ofDate d := hdecode
    constructor
    · rw [hmday]
      exact congrArg Tm.tm_mday hdate
    · rw [hmon]
      exact congrArg Tm.tm_mon hdate
    · rw [hyear]
      exact congrArg Tm.tm_year hdate
  · rintro ⟨d, hdate, hyear⟩
    have hencode := encode_date_eq hdate
    have hle := (year_le_iff d).1 hyear
    have hdecode := decode_number d
    rw [← hencode] at hdecode
    refine ⟨⟨⟨?_, ?_⟩, hrange.2⟩, ?_⟩
    · change MIN_DATE ≤ encode_date times
      rw [hencode]
      omega
    · change encode_date times ≤ MAX_DATE
      rw [hencode]
      exact hle
    · unfold Differs GDS_TIMESTAMP.decode GDS_TIMESTAMP.encode
      simp only [htime, hdecode, not_or, not_not]
      exact ⟨hdate.year, hdate.mon, hdate.mday, trivial, trivial, trivial⟩

/-- The end of the conversion, when the time of day is put in. -/
theorem convert_eq (expect_type : EXPECT_DATETIME) (i : ℕ) (s : Scanner) (times : Tm) {times' : Tm}
    (htimes : times' = if i > 2 then
        { times with
          tm_hour := (s.component 3).toNat
          tm_min := (s.component 4).toNat
          tm_sec := (s.component 5).toNat }
      else times) (hbad : ¬ (i > 2 ∧ badTime s)) (ts : GDS_TIMESTAMP) :
    convert expect_type i s times = .ok ts ↔
      ((GDS_TIMESTAMP.encode times').isValid ∧
        (expect_type = .expect_sql_time ∨ ¬ Differs times' (GDS_TIMESTAMP.encode times').decode)) ∧
      ts = ⟨encode_date times', encode_time times'.tm_hour times'.tm_min times'.tm_sec
        (scaleFraction (4 - s.description 6).toNat (s.component 6)).toNat⟩ := by
  have hticks : ∀ f : ℤ, encode_time times'.tm_hour times'.tm_min times'.tm_sec 0 + f =
      encode_time times'.tm_hour times'.tm_min times'.tm_sec f := by
    intro f
    rw [encode_time, encode_time, add_zero]
  unfold convert
  rw [if_neg hbad, ← htimes]
  dsimp only
  by_cases hvalid : (GDS_TIMESTAMP.encode times').isValid
  · rw [if_neg (not_not.2 hvalid), ← hticks]
    by_cases hdiffers : expect_type ≠ .expect_sql_time ∧ Differs times' (GDS_TIMESTAMP.encode times').decode
    · rw [if_pos hdiffers]
      refine iff_of_false (by simp) fun h => ?_
      exact h.1.2.elim hdiffers.1 fun hsame => hsame hdiffers.2
    · rw [if_neg hdiffers, and_iff_right, Except.ok.injEq, eq_comm]
      · rfl
      · refine ⟨hvalid, ?_⟩
        by_cases htime : expect_type = .expect_sql_time
        · exact .inl htime
        · exact .inr fun h => hdiffers ⟨htime, h⟩
  · rw [if_pos hvalid]
    exact iff_of_false (by simp) fun h => hvalid h.1.1

/-! ## What is accepted -/

theorem index_closed {items : List Item} (h : Closed items) : index items [] + 1 = items.length := by
  induction items with
  | nil => exact h.elim
  | cons item items ih =>
    cases items with
    | nil =>
      have hnone : item.2 = none := h
      change (if item.2 = none ∧ [] = [] then 0 else 1) + 1 = 1
      rw [if_pos ⟨hnone, rfl⟩]
    | cons item' items => exact congrArg (· + 1) (ih h)

theorem index_open {items : List Item} {e : List UInt8} (h : ¬ (Closed items ∧ e = [])) :
    index items e = items.length := by
  induction items with
  | nil => rfl
  | cons item items ih =>
    cases items with
    | nil => exact if_neg fun hclosed => h hclosed
    | cons item' items => exact congrArg (· + 1) (ih h)

theorem index_cases (items : List Item) (e : List UInt8) :
    (Closed items ∧ e = []) ∧ index items e + 1 = items.length ∨
      ¬ (Closed items ∧ e = []) ∧ index items e = items.length := by
  by_cases hclosed : Closed items ∧ e = []
  · refine .inl ⟨hclosed, ?_⟩
    rw [hclosed.2]
    exact index_closed hclosed.1
  · exact .inr ⟨hclosed, index_open hclosed⟩

theorem dateForm_length {items : List Item} {f : DateForm} (h : dateForm items = some f) :
    items.length = 2 ∨ items.length = 3 := by
  have hyear : ∀ {rest : List Item} {g : Option (List UInt8) → DateForm}, (yearOf rest).map g = some f →
      rest.length = 0 ∨ rest.length = 1 := by
    intro rest g hg
    match rest, hg with
    | [], _ => exact .inl rfl
    | [_], _ => exact .inr rfl
    | _ :: _ :: _, hg => simp [yearOf] at hg
  match items, h with
  | (.month n, _) :: (.number d, _) :: rest, h =>
    have hlength := hyear h
    simp only [List.length_cons]
    omega
  | (.number a, _) :: (b, _) :: rest, h =>
    simp only [List.length_cons]
    simp only [dateForm] at h
    by_cases hlong : 3 ≤ a.length
    · rw [if_pos hlong] at h
      match rest, h with
      | [_], _ => exact .inr rfl
      | [], h => simp at h
      | _ :: _ :: _, h => simp at h
    · rw [if_neg hlong] at h
      cases b with
      | month n =>
        have hlength := hyear h
        omega
      | number b =>
        dsimp only at h
        split_ifs at h with hperiod
        · have hlength := hyear h
          omega
        · have hlength := hyear h
          omega
  | [], h => simp [dateForm] at h
  | [(.month n, _)], h => simp [dateForm] at h
  | [(.number a, _)], h => simp [dateForm] at h
  | (.month n, _) :: (.month _, _) :: rest, h => simp [dateForm] at h

/-- A date, and a time of day behind three components. -/
theorem denotes_iff {current : ℤ} {expand : ℤ → ℤ} {expect_type : EXPECT_DATETIME}
    (hexpect : expect_type ≠ .expect_sql_time) (items : List Item) (ts : GDS_TIMESTAMP) :
    Denotes current expand expect_type items ts ↔ ∃ f d, dateForm (items.take 3) = some f ∧ f.Short ∧
      f.Denotes current expand d ∧ (items.length ≤ 3 ∧ ts = ⟨d.number + MIN_DATE, 0⟩ ∨
        3 < items.length ∧ expect_type = .expect_timestamp ∧ ∃ ticks, IsClock (items.drop 3) ticks ∧
          ts = ⟨d.number + MIN_DATE, ticks⟩) := by
  constructor
  · rintro (⟨-, hform, hshort, hdate⟩ | ⟨hthree, hform, hshort, hdate, hclock⟩ | ⟨hclock⟩)
    · have hlength := dateForm_length hform
      refine ⟨_, _, ?_, hshort, hdate, .inl ⟨by omega, rfl⟩⟩
      rw [List.take_of_length_le (by omega)]
      exact hform
    · refine ⟨_, _, ?_, hshort, hdate, .inr ⟨?_, rfl, _, ?_, rfl⟩⟩
      · rw [List.take_left' hthree]
        exact hform
      · have hpos := hclock.pos
        rw [List.length_append]
        omega
      · rw [List.drop_left' hthree]
        exact hclock
    · exact absurd rfl hexpect
  · rintro ⟨f, d, hform, hshort, hdate, ⟨hlength, rfl⟩ | ⟨hlength, rfl, ticks, hclock, rfl⟩⟩
    · rw [List.take_of_length_le hlength] at hform
      exact .date hexpect hform hshort hdate
    · have hthree : (items.take 3).length = 3 := by
        rw [List.length_take]
        omega
      have hdenotes := Denotes.timestamp hthree hform hshort hdate hclock
      rwa [List.take_append_drop] at hdenotes

theorem denotes_time_iff {current : ℤ} {expand : ℤ → ℤ} (items : List Item) (ts : GDS_TIMESTAMP) :
    Denotes current expand .expect_sql_time items ts ↔ ∃ ticks, IsClock items ticks ∧ ts = ⟨baseDate, ticks⟩ := by
  constructor
  · rintro (⟨hexpect, -, -, -⟩ | - | ⟨hclock⟩)
    · exact absurd rfl hexpect
    · exact ⟨_, hclock, rfl⟩
  · rintro ⟨ticks, hclock, rfl⟩
    exact .time hclock

theorem isDate_iff (f : DateForm) (now : GDS_TIMESTAMP) (d : Date) :
    (f.tm now).IsDate d ∧ d.year ≤ 9999 ↔ f.Denotes (currentYear now) (expandYear now.decode) d := by
  constructor
  · rintro ⟨⟨hday, hmonth, hyear⟩, hle⟩
    have hday' : (value f.day : ℤ) = d.day := hday
    have hmonth' : (f.monthNumber : ℤ) - 1 = d.month - 1 := hmonth
    have hyear' : f.yearNumber (currentYear now) (expandYear now.decode) - 1900 = d.year - 1900 := hyear
    exact ⟨by omega, hle, by omega, by omega⟩
  · rintro ⟨hyear, hle, hmonth, hday⟩
    refine ⟨⟨?_, ?_, ?_⟩, hle⟩
    · exact congrArg _ hday.symm
    · exact congrArg (fun n : ℕ => (n : ℤ) - 1) hmonth.symm
    · exact congrArg (· - 1900) hyear.symm

section
variable {s : Scanner} {clock : List Item} {times : Tm} {expect_type : EXPECT_DATETIME} {i : ℕ}

/-- The date with the time of day of the components. -/
def Scanner.withTime (s : Scanner) (times : Tm) : Tm :=
  { times with
    tm_hour := (s.component 3).toNat
    tm_min := (s.component 4).toNat
    tm_sec := (s.component 5).toNat }

theorem withTime_eq (hat : ClockAt s clock) (hplaced : Placed 0 clock) (hcount : clock.length ≤ 4)
    (hgood : ¬ badTime s) (times : Tm) :
    HasTime (s.withTime times) ∧ 2 ≤ clock.length ∧ IsClock clock (encode_time (s.withTime times).tm_hour
      (s.withTime times).tm_min (s.withTime times).tm_sec
      (scaleFraction (4 - s.description 6).toNat (s.component 6)).toNat) := by
  obtain ⟨htwo, hhours, hminutes, hseconds, hfraction⟩ := (not_badTime_iff hat hplaced).1 hgood
  have hhour : (s.withTime times).tm_hour = value (digitsAt clock 0) :=
    congrArg _ ((part_clock hat hplaced 0).2 (by omega))
  have hminute : (s.withTime times).tm_min = value (digitsAt clock 1) :=
    congrArg _ ((part_clock hat hplaced 1).2 (by omega))
  have hsecond : (s.withTime times).tm_sec = value (digitsAt clock 2) :=
    congrArg _ ((part_clock hat hplaced 2).2 (by omega))
  refine ⟨⟨?_, ?_, ?_⟩, htwo, ?_⟩
  · rw [hhour]
    omega
  · rw [hminute]
    omega
  · rw [hsecond]
    omega
  · rw [isClock_iff hplaced hcount, hhour, hminute, hsecond, fraction_eq hat hplaced hfraction]
    refine ⟨by omega, ⟨hhours, hminutes, hseconds, hfraction⟩, ?_⟩
    push_cast
    rfl

/-- With a time of day. -/
theorem convert_clock (hexpect : expect_type ≠ .expect_sql_time) (hat : ClockAt s clock) (hplaced : Placed 0 clock)
    (hcount : clock.length ≤ 4) (hi : i > 2) (ts : GDS_TIMESTAMP) :
    convert expect_type i s times = .ok ts ↔ 2 ≤ clock.length ∧ ∃ d : Date, (times.IsDate d ∧ d.year ≤ 9999) ∧
      ∃ ticks, IsClock clock ticks ∧ ts = ⟨d.number + MIN_DATE, ticks⟩ := by
  by_cases hbad : badTime s
  · have hrejects : convert expect_type i s times = .error .convert_error := if_pos ⟨hi, hbad⟩
    rw [hrejects]
    refine iff_of_false (by simp) ?_
    rintro ⟨htwo, d, -, ticks, hclock, -⟩
    exact (not_badTime_iff hat hplaced).2
      ⟨htwo, hclock.hours, hclock.minutes, hclock.seconds, hclock.fraction⟩ hbad
  · obtain ⟨htime, htwo, hclock⟩ := withTime_eq hat hplaced hcount hbad times
    rw [convert_eq expect_type i s times (if_pos hi).symm (fun h => hbad h.2), or_iff_right hexpect]
    change ((GDS_TIMESTAMP.encode (s.withTime times)).isValid ∧
      ¬ Differs (s.withTime times) (GDS_TIMESTAMP.encode (s.withTime times)).decode) ∧ _ ↔ _
    rw [accepted_iff htime]
    constructor
    · rintro ⟨⟨d, hdate, hyear⟩, rfl⟩
      refine ⟨htwo, d, ⟨⟨hdate.mday, hdate.mon, hdate.year⟩, hyear⟩, _, hclock, ?_⟩
      rw [← encode_date_eq hdate]
      rfl
    · rintro ⟨-, d, ⟨hdate, hyear⟩, ticks, hclock', rfl⟩
      have hdate' : (s.withTime times).IsDate d := ⟨hdate.mday, hdate.mon, hdate.year⟩
      refine ⟨⟨d, hdate', hyear⟩, ?_⟩
      rw [← encode_date_eq hdate', hclock'.ticks_eq]
      exact congrArg _ hclock.ticks_eq.symm

/-- With a date only. -/
theorem convert_date (hexpect : expect_type ≠ .expect_sql_time) (htime : times.tm_hour = 0 ∧ times.tm_min = 0 ∧
    times.tm_sec = 0) (hpart : s.parts.getD 6 (0, 0) = (0, 0)) (hi : ¬ i > 2) (ts : GDS_TIMESTAMP) :
    convert expect_type i s times = .ok ts ↔
      ∃ d : Date, (times.IsDate d ∧ d.year ≤ 9999) ∧ ts = ⟨d.number + MIN_DATE, 0⟩ := by
  obtain ⟨hhour, hmin, hsec⟩ := htime
  have hhas : HasTime times := ⟨by omega, by omega, by omega⟩
  have hfraction : (scaleFraction (4 - s.description 6).toNat (s.component 6)).toNat = 0 := by
    rw [Scanner.description, Scanner.component, hpart]
    rfl
  rw [convert_eq expect_type i s times (if_neg hi).symm (fun h => hi h.1), or_iff_right hexpect, accepted_iff hhas,
    hfraction, hhour, hmin, hsec]
  constructor
  · rintro ⟨⟨d, hdate, hyear⟩, rfl⟩
    refine ⟨d, ⟨hdate, hyear⟩, ?_⟩
    rw [← encode_date_eq hdate]
    rfl
  · rintro ⟨d, ⟨hdate, hyear⟩, rfl⟩
    refine ⟨⟨d, hdate, hyear⟩, ?_⟩
    rw [← encode_date_eq hdate]
    rfl

/-- With a time of day only. -/
theorem convert_time (hat : ClockAt s clock) (hplaced : Placed 0 clock) (hcount : clock.length ≤ 4) (hi : i > 2)
    (ts : GDS_TIMESTAMP) :
    convert .expect_sql_time i s { Tm.zero with tm_mday := 1 } = .ok ts ↔
      2 ≤ clock.length ∧ ∃ ticks, IsClock clock ticks ∧ ts = ⟨baseDate, ticks⟩ := by
  by_cases hbad : badTime s
  · have hrejects : convert .expect_sql_time i s { Tm.zero with tm_mday := 1 } = .error .convert_error :=
      if_pos ⟨hi, hbad⟩
    rw [hrejects]
    refine iff_of_false (by simp) ?_
    rintro ⟨htwo, ticks, hclock, -⟩
    exact (not_badTime_iff hat hplaced).2
      ⟨htwo, hclock.hours, hclock.minutes, hclock.seconds, hclock.fraction⟩ hbad
  · obtain ⟨htime, htwo, hclock⟩ := withTime_eq hat hplaced hcount hbad { Tm.zero with tm_mday := 1 }
    have hdate : MIN_DATE ≤ baseDate ∧ baseDate ≤ MAX_DATE := by decide
    have hfraction : (0 : ℤ) ≤ 0 ∧ (0 : ℤ) < ISC_TIME_SECONDS_PRECISION := ⟨le_rfl, by decide⟩
    have hvalid : (GDS_TIMESTAMP.encode (s.withTime { Tm.zero with tm_mday := 1 })).isValid :=
      ⟨hdate, (encode_time_range htime hfraction).2⟩
    rw [convert_eq .expect_sql_time i s _ (if_pos hi).symm (fun h => hbad h.2), and_iff_right ⟨hvalid, .inl rfl⟩]
    constructor
    · rintro rfl
      exact ⟨htwo, _, hclock, rfl⟩
    · rintro ⟨-, ticks, hclock', rfl⟩
      rw [hclock'.ticks_eq]
      exact congrArg (GDS_TIMESTAMP.mk baseDate) hclock.ticks_eq.symm

end

/-- The state in front of the first component. -/
def initial (expect_type : EXPECT_DATETIME) : Scanner :=
  ⟨List.replicate (start_component expect_type) (0, 0), false, false⟩

theorem clockAt_date (items : List Item) : ClockAt (items.foldl Scanner.push startState) (items.drop 3) := by
  intro k
  rw [parts_startState, List.map_drop, List.getD_eq_getElem?_getD, List.getD_eq_getElem?_getD, List.getElem?_drop,
    Nat.add_comm]

theorem clockAt_time (items : List Item) :
    ClockAt (items.foldl Scanner.push (initial .expect_sql_time)) items := by
  intro k
  rw [(foldl_push items _).1, List.getD_eq_getElem?_getD, List.getD_eq_getElem?_getD,
    List.getElem?_append_right (Nat.le_add_left 3 k)]
  rfl

/-- The components are accepted as a time if they are one with a minute. -/
theorem finish_time (now : GDS_TIMESTAMP) {items : List Item} {e : List UInt8} (hplaced : Placed 0 items)
    (hcount : items.length ≤ 4) (ts : GDS_TIMESTAMP) :
    finish now .expect_sql_time (3 + index items e) (items.foldl Scanner.push (initial .expect_sql_time)) e =
        .ok ts ↔
      (∀ c ∈ e, isTrailing c = true) ∧ 2 ≤ items.length ∧ ∃ ticks, IsClock items ticks ∧ ts = ⟨baseDate, ticks⟩ := by
  have hindex : items.length - 1 ≤ index items e := by
    have hcases := index_cases items e
    omega
  unfold finish
  have hdate : ¬ (EXPECT_DATETIME.expect_sql_time = .expect_sql_date ∧ 3 + index items e > 2) := by simp
  by_cases hone : 3 + index items e - start_component .expect_sql_time < 1
  · rw [if_pos hone]
    refine iff_of_false (by simp) ?_
    rintro ⟨-, htwo, -⟩
    change 3 + index items e - 3 < 1 at hone
    omega
  rw [if_neg hone, if_neg hdate]
  by_cases htrailing : ∀ c ∈ e, isTrailing c = true
  · rw [if_neg (not_not.2 htrailing), if_pos rfl,
      convert_time (clockAt_time items) hplaced hcount (by omega), and_iff_right htrailing]
  · rw [if_pos htrailing]
    exact iff_of_false (by simp) fun h => htrailing h.1

/-- The components are accepted as a date, or as a date and a time with a minute. -/
theorem finish_date (now : GDS_TIMESTAMP) {expect_type : EXPECT_DATETIME}
    (hexpect : expect_type ≠ .expect_sql_time) {items : List Item} {e : List UInt8} (hplaced : Placed 2 items)
    (hcount : items.length ≤ 7) (ts : GDS_TIMESTAMP) :
    finish now expect_type (index items e) (items.foldl Scanner.push startState) e = .ok ts ↔
      (∀ c ∈ e, isTrailing c = true) ∧ items.length ≠ 4 ∧ (Closed items ∧ e = [] ∨ items.length ≠ 3) ∧
        Denotes (currentYear now) (expandYear now.decode) expect_type items ts := by
  have hstart : start_component expect_type = 0 := if_neg hexpect
  have hclock := clockAt_date items
  have hplaced' : Placed 0 (items.drop 3) := hplaced.drop (by decide)
  have hcount' : (items.drop 3).length ≤ 4 := by
    rw [List.length_drop]
    omega
  rw [denotes_iff hexpect]
  unfold finish
  rw [hstart, if_neg hexpect]
  by_cases htrailing : ∀ c ∈ e, isTrailing c = true
  swap
  · rw [if_pos htrailing]
    refine iff_of_false ?_ fun h => htrailing h.1
    split_ifs <;> simp
  rw [if_neg (not_not.2 htrailing), and_iff_right htrailing]
  cases hform : dateForm (items.take 3) with
  | none =>
    have hnone : dateOf now (items.foldl Scanner.push startState) = none := by
      cases htimes : dateOf now (items.foldl Scanner.push startState) with
      | none => rfl
      | some times =>
        obtain ⟨f, hf, -⟩ := (dateOf_iff hplaced now times).1 htimes
        rw [hform] at hf
        cases hf
    simp only [hnone]
    refine iff_of_false ?_ ?_
    · split_ifs <;> simp
    · rintro ⟨-, -, f, d, hf, -⟩
      cases hf
  | some f =>
    have hlength := dateForm_length hform
    rw [List.length_take] at hlength
    have hindex := index_cases items e
    by_cases hshort : f.Short
    swap
    · have hnone : dateOf now (items.foldl Scanner.push startState) = none := by
        cases htimes : dateOf now (items.foldl Scanner.push startState) with
        | none => rfl
        | some times =>
          obtain ⟨f', hf, hshort', -⟩ := (dateOf_iff hplaced now times).1 htimes
          rw [hform] at hf
          cases hf
          exact absurd hshort' hshort
      simp only [hnone]
      refine iff_of_false ?_ ?_
      · split_ifs <;> simp
      · rintro ⟨-, -, f', d, hf, hshort', -⟩
        cases hf
        exact hshort hshort'
    have htimes := (dateOf_iff hplaced now _).2 ⟨f, hform, hshort, rfl⟩
    have hone : ¬ index items e - 0 < 1 := by omega
    simp only [htimes]
    rw [if_neg hone]
    by_cases hthree : items.length ≤ 3
    · by_cases hi : index items e > 2
      · have hopen : ¬ (Closed items ∧ e = [] ∨ items.length ≠ 3) := by
          rcases hindex with ⟨-, hindex⟩ | ⟨hopen, hindex⟩
          · omega
          · rintro (hclosed | hne)
            · exact hopen hclosed
            · omega
        refine iff_of_false ?_ fun h => hopen h.2.1
        split_ifs with hdate
        · simp
        · rw [convert_clock hexpect hclock hplaced' hcount' hi]
          rintro ⟨htwo, -⟩
          rw [List.length_drop] at htwo
          omega
      · have hgood : items.length ≠ 4 ∧ (Closed items ∧ e = [] ∨ items.length ≠ 3) := by
          rcases hindex with ⟨hclosed, hindex⟩ | ⟨-, hindex⟩
          · exact ⟨by omega, .inl hclosed⟩
          · exact ⟨by omega, .inr (by omega)⟩
        have hdate : ¬ (expect_type = .expect_sql_date ∧ index items e > 2) := fun h => hi h.2
        have hpart : (items.foldl Scanner.push startState).parts.getD 6 (0, 0) = (0, 0) := by
          rw [hclock 3, List.drop_of_length_le hthree]
          rfl
        rw [if_neg hdate, convert_date hexpect ⟨rfl, rfl, rfl⟩ hpart hi, and_iff_right hgood.1,
          and_iff_right hgood.2]
        simp only [isDate_iff]
        constructor
        · rintro ⟨d, hdenotes, rfl⟩
          exact ⟨f, d, rfl, hshort, hdenotes, .inl ⟨hthree, rfl⟩⟩
        · rintro ⟨f', d, hf, -, hdenotes, ⟨-, rfl⟩ | ⟨hlt, -⟩⟩
          · cases hf
            exact ⟨d, hdenotes, rfl⟩
          · omega
    · have hi : index items e > 2 := by omega
      by_cases hdate : expect_type = .expect_sql_date
      · rw [if_pos ⟨hdate, hi⟩]
        refine iff_of_false (by simp) ?_
        rintro ⟨-, -, f', d, -, -, -, ⟨hle, -⟩ | ⟨-, htimestamp, -⟩⟩
        · exact hthree hle
        · rw [hdate] at htimestamp
          cases htimestamp
      · have htimestamp : expect_type = .expect_timestamp := by
          cases expect_type with
          | expect_timestamp => rfl
          | expect_sql_date => exact absurd rfl hdate
          | expect_sql_time => exact absurd rfl hexpect
        rw [if_neg fun h => hdate h.1, convert_clock hexpect hclock hplaced' hcount' hi, List.length_drop]
        simp only [isDate_iff]
        constructor
        · rintro ⟨htwo, d, hdenotes, ticks, hticks, rfl⟩
          exact ⟨by omega, .inr (by omega), f, d, rfl, hshort, hdenotes,
            .inr ⟨by omega, htimestamp, ticks, hticks, rfl⟩⟩
        · rintro ⟨hfour, -, f', d, hf, -, hdenotes, ⟨hle, -⟩ | ⟨-, -, ticks, hticks, rfl⟩⟩
          · exact absurd hle hthree
          · cases hf
            exact ⟨by omega, d, hdenotes, ticks, hticks, rfl⟩

end FirebirdCore.Cvt.DateTime
