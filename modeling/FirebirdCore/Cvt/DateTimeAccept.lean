import FirebirdCore.Cvt.DateTimeValue

/-!
# Accepted strings

The strings that `string_to_datetime` reads as they are documented, and the four kinds of strings that it
does not.
-/
namespace FirebirdCore.Cvt.DateTime
open FirebirdCore.TimeStamp FirebirdCore.Gregorian

/-- The positions for components. -/
def room (expect_type : EXPECT_DATETIME) : ℕ := 7 - start_component expect_type

/-- The year of the date has one or two digits. -/
def TwoDigitYear (items : List Item) (year : ℤ) : Prop :=
  ∃ f y, dateForm (items.take 3) = some f ∧ f.year = some y ∧ y.length ≤ 2 ∧ year = value y

/-- The strings that are not read as they are documented. -/
inductive Mistaken (now : GDS_TIMESTAMP) (expect_type : EXPECT_DATETIME) (s : List UInt8) : Prop where
  /-- A special word stands behind other components, or it is followed by one character that is no blank,
  or by null characters. -/
  | word {items : List Item} {w rest name : List UInt8} {ts : GDS_TIMESTAMP}
      (hread : readItems (room expect_type) (months expect_type) s = (items, w ++ rest))
      (hroom : items.length < room expect_type) (hmonth : ∀ item ∈ items, ¬ item.1.IsMonth)
      (hname : w.map UPPER = name) (hspecial : Special now expect_type name ts)
      (hends : ∀ c ∈ rest.head?, isLetter c = false) (htrailing : ∀ c ∈ rest.drop 1, isTrailing c = true)
      (hstray : items ≠ [] ∨ ∃ c ∈ rest, isBlank c = false)
  /-- A separator stands behind the last component, or null characters behind the last of all positions. -/
  | mark {items : List Item} {e : List UInt8} {ts : GDS_TIMESTAMP}
      (hread : readItems (room expect_type) (months expect_type) s = (items, e))
      (hend : e = [] ∨ items.length = room expect_type) (htrailing : ∀ c ∈ e, isTrailing c = true)
      (hmark : ¬ (Closed items ∧ e = [])) (hthree : start_component expect_type + items.length ≠ 3)
      (hfour : start_component expect_type + items.length ≠ 4)
      (hdenotes : Denotes (currentYear now) (expandYear now.decode) expect_type items ts)
  /-- The hour has no minute. -/
  | hour {items : List Item} {ts : GDS_TIMESTAMP} (hwritten : Written (months expect_type) items s)
      (hfour : start_component expect_type + items.length = 4)
      (hdenotes : Denotes (currentYear now) (nearest (currentYear now)) expect_type items ts)
  /-- A year of one or two digits is not the nearest one. -/
  | year {items : List Item} {year : ℤ} {ts : GDS_TIMESTAMP} (hexpect : expect_type ≠ .expect_sql_time)
      (hwritten : Written (months expect_type) items s)
      (hfour : start_component expect_type + items.length ≠ 4) (hyear : TwoDigitYear items year)
      (hne : nearest (currentYear now) year ≠ expandYear now.decode year)
      (hdenotes : Denotes (currentYear now) (nearest (currentYear now)) expect_type items ts ∨
        Denotes (currentYear now) (expandYear now.decode) expect_type items ts)

section
variable {now : GDS_TIMESTAMP} {expect_type : EXPECT_DATETIME} {s : List UInt8} {items : List Item}
  {e name : List UInt8} {ts : GDS_TIMESTAMP} {current : ℤ} {expand expand' : ℤ → ℤ}

/-! ## What is denoted -/

theorem Denotes.length (h : Denotes current expand expect_type items ts) :
    0 < items.length ∧ items.length ≤ room expect_type := by
  cases h with
  | date hexpect hform _ _ =>
    have hlength := dateForm_length hform
    rw [room, start_component, if_neg hexpect]
    omega
  | timestamp hthree _ _ _ hclock =>
    have hcount := hclock.count
    rw [List.length_append, room, start_component]
    simp only [reduceCtorEq, if_false]
    omega
  | time hclock => exact ⟨hclock.pos, hclock.count⟩

theorem DateForm.yearNumber_congr {f : DateForm} (h : ∀ y, f.year = some y → y.length ≤ 2 →
    expand (value y) = expand' (value y)) : f.yearNumber current expand = f.yearNumber current expand' := by
  unfold yearNumber
  cases hyear : f.year with
  | none => rfl
  | some y =>
    dsimp only
    split_ifs with hshort
    · exact h y hyear hshort
    · rfl

/-- Only the expansion of the year that stands there matters. -/
theorem Denotes.congr (h : Denotes current expand expect_type items ts)
    (hexpand : expect_type ≠ .expect_sql_time → ∀ year, TwoDigitYear items year → expand year = expand' year) :
    Denotes current expand' expect_type items ts := by
  by_cases hexpect : expect_type = .expect_sql_time
  · subst hexpect
    rw [denotes_time_iff] at h ⊢
    exact h
  · rw [denotes_iff hexpect] at h ⊢
    obtain ⟨f, d, hform, hshort, hdate, hrest⟩ := h
    refine ⟨f, d, hform, hshort, ⟨?_, hdate.year_le, hdate.month, hdate.day⟩, hrest⟩
    rw [hdate.year]
    exact DateForm.yearNumber_congr fun y hyear hlength => hexpand hexpect _ ⟨f, y, hform, hyear, hlength, rfl⟩

/-- With different expansions of the year, the timestamps are different. -/
theorem Denotes.year_eq (h : Denotes current expand expect_type items ts)
    (h' : Denotes current expand' expect_type items ts) (hexpect : expect_type ≠ .expect_sql_time) {year : ℤ}
    (hyear : TwoDigitYear items year) : expand year = expand' year := by
  rw [denotes_iff hexpect] at h h'
  obtain ⟨f, d, hform, -, hdate, hts⟩ := h
  obtain ⟨f', d', hform', -, hdate', hts'⟩ := h'
  obtain ⟨f'', y, hform'', hsome, hlength, rfl⟩ := hyear
  rw [hform] at hform' hform''
  cases hform'
  cases hform''
  have hnumber : ∀ {d : Date}, (items.length ≤ 3 ∧ ts = ⟨d.number + MIN_DATE, 0⟩ ∨
      3 < items.length ∧ expect_type = .expect_timestamp ∧ ∃ ticks, IsClock (items.drop 3) ticks ∧
        ts = ⟨d.number + MIN_DATE, ticks⟩) → ts.timestamp_date = d.number + MIN_DATE := by
    rintro d (⟨-, rfl⟩ | ⟨-, -, ticks, -, rfl⟩)
    · rfl
    · rfl
  have heq := (hnumber hts).symm.trans (hnumber hts')
  obtain rfl : d = d' := Date.number_inj (by omega)
  have hyears := hdate.year.symm.trans hdate'.year
  rw [DateForm.yearNumber, DateForm.yearNumber, hsome] at hyears
  simpa only [hlength, if_true] using hyears

/-! ## Special words -/

def SPECIAL_WORDS : List (List UInt8) := [NOW, TODAY, TOMORROW, YESTERDAY]

theorem Special.mem (h : Special now expect_type name ts) : name ∈ SPECIAL_WORDS := by
  cases h <;> simp [SPECIAL_WORDS]

theorem special_word (h : name ∈ SPECIAL_WORDS) :
    (3 ≤ name.length ∧ name.length < ROOM) ∧ (∀ c ∈ name, LETTER7 c = true) ∧ findMonth name = none := by
  have hall : ∀ name ∈ SPECIAL_WORDS, (3 ≤ name.length ∧ name.length < ROOM) ∧
      (∀ c ∈ name, LETTER7 c = true) ∧ findMonth name = none := by decide +kernel
  exact hall name h

theorem specialWord_iff (now : GDS_TIMESTAMP) (expect_type : EXPECT_DATETIME) (name : List UInt8)
    (ts : GDS_TIMESTAMP) : specialWord now expect_type name = .ok ts ↔ Special now expect_type name ts := by
  constructor
  · intro h
    unfold specialWord at h
    split_ifs at h with hnow htime htoday htomorrow hyesterday
    · subst hnow
      cases h
      exact .now expect_type
    · subst htoday
      cases h
      exact .today htime
    · subst htomorrow
      cases h
      exact .tomorrow htime
    · subst hyesterday
      cases h
      exact .yesterday htime
  · rintro (_ | htime | htime | htime)
    · exact if_pos rfl
    · rw [specialWord, if_neg (by decide), if_neg htime, if_pos rfl]
    · rw [specialWord, if_neg (by decide), if_neg htime, if_neg (by decide), if_pos rfl]
    · rw [specialWord, if_neg (by decide), if_neg htime, if_neg (by decide), if_neg (by decide), if_pos rfl]

theorem isLetter_of_word {w : List UInt8} (hname : w.map UPPER = name) (hmem : name ∈ SPECIAL_WORDS) :
    ∀ c ∈ w, isLetter c = true := by
  intro c hc
  refine (special_word hmem).2.1 _ ?_
  rw [← hname]
  exact List.mem_map_of_mem hc

theorem wordAt_iff (hmem : name ∈ SPECIAL_WORDS) : wordAt e = some name ↔ ∃ w rest, e = w ++ rest ∧
    w.map UPPER = name ∧ (∀ c ∈ rest.head?, isLetter c = false) ∧ ∀ c ∈ rest.drop 1, isTrailing c = true := by
  obtain ⟨⟨hlong, hshort⟩, -⟩ := special_word hmem
  constructor
  · intro h
    unfold wordAt at h
    dsimp only at h
    split_ifs at h with hword
    have hname := Option.some.inj h
    have hlength : ((e.takeWhile isLetter).take ROOM).length = name.length := by
      rw [← hname, List.length_map]
    have htake : (e.takeWhile isLetter).take ROOM = e.takeWhile isLetter := by
      refine List.take_of_length_le ?_
      rw [List.length_take] at hlength
      omega
    rw [htake] at hname hword
    refine ⟨e.takeWhile isLetter, e.dropWhile isLetter, List.takeWhile_append_dropWhile.symm, hname,
      dropWhile_head isLetter e, ?_⟩
    have hdrop : (e.takeWhile isLetter ++ e.dropWhile isLetter).drop (e.takeWhile isLetter).length =
        e.dropWhile isLetter := List.drop_left
    rw [List.takeWhile_append_dropWhile] at hdrop
    rw [← hdrop]
    exact hword.2
  · rintro ⟨w, rest, rfl, hname, hends, htrailing⟩
    have htake := (takeWhile_word (isLetter_of_word hname hmem) hends).1
    have hlength : w.length = name.length := by rw [← hname, List.length_map]
    unfold wordAt
    rw [htake, List.take_of_length_le (by omega)]
    dsimp only
    rw [List.drop_left, if_pos ⟨by omega, htrailing⟩, hname]

/-! ## What the code accepts -/

theorem months_initial (expect_type : EXPECT_DATETIME) : (initial expect_type).months = months expect_type := by
  cases expect_type <;> rfl

theorem finish_iff (now : GDS_TIMESTAMP) (hplaced : Placed (months expect_type) items)
    (hcount : items.length ≤ room expect_type) (ts : GDS_TIMESTAMP) :
    finish now expect_type (start_component expect_type + index items e)
        (items.foldl Scanner.push (initial expect_type)) e = .ok ts ↔
      (∀ c ∈ e, isTrailing c = true) ∧ start_component expect_type + items.length ≠ 4 ∧
        (Closed items ∧ e = [] ∨ start_component expect_type + items.length ≠ 3) ∧
        Denotes (currentYear now) (expandYear now.decode) expect_type items ts := by
  by_cases hexpect : expect_type = .expect_sql_time
  · subst hexpect
    have hfinish := finish_time now (e := e) hplaced hcount ts
    rw [denotes_time_iff]
    refine hfinish.trans ⟨?_, ?_⟩
    · rintro ⟨htrailing, htwo, hticks⟩
      refine ⟨htrailing, ?_, .inr ?_, hticks⟩
      · change 3 + items.length ≠ 4
        omega
      · change 3 + items.length ≠ 3
        omega
    · rintro ⟨htrailing, hfour, -, ticks, hclock, hts⟩
      have hpos := hclock.pos
      change 3 + items.length ≠ 4 at hfour
      exact ⟨htrailing, by omega, ticks, hclock, hts⟩
  · have hstart : start_component expect_type = 0 := if_neg hexpect
    have hmonths : months expect_type = 2 := if_neg hexpect
    have hinitial : initial expect_type = startState := by
      rw [initial, hstart]
      rfl
    rw [room, hstart] at hcount
    rw [hmonths] at hplaced
    rw [hstart, hinitial, Nat.zero_add, Nat.zero_add]
    exact finish_date now hexpect hplaced hcount ts

theorem have_english_month_foldl (items : List Item) (s : Scanner) :
    (items.foldl Scanner.push s).have_english_month = true ↔
      s.have_english_month = true ∨ ∃ item ∈ items, item.1.IsMonth := by
  induction items generalizing s with
  | nil => simp
  | cons item items ih =>
    have hitem : item.1.part.2 = ENGLISH_MONTH ↔ item.1.IsMonth := by
      obtain ⟨c, separator⟩ := item
      cases c with
      | number w =>
        simp only [Component.part, Component.IsMonth, iff_false, ENGLISH_MONTH]
        omega
      | month n => simp [Component.part, Component.IsMonth]
    rw [List.foldl_cons, ih, Scanner.push]
    simp only [Bool.or_eq_true, decide_eq_true_eq, hitem, List.mem_cons, exists_eq_or_imp, or_assoc]

/-- The components, or the special word behind them, that the code accepts. -/
theorem string_to_datetime_iff (hlength : s.length < 2 ^ 16)
    (hread : readItems (room expect_type) (months expect_type) s = (items, e)) (ts : GDS_TIMESTAMP) :
    string_to_datetime now expect_type s = .ok ts ↔
      ((e = [] ∨ items.length = room expect_type) ∧ (∀ c ∈ e, isTrailing c = true) ∧
        start_component expect_type + items.length ≠ 4 ∧
        (Closed items ∧ e = [] ∨ start_component expect_type + items.length ≠ 3) ∧
        Denotes (currentYear now) (expandYear now.decode) expect_type items ts) ∨
      (¬ (e = [] ∨ items.length = room expect_type) ∧ (∀ item ∈ items, ¬ item.1.IsMonth) ∧
        ∃ name, wordAt e = some name ∧ Special now expect_type name ts) := by
  obtain ⟨hplaced, hcount⟩ := placed_of_readItems hread
  have hread' : readItems (room expect_type) (initial expect_type).months s = (items, e) := by
    rw [months_initial]
    exact hread
  have hparse : parseComponents (7 - start_component expect_type)
      ⟨List.replicate (start_component expect_type) (0, 0), false, false⟩ s = _ :=
    parseComponents_eq (room expect_type) (initial expect_type) s hlength hread'
  have hparts : (initial expect_type).parts.length = start_component expect_type := List.length_replicate
  dsimp only [string_to_datetime]
  rw [hparse, hparts]
  by_cases hend : e = [] ∨ items.length = room expect_type
  · rw [if_pos hend]
    simp only [hend, true_and, not_true_eq_false, false_and, or_false]
    exact finish_iff now hplaced hcount ts
  · rw [if_neg hend]
    simp only [hend, false_and, not_false_eq_true, true_and, false_or]
    unfold atWord
    by_cases hmonth : (items.foldl Scanner.push (initial expect_type)).have_english_month = true
    · rw [if_pos hmonth]
      refine iff_of_false (by simp [Except.map]) ?_
      rintro ⟨hnone, -⟩
      rw [have_english_month_foldl] at hmonth
      rcases hmonth with hmonth | ⟨item, hitem, hmonth⟩
      · cases hmonth
      · exact hnone item hitem hmonth
    · rw [if_neg hmonth]
      have hnone : ∀ item ∈ items, ¬ item.1.IsMonth := fun item hitem his =>
        hmonth ((have_english_month_foldl items _).2 (.inr ⟨item, hitem, his⟩))
      cases hword : wordAt e with
      | none => simp [Except.map]
      | some name =>
        simp only [Except.map, Option.some.injEq, exists_eq_left']
        rw [and_iff_right hnone]
        exact specialWord_iff now expect_type name ts

/-! ## What is documented -/

theorem room_pos (expect_type : EXPECT_DATETIME) : 0 < room expect_type := by
  cases expect_type <;> decide

/-- A special word is read as no component. -/
theorem readItems_word {k m : ℕ} (hk : 0 < k) {b w rest : List UInt8} (hb : ∀ c ∈ b, isBlank c = true)
    (hname : w.map UPPER = name) (hmem : name ∈ SPECIAL_WORDS)
    (hends : ∀ c ∈ rest.head?, isLetter c = false) : readItems k m (b ++ (w ++ rest)) = ([], w ++ rest) := by
  obtain ⟨⟨hlong, -⟩, -, hmonth⟩ := special_word hmem
  have hletters := isLetter_of_word hname hmem
  have hwlength : w.length = name.length := by rw [← hname, List.length_map]
  obtain ⟨x, w', rfl⟩ := List.exists_cons_of_length_pos (l := w) (by omega)
  have hx : isLetter x = true := hletters x List.mem_cons_self
  have hdigit : isDigit x ≠ true := by
    intro hdigit
    rw [isLetter_of_digit hdigit] at hx
    cases hx
  have hdrop : (b ++ (x :: w' ++ rest)).dropWhile isBlank = x :: w' ++ rest := by
    rw [dropWhile_blank hb, List.cons_append,
      List.dropWhile_cons_of_neg (by rw [isBlank_of_front (.inr hx)]; decide)]
  have hfront : readFront m (x :: w' ++ rest) = none := by
    obtain ⟨htake, hdrop'⟩ := takeWhile_word hletters hends
    have hnil : (x :: w' ++ rest).takeWhile isDigit = [] := List.takeWhile_cons_of_neg hdigit
    rw [readFront, hnil, if_neg (not_not.2 rfl), htake, hname, hmonth]
    split_ifs <;> rfl
  obtain ⟨k, rfl⟩ := Nat.exists_eq_succ_of_ne_zero (Nat.ne_of_gt hk)
  unfold readItems
  rw [hdrop, hfront]

theorem blank_head {b : List UInt8} (hb : ∀ c ∈ b, isBlank c = true) :
    ∀ c ∈ b.head?, isLetter c = false := fun c hc =>
  (ends_of_blank (.inl (hb c (List.mem_of_mem_head? hc)))).2

theorem documented_iff (hread : readItems (room expect_type) (months expect_type) s = (items, e))
    (ts : GDS_TIMESTAMP) : Documented now expect_type s ts ↔
      (Closed items ∧ e = []) ∧ Denotes (currentYear now) (nearest (currentYear now)) expect_type items ts ∨
      items = [] ∧ ∃ name w b, Special now expect_type name ts ∧ e = w ++ b ∧ w.map UPPER = name ∧
        ∀ c ∈ b, isBlank c = true := by
  constructor
  · rintro (⟨hspecial, b, w, b', rfl, hb, hname, hb'⟩ | ⟨hwritten, hdenotes⟩)
    · rw [readItems_word (room_pos expect_type) hb hname hspecial.mem (blank_head hb')] at hread
      cases hread
      exact .inr ⟨rfl, _, w, b', hspecial, rfl, hname, hb'⟩
    · rw [hwritten.readItems_eq hdenotes.length.2] at hread
      cases hread
      exact .inl ⟨⟨hwritten.closed, rfl⟩, hdenotes⟩
  · rintro (⟨⟨hclosed, rfl⟩, hdenotes⟩ | ⟨rfl, name, w, b, hspecial, rfl, hname, hb⟩)
    · exact .components (written_of_readItems hread hclosed) hdenotes
    · refine .word hspecial ⟨s.takeWhile isBlank, w, b, ?_, fun _ => mem_takeWhile, hname, hb⟩
      have hdrop : s.dropWhile isBlank = w ++ b := by
        rw [← readItems_dropWhile (room_pos expect_type)] at hread
        exact (readItems_nil (dropWhile_head isBlank s) hread).symm
      rw [← hdrop, List.takeWhile_append_dropWhile]

/-! ## Both together -/

theorem expandYear_agrees (hmistaken : ¬ Mistaken now expect_type s) (hwritten : Written (months expect_type) items s)
    (hfour : start_component expect_type + items.length ≠ 4)
    (hdenotes : Denotes (currentYear now) (nearest (currentYear now)) expect_type items ts ∨
      Denotes (currentYear now) (expandYear now.decode) expect_type items ts) :
    expect_type ≠ .expect_sql_time → ∀ year, TwoDigitYear items year →
      nearest (currentYear now) year = expandYear now.decode year := by
  intro hexpect year hyear
  by_contra hne
  exact hmistaken (.year hexpect hwritten hfour hyear hne hdenotes)

/-- What is accepted is documented if the string is of none of the four kinds. -/
theorem documented_of_accepted (hlength : s.length < 2 ^ 16) (hmistaken : ¬ Mistaken now expect_type s)
    (h : string_to_datetime now expect_type s = .ok ts) : Documented now expect_type s ts := by
  obtain ⟨items, e, hread⟩ : ∃ items e, readItems (room expect_type) (months expect_type) s = (items, e) :=
    ⟨_, _, rfl⟩
  have hcount := (placed_of_readItems hread).2
  rw [documented_iff hread]
  rcases (string_to_datetime_iff hlength hread ts).1 h with
    ⟨hend, htrailing, hfour, hthree, hdenotes⟩ | ⟨hend, hmonth, name, hword, hspecial⟩
  · have hclosed : Closed items ∧ e = [] := by
      by_contra hmark
      exact hmistaken (.mark hread hend htrailing hmark (hthree.resolve_left hmark) hfour hdenotes)
    obtain ⟨hclosed, rfl⟩ := hclosed
    have hwritten := written_of_readItems hread hclosed
    have hagrees := expandYear_agrees hmistaken hwritten hfour (.inr hdenotes)
    exact .inl ⟨⟨hclosed, rfl⟩, hdenotes.congr fun hexpect year hyear => (hagrees hexpect year hyear).symm⟩
  · obtain ⟨w, rest, rfl, hname, hends, htrailing⟩ := (wordAt_iff hspecial.mem).1 hword
    have hroom : items.length < room expect_type :=
      lt_of_le_of_ne hcount fun heq => hend (.inr heq)
    have hstray : ¬ (items ≠ [] ∨ ∃ c ∈ rest, isBlank c = false) := fun hstray =>
      hmistaken (.word hread hroom hmonth hname hspecial hends htrailing hstray)
    rw [not_or, not_not] at hstray
    refine .inr ⟨hstray.1, name, w, rest, hspecial, rfl, hname, fun c hc => ?_⟩
    by_contra hblank
    exact hstray.2 ⟨c, hc, by simpa using hblank⟩

theorem accepted_of_documented (hlength : s.length < 2 ^ 16) (hmistaken : ¬ Mistaken now expect_type s)
    (h : Documented now expect_type s ts) : string_to_datetime now expect_type s = .ok ts := by
  obtain ⟨items, e, hread⟩ : ∃ items e, readItems (room expect_type) (months expect_type) s = (items, e) :=
    ⟨_, _, rfl⟩
  rw [string_to_datetime_iff hlength hread]
  rcases (documented_iff hread ts).1 h with
    ⟨⟨hclosed, rfl⟩, hdenotes⟩ | ⟨rfl, name, w, b, hspecial, rfl, hname, hb⟩
  · have hwritten := written_of_readItems hread hclosed
    have hfour : start_component expect_type + items.length ≠ 4 := fun hfour =>
      hmistaken (.hour hwritten hfour hdenotes)
    have hagrees := expandYear_agrees hmistaken hwritten hfour (.inl hdenotes)
    exact .inl ⟨.inl rfl, List.forall_mem_nil _, hfour, .inl ⟨hclosed, rfl⟩, hdenotes.congr hagrees⟩
  · have hlong := (special_word hspecial.mem).1.1
    have hwlength : w.length = name.length := by rw [← hname, List.length_map]
    have hne : ¬ (w ++ b = [] ∨ ([] : List Item).length = room expect_type) := by
      rintro (hnil | hroom)
      · rw [(List.append_eq_nil_iff.1 hnil).1, List.length_nil] at hwlength
        omega
      · exact absurd hroom (Nat.ne_of_lt (room_pos expect_type))
    refine .inr ⟨hne, List.forall_mem_nil _, name, (wordAt_iff hspecial.mem).2 ?_, hspecial⟩
    refine ⟨w, b, rfl, hname, blank_head hb, fun c hc => ?_⟩
    have hblank := hb c (List.mem_of_mem_drop hc)
    rw [isTrailing, hblank]
    rfl

/-- On a string of one of the four kinds the code and the documentation differ. -/
theorem differs_of_mistaken (hlength : s.length < 2 ^ 16) (hmistaken : Mistaken now expect_type s) :
    ¬ ∀ ts, string_to_datetime now expect_type s = .ok ts ↔ Documented now expect_type s ts := by
  intro hagree
  cases hmistaken with
  | @word items w rest name ts hread hroom hmonth hname hspecial hends htrailing hstray =>
    have hmem := hspecial.mem
    have hlong := (special_word hmem).1.1
    have hletters := isLetter_of_word hname hmem
    have hwlength : w.length = name.length := by rw [← hname, List.length_map]
    have hne : w ++ rest ≠ [] := by
      intro hnil
      rw [(List.append_eq_nil_iff.1 hnil).1, List.length_nil] at hwlength
      omega
    have haccepts : string_to_datetime now expect_type s = .ok ts :=
      (string_to_datetime_iff hlength hread ts).2 (.inr ⟨fun hend => hend.elim hne (Nat.ne_of_lt hroom), hmonth,
        name, (wordAt_iff hmem).2 ⟨w, rest, rfl, hname, hends, htrailing⟩, hspecial⟩)
    rcases (documented_iff hread ts).1 ((hagree ts).1 haccepts) with
      ⟨⟨-, hnil⟩, -⟩ | ⟨hitems, name', w', b, hspecial', hsplit, hname', hb⟩
    · exact hne hnil
    · -- both words end where the letters do
      have hrest := (takeWhile_word hletters hends).2
      have hrest' := (takeWhile_word (isLetter_of_word hname' hspecial'.mem) (blank_head hb)).2
      rw [hsplit, hrest'] at hrest
      rcases hstray with hstray | ⟨c, hc, hblank⟩
      · exact hstray hitems
      · rw [← hrest] at hc
        rw [hb c hc] at hblank
        cases hblank
  | @mark items e ts hread hend htrailing hmark hthree hfour hdenotes =>
    have haccepts : string_to_datetime now expect_type s = .ok ts :=
      (string_to_datetime_iff hlength hread ts).2 (.inl ⟨hend, htrailing, hfour, .inr hthree, hdenotes⟩)
    rcases (documented_iff hread ts).1 ((hagree ts).1 haccepts) with ⟨hclosed, -⟩ | ⟨rfl, -⟩
    · exact hmark hclosed
    · exact absurd hdenotes.length.1 (lt_irrefl 0)
  | @hour items ts hwritten hfour hdenotes =>
    have hread := hwritten.readItems_eq hdenotes.length.2
    rcases (string_to_datetime_iff hlength hread ts).1 ((hagree ts).2 (.components hwritten hdenotes)) with
      ⟨-, -, hfour', -⟩ | ⟨hend, -⟩
    · exact hfour' hfour
    · exact hend (.inl rfl)
  | @year items year ts hexpect hwritten hfour hyear hne hdenotes =>
    have hcount : items.length ≤ room expect_type :=
      hdenotes.elim (fun h => h.length.2) fun h => h.length.2
    have hread := hwritten.readItems_eq hcount
    have hclosed : Closed items ∧ ([] : List UInt8) = [] := ⟨hwritten.closed, rfl⟩
    have hboth : Denotes (currentYear now) (nearest (currentYear now)) expect_type items ts ∧
        Denotes (currentYear now) (expandYear now.decode) expect_type items ts := by
      rcases hdenotes with hdenotes | hdenotes
      · rcases (string_to_datetime_iff hlength hread ts).1 ((hagree ts).2 (.components hwritten hdenotes)) with
          ⟨-, -, -, -, hcode⟩ | ⟨hend, -⟩
        · exact ⟨hdenotes, hcode⟩
        · exact absurd (.inl rfl) hend
      · have haccepts := (string_to_datetime_iff hlength hread ts).2
          (.inl ⟨.inl rfl, List.forall_mem_nil _, hfour, .inl hclosed, hdenotes⟩)
        rcases (documented_iff hread ts).1 ((hagree ts).1 haccepts) with ⟨-, hspec⟩ | ⟨rfl, -⟩
        · exact ⟨hspec, hdenotes⟩
        · exact absurd hdenotes.length.1 (lt_irrefl 0)
    exact hne (hboth.1.year_eq hboth.2 hexpect hyear)

end

end FirebirdCore.Cvt.DateTime
