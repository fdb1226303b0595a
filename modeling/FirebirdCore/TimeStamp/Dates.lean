import FirebirdCore.Lib.Gregorian

/-!
# Dates and times of day

The conversions between numbers of days and calendar dates, and between times of day and their parts.
C divides towards zero.
-/
namespace FirebirdCore.TimeStamp
open FirebirdCore.Gregorian

/-- `struct tm`. The month is counted from 0 and the year from 1900. -/
structure Tm where
  tm_sec : ℤ
  tm_min : ℤ
  tm_hour : ℤ
  tm_mday : ℤ
  tm_mon : ℤ
  tm_year : ℤ
  tm_wday : ℤ
  tm_yday : ℤ
  deriving DecidableEq, Repr

/-- Zero-initialized. -/
def Tm.zero : Tm := ⟨0, 0, 0, 0, 0, 0, 0, 0⟩

def ISC_TIME_SECONDS_PRECISION : ℤ := 10000

/-- 01.01.0001 -/
def MIN_DATE : ℤ := -678575

/-- 31.12.9999 -/
def MAX_DATE : ℤ := 2973483

def isLeapYear (year : ℤ) : Prop := year.tmod 4 = 0 ∧ year.tmod 100 ≠ 0 ∨ year.tmod 400 = 0

instance (year : ℤ) : Decidable (isLeapYear year) := inferInstanceAs (Decidable (_ ∨ _))

/-- Convert a calendar date to the day-of-year, from 0 on. -/
def yday (times : Tm) : ℤ :=
  let month := times.tm_mon
  let year := times.tm_year + 1900
  let day := times.tm_mday - 1
  let day := day + (214 * month + 3).tdiv 7
  if month < 2 then day
  else if isLeapYear year then day - 1
  else day - 2

/-- Convert a numeric day to [day, month, year]. -/
def decode_date (nday : ℤ) : Tm :=
  let wday := (nday + 3).tmod 7
  let wday := if wday < 0 then wday + 7 else wday
  let nday := nday + (2400001 - 1721119)
  let century := (4 * nday - 1).tdiv 146097
  let nday := 4 * nday - 1 - 146097 * century
  let day := nday.tdiv 4
  let nday := (4 * day + 3).tdiv 1461
  let day := 4 * day + 3 - 1461 * nday
  let day := (day + 4).tdiv 4
  let month := (5 * day - 3).tdiv 153
  let day := 5 * day - 3 - 153 * month
  let day := (day + 5).tdiv 5
  let year := 100 * century + nday
  let times := { Tm.zero with
    tm_wday := wday
    tm_mday := day
    tm_mon := (if month < 10 then month + 3 else month - 9) - 1
    tm_year := (if month < 10 then year else year + 1) - 1900 }
  { times with tm_yday := yday times }

/-- Convert a calendar date to a numeric day (the number of days since the base date). -/
def encode_date (times : Tm) : ℤ :=
  let day := times.tm_mday
  let month := times.tm_mon + 1
  let year := times.tm_year + 1900
  let march := if month > 2 then (month - 3, year) else (month + 9, year - 1)
  let c := march.2.tdiv 100
  let ya := march.2 - 100 * c
  (146097 * c).tdiv 4 + (1461 * ya).tdiv 4 + (153 * march.1 + 2).tdiv 5 + day + 1721119 - 2400001

/-- Hours, minutes, seconds and fractions. -/
def decode_time (ntime : ℤ) : ℤ × ℤ × ℤ × ℤ :=
  let hours := ntime.tdiv (3600 * ISC_TIME_SECONDS_PRECISION)
  let ntime := ntime.tmod (3600 * ISC_TIME_SECONDS_PRECISION)
  let minutes := ntime.tdiv (60 * ISC_TIME_SECONDS_PRECISION)
  let ntime := ntime.tmod (60 * ISC_TIME_SECONDS_PRECISION)
  let seconds := ntime.tdiv ISC_TIME_SECONDS_PRECISION
  (hours, minutes, seconds, ntime.tmod ISC_TIME_SECONDS_PRECISION)

def encode_time (hours minutes seconds fractions : ℤ) : ℤ :=
  ((hours * 60 + minutes) * 60 + seconds) * ISC_TIME_SECONDS_PRECISION + fractions

/-- What `struct tm` says about a date. -/
def Tm.ofDate (d : Date) : Tm :=
  { Tm.zero with
    tm_mday := d.day
    tm_mon := d.month - 1
    tm_year := d.year - 1900
    tm_wday := d.weekday
    tm_yday := d.dayOfYear }

/-! ## Dates to numbers -/

section Encode
variable {d : Date} {times : Tm}

/-- The day, the month and the year are those of a date. -/
structure Tm.IsDate (times : Tm) (d : Date) : Prop where
  mday : times.tm_mday = d.day
  mon : times.tm_mon = d.month - 1
  year : times.tm_year = d.year - 1900

theorem ofDate_isDate (d : Date) : (Tm.ofDate d).IsDate d := ⟨rfl, rfl, rfl⟩

theorem isLeapYear_iff (y : ℕ) : isLeapYear y ↔ IsLeap y := by
  rw [isLeapYear, IsLeap, Int.tmod_eq_emod_of_nonneg (by omega), Int.tmod_eq_emod_of_nonneg (by omega),
    Int.tmod_eq_emod_of_nonneg (by omega)]
  omega

theorem yday_eq (h : times.IsDate d) : yday times = d.dayOfYear := by
  have hday := d.day_pos
  have hmonth := d.month_pos
  have hmonth' := d.month_le
  have hleap := isLeapYear_iff d.year
  rw [yday, h.mday, h.mon, h.year, Date.dayOfYear, sum_monthDays _ hmonth (by omega), monthStart]
  rw [sub_add_cancel, Int.tdiv_eq_ediv_of_nonneg (by omega)]
  generalize d.month = m at *
  interval_cases m <;> split_ifs <;> first | omega | tauto

/-- The days of the years that `encode_date` counts. -/
theorem encode_years {y : ℤ} (hy : 0 ≤ y) :
    (146097 * y.tdiv 100).tdiv 4 + (1461 * (y - 100 * y.tdiv 100)).tdiv 4 =
      365 * y + y / 4 - y / 100 + y / 400 := by
  have hcenturies : 146097 * (y / 100) / 4 = 36524 * (y / 100) + y / 100 / 4 := by omega
  have hyears : 1461 * (y - 100 * (y / 100)) / 4 =
      365 * (y - 100 * (y / 100)) + (y - 100 * (y / 100)) / 4 := by omega
  have hfour : y / 4 = 25 * (y / 100) + (y - 100 * (y / 100)) / 4 := by omega
  have hfourhundred : y / 400 = y / 100 / 4 := by omega
  rw [Int.tdiv_eq_ediv_of_nonneg hy, Int.tdiv_eq_ediv_of_nonneg (by omega),
    Int.tdiv_eq_ediv_of_nonneg (by omega), hcenturies, hyears, hfour, hfourhundred]
  ring

theorem encode_years_eq (y : ℕ) : 365 * (y : ℤ) + y / 4 - y / 100 + y / 400 =
    ∑ k ∈ Finset.Ico 1 (y + 1), yearDays k := by
  have hyears := sum_yearDays y
  omega

theorem encode_date_eq (h : times.IsDate d) : encode_date times = d.number + MIN_DATE := by
  have hyear := d.year_pos
  have hday := d.day_pos
  have hmonth := d.month_pos
  have hmonth' := d.month_le
  rw [Date.number, Date.dayOfYear, sum_monthDays _ hmonth (by omega), monthStart]
  rw [encode_date, h.mday, h.mon, h.year, MIN_DATE]
  by_cases hmarch : d.month ≤ 2
  · obtain ⟨y, hy⟩ : ∃ y, d.year = y + 1 := ⟨d.year - 1, by omega⟩
    have hyears := encode_years_eq y
    rw [if_neg (by omega)]
    dsimp only
    rw [encode_years (by omega), Int.tdiv_eq_ediv_of_nonneg (by omega), if_pos hmarch, hy]
    push_cast at hyears ⊢
    rw [sub_add_cancel, sub_add_cancel, add_sub_cancel_right, hyears]
    omega
  · have hyears := encode_years_eq d.year
    rw [Finset.sum_Ico_succ_top hyear, yearDays] at hyears
    rw [if_pos (by omega)]
    dsimp only
    rw [encode_years (by omega), Int.tdiv_eq_ediv_of_nonneg (by omega), if_neg hmarch]
    push_cast at hyears ⊢
    rw [sub_add_cancel, sub_add_cancel, hyears]
    split_ifs
    · omega
    · omega

end Encode

/-! ## Numbers to dates -/

section Decode
variable {c ya month day : ℤ}

/-- A day in a year that starts in March: the century, the year in it, the month and the day. -/
structure March (c ya month day : ℤ) : Prop where
  century_nonneg : 0 ≤ c
  year_range : 0 ≤ ya ∧ ya < 100
  month_range : 0 ≤ month ∧ month < 12
  day_pos : 1 ≤ day
  day_le : month < 11 → day ≤ (153 * (month + 1) + 2) / 5 - (153 * month + 2) / 5
  february : month = 11 → day ≤ 29
  leap : month = 11 → day = 29 → ya % 4 = 3 ∧ (ya = 99 → c % 4 = 3)

/-- The number that `encode_date` computes for it. -/
def marchDate (c ya month day : ℤ) : ℤ :=
  146097 * c / 4 + 1461 * ya / 4 + (153 * month + 2) / 5 + day + 1721119 - 2400001

theorem weekday_eq (n : ℤ) : (if n.tmod 7 < 0 then n.tmod 7 + 7 else n.tmod 7) = n % 7 := by
  by_cases hn : 0 ≤ n
  · rw [Int.tmod_eq_emod_of_nonneg hn]
    omega
  · obtain ⟨k, rfl⟩ : ∃ k, n = -k := ⟨-n, by omega⟩
    rw [Int.neg_tmod, Int.tmod_eq_emod_of_nonneg (by omega)]
    omega

/-- The month of a day of the year that starts in March. -/
theorem month_of_day {e : ℤ} (hmonth : 0 ≤ month ∧ month < 12) (hday : 1 ≤ day)
    (hday' : month < 11 → day ≤ (153 * (month + 1) + 2) / 5 - (153 * month + 2) / 5)
    (hfebruary : month = 11 → day ≤ 29) (he : e = (153 * month + 2) / 5 + day) :
    (5 * e - 3).tdiv 153 = month ∧ (5 * e - 3 - 153 * month + 5).tdiv 5 = day := by
  have hmon : (5 * e - 3) / 153 = month := by
    by_cases hlast : month < 11
    · have h := hday' hlast
      omega
    · have h := hfebruary (by omega)
      omega
  rw [Int.tdiv_eq_ediv_of_nonneg (by omega), Int.tdiv_eq_ediv_of_nonneg (by omega)]
  exact ⟨hmon, by omega⟩

theorem decode_march (h : March c ya month day) :
    let times : Tm :=
      { Tm.zero with
        tm_wday := (marchDate c ya month day + 3) % 7
        tm_mday := day
        tm_mon := (if month < 10 then month + 3 else month - 9) - 1
        tm_year := (if month < 10 then 100 * c + ya else 100 * c + ya + 1) - 1900 }
    decode_date (marchDate c ya month day) = { times with tm_yday := yday times } := by
  obtain ⟨hc, ⟨hya, hya'⟩, hmonth, hday, hday', hfebruary, hleap⟩ := h
  -- the days of the year that starts in March, up to this one
  obtain ⟨e, he⟩ : ∃ e, e = (153 * month + 2) / 5 + day := ⟨_, rfl⟩
  have hpos : 1 ≤ e := by omega
  have hyear : e ≤ 365 ∨ e = 366 ∧ ya % 4 = 3 ∧ (ya = 99 → c % 4 = 3) := by
    by_cases hlast : month < 11
    · have h := hday' hlast
      omega
    · have h := hfebruary (by omega)
      omega
  have hcenturies : 4 * (146097 * c / 4) = 146097 * c - c % 4 := by omega
  have hyears : 4 * (1461 * ya / 4) = 1461 * ya - ya % 4 := by omega
  have hdate : marchDate c ya month day + (2400001 - 1721119) = 146097 * c / 4 + 1461 * ya / 4 + e := by
    rw [marchDate, he]
    ring
  have hcentury : (4 * (146097 * c / 4 + 1461 * ya / 4 + e) - 1).tdiv 146097 = c := by
    rw [Int.tdiv_eq_ediv_of_nonneg (by omega)]
    omega
  have hrest : (4 * (146097 * c / 4 + 1461 * ya / 4 + e) - 1 - 146097 * c).tdiv 4 = 1461 * ya / 4 + e - 1 := by
    rw [Int.tdiv_eq_ediv_of_nonneg (by omega)]
    omega
  have hyear' : (4 * (1461 * ya / 4 + e - 1) + 3).tdiv 1461 = ya := by
    rw [Int.tdiv_eq_ediv_of_nonneg (by omega)]
    omega
  have hyday : (4 * (1461 * ya / 4 + e - 1) + 3 - 1461 * ya + 4).tdiv 4 = e := by
    rw [Int.tdiv_eq_ediv_of_nonneg (by omega)]
    omega
  obtain ⟨hmon, hmday⟩ := month_of_day hmonth hday hday' hfebruary he
  intro times
  simp only [decode_date, weekday_eq, hdate, hcentury, hrest, hyear', hyday, hmon, hmday]
  rfl

/-- The month and the year that `encode_date` counts from March on. -/
theorem encode_from_march (d : Date) : ∃ y m : ℤ, 0 ≤ y ∧ (0 ≤ m ∧ m < 12) ∧
    (m < 10 → d.month = m + 3 ∧ d.year = y) ∧ (10 ≤ m → d.month = m - 9 ∧ d.year = y + 1) ∧
    encode_date (Tm.ofDate d) = marchDate (y / 100) (y % 100) m d.day := by
  have hyear := d.year_pos
  have hmonth := d.month_pos
  have hmonth' := d.month_le
  have hmod : ∀ y : ℤ, y - 100 * (y / 100) = y % 100 := fun y => by omega
  by_cases hmarch : (d.month : ℤ) - 1 + 1 > 2
  · refine ⟨d.year, d.month - 3, by omega, by omega, by omega, by omega, ?_⟩
    rw [encode_date, Tm.ofDate]
    dsimp only
    rw [if_pos hmarch]
    dsimp only
    rw [sub_add_cancel, sub_add_cancel, Int.tdiv_eq_ediv_of_nonneg (b := 100) (by omega), hmod,
      Int.tdiv_eq_ediv_of_nonneg (by omega), Int.tdiv_eq_ediv_of_nonneg (by omega),
      Int.tdiv_eq_ediv_of_nonneg (by omega), marchDate]
  · refine ⟨d.year - 1, d.month + 9, by omega, by omega, by omega, by omega, ?_⟩
    rw [encode_date, Tm.ofDate]
    dsimp only
    rw [if_neg hmarch]
    dsimp only
    rw [sub_add_cancel, sub_add_cancel, Int.tdiv_eq_ediv_of_nonneg (b := 100) (by omega), hmod,
      Int.tdiv_eq_ediv_of_nonneg (by omega), Int.tdiv_eq_ediv_of_nonneg (by omega),
      Int.tdiv_eq_ediv_of_nonneg (by omega), marchDate]

/-- A date is in a year that starts in March. -/
theorem march_of_date {d : Date} {y m : ℤ} (hy : 0 ≤ y) (hm : 0 ≤ m ∧ m < 12)
    (hspring : m < 10 → d.month = m + 3 ∧ d.year = y)
    (hwinter : 10 ≤ m → d.month = m - 9 ∧ d.year = y + 1) : March (y / 100) (y % 100) m d.day := by
  have hday := d.day_pos
  have hday' := d.day_le
  rw [monthDays] at hday'
  obtain ⟨hm, hm'⟩ := hm
  refine ⟨by omega, by omega, ⟨hm, hm'⟩, by omega, fun hlast => ?_, fun hlast => ?_, fun hlast hleap => ?_⟩
  · -- no month of the year has more days than the one of 153 days and five months gives it
    have hlong : d.day ≤ 31 := by
      split_ifs at hday' <;> omega
    have hshort : d.month = 4 ∨ d.month = 6 ∨ d.month = 9 ∨ d.month = 11 → d.day ≤ 30 := fun h => by
      rw [if_neg (by omega), if_pos h] at hday'
      exact hday'
    interval_cases m <;> omega
  · have h := hwinter (by omega)
    rw [if_pos (by omega)] at hday'
    split_ifs at hday' <;> omega
  · have h := hwinter (by omega)
    rw [if_pos (by omega)] at hday'
    split_ifs at hday' with hyear
    · rw [IsLeap] at hyear
      omega
    · omega

/-- The calendar date is decoded from its number. -/
theorem decode_number (d : Date) : decode_date (d.number + MIN_DATE) = Tm.ofDate d := by
  obtain ⟨y, m, hy, hm, hspring, hwinter, hencode⟩ := encode_from_march d
  have hdate := encode_date_eq (ofDate_isDate d)
  have hdecode := decode_march (march_of_date hy hm hspring hwinter)
  have hmonth : (if m < 10 then m + 3 else m - 9) = d.month := by
    split_ifs <;> omega
  have hyear : (if m < 10 then 100 * (y / 100) + y % 100 else 100 * (y / 100) + y % 100 + 1) = d.year := by
    split_ifs <;> omega
  dsimp only at hdecode
  rw [← hencode, hdate, hmonth, hyear] at hdecode
  have hyday := yday_eq (ofDate_isDate d)
  have hweekday : ((d.number : ℤ) + MIN_DATE + 3) % 7 = d.weekday := by
    rw [Date.weekday, MIN_DATE]
    omega
  rw [hdecode, hweekday]
  have hnum : Tm.ofDate d = { Tm.ofDate d with tm_yday := yday (Tm.ofDate d) } := by
    rw [hyday]
    rfl
  rw [hnum]
  rfl

theorem encode_decode (n : ℤ) (hn : MIN_DATE ≤ n) : ∃ d : Date, (d.number : ℤ) + MIN_DATE = n ∧
    decode_date n = Tm.ofDate d ∧ encode_date (decode_date n) = n := by
  obtain ⟨d, hd⟩ := exists_number (n - MIN_DATE).toNat
  have hnumber : (d.number : ℤ) + MIN_DATE = n := by
    rw [hd]
    omega
  have hdecode := decode_number d
  rw [hnumber] at hdecode
  refine ⟨d, hnumber, hdecode, ?_⟩
  rw [hdecode, encode_date_eq (ofDate_isDate d), hnumber]

end Decode

/-- The dates up to 31 December 9999 are those with the numbers up to `MAX_DATE`. -/
theorem year_le_iff (d : Date) : d.year ≤ 9999 ↔ (d.number : ℤ) + MIN_DATE ≤ MAX_DATE := by
  have hyears := sum_yearDays 9999
  rw [d.year_le_iff, MIN_DATE, MAX_DATE]
  omega

/-! ## Times of day -/

section Clock
variable {hours minutes seconds fractions ntime : ℤ}

theorem decode_encode_time (hhours : 0 ≤ hours) (hminutes : 0 ≤ minutes ∧ minutes < 60)
    (hseconds : 0 ≤ seconds ∧ seconds < 60)
    (hfractions : 0 ≤ fractions ∧ fractions < ISC_TIME_SECONDS_PRECISION) :
    decode_time (encode_time hours minutes seconds fractions) = (hours, minutes, seconds, fractions) := by
  rw [ISC_TIME_SECONDS_PRECISION] at hfractions
  rw [decode_time, encode_time, ISC_TIME_SECONDS_PRECISION]
  rw [Int.tdiv_eq_ediv_of_nonneg (by omega), Int.tmod_eq_emod_of_nonneg (by omega),
    Int.tdiv_eq_ediv_of_nonneg (by omega), Int.tmod_eq_emod_of_nonneg (by omega),
    Int.tdiv_eq_ediv_of_nonneg (by omega), Int.tmod_eq_emod_of_nonneg (by omega)]
  refine Prod.ext ?_ (Prod.ext ?_ (Prod.ext ?_ ?_))
  · dsimp only
    omega
  · dsimp only
    omega
  · dsimp only
    omega
  · dsimp only
    omega

theorem encode_decode_time (htime : 0 ≤ ntime) :
    let r := decode_time ntime
    encode_time r.1 r.2.1 r.2.2.1 r.2.2.2 = ntime := by
  simp only [decode_time, encode_time, ISC_TIME_SECONDS_PRECISION]
  rw [Int.tdiv_eq_ediv_of_nonneg (by omega),
    Int.tmod_eq_emod_of_nonneg (by omega), Int.tdiv_eq_ediv_of_nonneg (by omega),
    Int.tmod_eq_emod_of_nonneg (by omega), Int.tdiv_eq_ediv_of_nonneg (by omega),
    Int.tmod_eq_emod_of_nonneg (by omega)]
  omega

end Clock

/-- The parts of a time of day. -/
structure Clock where
  hours : ℤ
  minutes : ℤ
  seconds : ℤ
  fractions : ℤ
  hours_range : 0 ≤ hours ∧ hours < 24
  minutes_range : 0 ≤ minutes ∧ minutes < 60
  seconds_range : 0 ≤ seconds ∧ seconds < 60
  fractions_range : 0 ≤ fractions ∧ fractions < ISC_TIME_SECONDS_PRECISION

/-- The dates from 01.01.0001 to 31.12.9999 have the numbers from `MIN_DATE` to `MAX_DATE`, one after the
other, and both conversions agree on them. So it is for the times of a day. -/
theorem dates_and_times_convert :
    (∀ d : Date, d.year ≤ 9999 → ∀ times : Tm, times.IsDate d →
      encode_date times = MIN_DATE + d.number ∧ encode_date times ≤ MAX_DATE ∧
        decode_date (encode_date times) = Tm.ofDate d) ∧
    (∀ n : ℤ, MIN_DATE ≤ n → n ≤ MAX_DATE → encode_date (decode_date n) = n ∧
      ∃ d : Date, d.year ≤ 9999 ∧ decode_date n = Tm.ofDate d) ∧
    (∀ d : Date, encode_date (Tm.ofDate d.next) = encode_date (Tm.ofDate d) + 1) ∧
    (∀ d e : Date, d.Before e ↔ encode_date (Tm.ofDate d) < encode_date (Tm.ofDate e)) ∧
    (∀ c : Clock, decode_time (encode_time c.hours c.minutes c.seconds c.fractions) =
      (c.hours, c.minutes, c.seconds, c.fractions)) ∧
    ∀ n : ℤ, 0 ≤ n → n < 24 * 3600 * ISC_TIME_SECONDS_PRECISION →
      let r := decode_time n
      encode_time r.1 r.2.1 r.2.2.1 r.2.2.2 = n := by
  refine ⟨fun d hyear times htimes => ?_, fun n hmin hmax => ?_, fun d => ?_, fun d e => ?_, fun c => ?_,
    fun n hn _ => encode_decode_time hn⟩
  · rw [encode_date_eq htimes, decode_number]
    exact ⟨add_comm _ _, (year_le_iff d).1 hyear, rfl⟩
  · obtain ⟨d, hnumber, hdecode, hencode⟩ := encode_decode n hmin
    exact ⟨hencode, d, (year_le_iff d).2 (hnumber ▸ hmax), hdecode⟩
  · rw [encode_date_eq (ofDate_isDate _), encode_date_eq (ofDate_isDate _), d.number_next]
    push_cast
    ring
  · rw [encode_date_eq (ofDate_isDate _), encode_date_eq (ofDate_isDate _), Date.before_iff]
    omega
  · exact decode_encode_time c.hours_range.1 c.minutes_range c.seconds_range c.fractions_range

/-- 29 February 2000, at the end of a cycle of 400 years. -/
theorem leapDay_converts : ∃ d : Date, (d.year = 2000 ∧ d.month = 2 ∧ d.day = 29) ∧
    decode_date (encode_date (Tm.ofDate d)) = Tm.ofDate d := by
  have hpositive : 1 ≤ 2000 ∧ 1 ≤ 2 ∧ 2 ≤ 12 ∧ 1 ≤ 29 := by decide
  have hday : 29 ≤ monthDays 2000 2 := by decide
  let d : Date := ⟨2000, 2, 29, hpositive.1, hpositive.2.1, hpositive.2.2.1, hpositive.2.2.2, hday⟩
  have hyear : d.year ≤ 9999 := Nat.le_of_ble_eq_true rfl
  exact ⟨d, ⟨rfl, rfl, rfl⟩, (dates_and_times_convert.1 d hyear _ (ofDate_isDate d)).2.2⟩

/-- 17 November 1858, a Wednesday, has the number 0. -/
example : decode_date 0 = ⟨0, 0, 0, 17, 10, -42, 3, 320⟩ := by decide

end FirebirdCore.TimeStamp
