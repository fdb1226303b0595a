import FirebirdCore.Cvt.DateTime
import FirebirdCore.Cvt.Literal

/-!
# The forms of dates and times

How a string is written with components, which lists of components are dates and times, and what they
denote.
-/
namespace FirebirdCore.Cvt.DateTime
open FirebirdCore.TimeStamp FirebirdCore.Gregorian

/-! ## Strings -/

inductive Component where
  | number (digits : List UInt8)
  | month (n : ℕ)
  deriving DecidableEq, Repr

/-- A component with the separator behind it. -/
abbrev Item := Component × Option UInt8

def isLetter (c : UInt8) : Bool := LETTER7 (UPPER c)

def isSeparator (c : UInt8) : Bool := c = 47 || c = 45 || c = 44 || c = 58 || c = 46

/-- Digits, or at least three letters with which the name of a month begins. -/
inductive Spells : Component → List UInt8 → Prop where
  | number {w : List UInt8} (hne : w ≠ []) (hw : ∀ c ∈ w, isDigit c = true) : Spells (.number w) w
  | month {w : List UInt8} {n : ℕ} (hlength : 3 ≤ w.length) (hw : ∀ c ∈ w, isLetter c = true)
      (hname : findMonth (w.map UPPER) = some n) : Spells (.month n) w

/-- A name of a month can stand at the next `m` positions. Behind one, there is no other. -/
def monthsLeft : Component → ℕ → ℕ
  | .number _, m => m - 1
  | .month _, _ => 0

/-- What follows the component does not belong to it. -/
def Ends : Component → List UInt8 → Prop
  | .number _, s => ∀ c ∈ s.head?, isDigit c = false
  | .month _, s => ∀ c ∈ s.head?, isLetter c = false

def Component.IsMonth : Component → Prop
  | .number _ => False
  | .month _ => True

/-- The string is written with the components. Between them are separators, and blanks are everywhere
between and around both. -/
inductive Written : ℕ → List Item → List UInt8 → Prop where
  | last {m : ℕ} {c : Component} {b w b' : List UInt8} (hb : ∀ x ∈ b, isBlank x = true) (hspells : Spells c w)
      (hmonth : c.IsMonth → 0 < m) (hb' : ∀ x ∈ b', isBlank x = true) : Written m [(c, none)] (b ++ (w ++ b'))
  | cons {m : ℕ} {c : Component} {b w b' s : List UInt8} {separator : Option UInt8} {items : List Item}
      (hb : ∀ x ∈ b, isBlank x = true) (hspells : Spells c w) (hmonth : c.IsMonth → 0 < m)
      (hb' : ∀ x ∈ b', isBlank x = true) (hseparator : ∀ x ∈ separator, isSeparator x = true)
      (hends : Ends c (b' ++ (separator.toList ++ s))) (h : Written (monthsLeft c m) items s) :
      Written m ((c, separator) :: items) (b ++ (w ++ (b' ++ (separator.toList ++ s))))

/-! ## Dates -/

def value (digits : List UInt8) : ℕ := numberFrom 10 0 (digits.map digit)

structure DateForm where
  year : Option (List UInt8)
  month : Component
  day : List UInt8
  deriving DecidableEq, Repr

/-- The year that may stand behind the day and the month. -/
def yearOf : List Item → Option (Option (List UInt8))
  | [] => some none
  | [(.number y, _)] => some (some y)
  | _ => none

/-- The year comes first if it is written with three digits at least. Else it comes last, and the month
in front of the day unless its name is in the middle or there is a period. -/
def dateForm : List Item → Option DateForm
  | (.month n, _) :: (.number d, _) :: rest => (yearOf rest).map fun y => ⟨y, .month n, d⟩
  | (.number a, separator) :: (b, separator') :: rest =>
      if 3 ≤ a.length then
        match rest with
        | [(.number d, _)] => some ⟨some a, b, d⟩
        | _ => none
      else
        match b with
        | .month n => (yearOf rest).map fun y => ⟨y, .month n, a⟩
        | .number b =>
            if separator = some 46 ∨ separator' = some 46 then (yearOf rest).map fun y => ⟨y, .number b, a⟩
            else (yearOf rest).map fun y => ⟨y, .number a, b⟩
  | _ => none

namespace DateForm

/-- Years have four digits at most, months and days two. -/
structure Short (f : DateForm) : Prop where
  year : ∀ y ∈ f.year, y.length ≤ 4
  month : ∀ w, f.month = .number w → w.length ≤ 2
  day : f.day.length ≤ 2

def monthNumber (f : DateForm) : ℕ :=
  match f.month with
  | .number w => value w
  | .month n => n

/-- The current year if the year is missing. A year of one or two digits is expanded. -/
def yearNumber (f : DateForm) (current : ℤ) (expand : ℤ → ℤ) : ℤ :=
  match f.year with
  | none => current
  | some y => if y.length ≤ 2 then expand (value y) else value y

/-- The date that the form denotes. -/
structure Denotes (f : DateForm) (current : ℤ) (expand : ℤ → ℤ) (d : Date) : Prop where
  year : (d.year : ℤ) = f.yearNumber current expand
  year_le : d.year ≤ 9999
  month : d.month = f.monthNumber
  day : d.day = value f.day

end DateForm

/-- The year with the two digits that is nearest to the current one. -/
def nearest (current year : ℤ) : ℤ := current - 50 + (year - (current - 50)) % 100

/-! ## Times of day -/

def digitsAt (items : List Item) (k : ℕ) : List UInt8 :=
  match items[k]? with
  | some (.number w, _) => w
  | _ => []

/-- Hours, minutes, seconds and a fraction of four digits. What is missing is 0. -/
structure IsClock (items : List Item) (ticks : ℤ) : Prop where
  pos : 0 < items.length
  count : items.length ≤ 4
  numbers : ∀ item ∈ items, ¬ item.1.IsMonth
  hours : (digitsAt items 0).length ≤ 2 ∧ value (digitsAt items 0) < 24
  minutes : (digitsAt items 1).length ≤ 2 ∧ value (digitsAt items 1) < 60
  seconds : (digitsAt items 2).length ≤ 2 ∧ value (digitsAt items 2) < 60
  fraction : (digitsAt items 3).length ≤ 4
  ticks_eq : ticks = encode_time (value (digitsAt items 0)) (value (digitsAt items 1)) (value (digitsAt items 2))
    (value (digitsAt items 3) * 10 ^ (4 - (digitsAt items 3).length))

/-- 1 January 1900, with which a time of day is returned. -/
def baseDate : ℤ := encode_date { Tm.zero with tm_mday := 1 }

/-- What the components denote. -/
inductive Denotes (current : ℤ) (expand : ℤ → ℤ) : EXPECT_DATETIME → List Item → GDS_TIMESTAMP → Prop where
  | date {expect_type : EXPECT_DATETIME} {items : List Item} {f : DateForm} {d : Date}
      (hexpect : expect_type ≠ .expect_sql_time) (hform : dateForm items = some f) (hshort : f.Short)
      (hdate : f.Denotes current expand d) : Denotes current expand expect_type items ⟨d.number + MIN_DATE, 0⟩
  | timestamp {items clock : List Item} {f : DateForm} {d : Date} {ticks : ℤ} (hthree : items.length = 3)
      (hform : dateForm items = some f) (hshort : f.Short) (hdate : f.Denotes current expand d)
      (hclock : IsClock clock ticks) :
      Denotes current expand .expect_timestamp (items ++ clock) ⟨d.number + MIN_DATE, ticks⟩
  | time {items : List Item} {ticks : ℤ} (hclock : IsClock items ticks) :
      Denotes current expand .expect_sql_time items ⟨baseDate, ticks⟩

/-! ## Documented strings -/

/-- A word, in letters of either case, and blanks around it. -/
def Word (name s : List UInt8) : Prop :=
  ∃ b w b', s = b ++ (w ++ b') ∧ (∀ x ∈ b, isBlank x = true) ∧ w.map UPPER = name ∧ ∀ x ∈ b', isBlank x = true

def currentYear (now : GDS_TIMESTAMP) : ℤ := (decode_date now.timestamp_date).tm_year + 1900

/-- The positions at which a month can have a name. -/
def months (expect_type : EXPECT_DATETIME) : ℕ := if expect_type = .expect_sql_time then 0 else 2

/-- The special words. -/
inductive Special (now : GDS_TIMESTAMP) : EXPECT_DATETIME → List UInt8 → GDS_TIMESTAMP → Prop where
  | now (expect_type : EXPECT_DATETIME) : Special now expect_type NOW now
  | today {expect_type : EXPECT_DATETIME} (h : expect_type ≠ .expect_sql_time) :
      Special now expect_type TODAY ⟨now.timestamp_date, 0⟩
  | tomorrow {expect_type : EXPECT_DATETIME} (h : expect_type ≠ .expect_sql_time) :
      Special now expect_type TOMORROW ⟨now.timestamp_date + 1, 0⟩
  | yesterday {expect_type : EXPECT_DATETIME} (h : expect_type ≠ .expect_sql_time) :
      Special now expect_type YESTERDAY ⟨now.timestamp_date - 1, 0⟩

/-- The string is a form of a date or a time, and denotes the timestamp. -/
inductive Documented (now : GDS_TIMESTAMP) (expect_type : EXPECT_DATETIME) (s : List UInt8)
    (ts : GDS_TIMESTAMP) : Prop where
  | word {name : List UInt8} (hspecial : Special now expect_type name ts) (hword : Word name s)
  | components {items : List Item} (hwritten : Written (months expect_type) items s)
      (hdenotes : Denotes (currentYear now) (nearest (currentYear now)) expect_type items ts)

example : nearest 1996 46 = 1946 ∧ nearest 1996 45 = 2045 ∧ nearest 1997 46 = 2046 := by decide

/-! ## Reading a string -/

/-- The component at the front of a string, if there is one. -/
def readFront (m : ℕ) (s : List UInt8) : Option (Component × List UInt8) :=
  if s.takeWhile isDigit ≠ [] then some (.number (s.takeWhile isDigit), s.dropWhile isDigit)
  else if 0 < m ∧ 3 ≤ (s.takeWhile isLetter).length then
    (findMonth ((s.takeWhile isLetter).map UPPER)).map fun n => (.month n, s.dropWhile isLetter)
  else none

/-- The separator at the front of a string, if there is one. -/
def readSeparator : List UInt8 → Option UInt8 × List UInt8
  | [] => (none, [])
  | c :: s => if isSeparator c then (some c, s) else (none, c :: s)

/-- Up to `k` components, and what is left. -/
def readItems : ℕ → ℕ → List UInt8 → List Item × List UInt8
  | 0, _, s => ([], s)
  | k + 1, m, s =>
      match readFront m (s.dropWhile isBlank) with
      | none => ([], s.dropWhile isBlank)
      | some (c, s) =>
          let front := readSeparator (s.dropWhile isBlank)
          let rest := readItems k (monthsLeft c m) front.2
          ((c, front.1) :: rest.1, rest.2)

/-- There is no separator behind the last component. -/
def Closed : List Item → Prop
  | [] => False
  | [(_, separator)] => separator = none
  | _ :: item :: items => Closed (item :: items)

end FirebirdCore.Cvt.DateTime
