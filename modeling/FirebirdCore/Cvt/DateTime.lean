import FirebirdCore.Cvt.Decompose
import FirebirdCore.TimeStamp.Dates

/-!
# Strings to dates and times

`string_to_datetime` reads a string by up to seven components, and takes a date and a time from them.
-/
namespace FirebirdCore.Cvt.DateTime
open FirebirdCore.TimeStamp

inductive EXPECT_DATETIME where
  | expect_timestamp
  | expect_sql_date
  | expect_sql_time
  deriving DecidableEq, Repr

inductive DateTimeError where
  | convert_error
  | date_range_exceeded
  | time_range_exceeded
  | datetime_range_exceeded
  deriving DecidableEq, Repr

structure GDS_TIMESTAMP where
  timestamp_date : ℤ
  timestamp_time : ℤ
  deriving DecidableEq, Repr

namespace GDS_TIMESTAMP

/-- The time is unsigned. -/
def isValid (ts : GDS_TIMESTAMP) : Prop :=
  (MIN_DATE ≤ ts.timestamp_date ∧ ts.timestamp_date ≤ MAX_DATE) ∧
    ts.timestamp_time < 24 * 3600 * ISC_TIME_SECONDS_PRECISION

instance decidableIsValid (ts : GDS_TIMESTAMP) : Decidable ts.isValid := inferInstanceAs (Decidable (_ ∧ _))

/-- Without fractions. -/
def encode (times : Tm) : GDS_TIMESTAMP :=
  ⟨encode_date times, encode_time times.tm_hour times.tm_min times.tm_sec 0⟩

def decode (ts : GDS_TIMESTAMP) : Tm :=
  let time := decode_time ts.timestamp_time
  { decode_date ts.timestamp_date with
    tm_hour := time.1
    tm_min := time.2.1
    tm_sec := time.2.2.1 }

end GDS_TIMESTAMP

/-! ## Characters and words -/

def isBlank (c : UInt8) : Bool := c = 32 || c = 9

/-- What is allowed behind a date. -/
def isTrailing (c : UInt8) : Bool := isBlank c || c = 0

instance decidableTrailing (p : List UInt8) : Decidable (∀ c ∈ p, isTrailing c = true) := List.decidableBAll _ _

def LETTER7 (c : UInt8) : Bool := 65 ≤ c && c ≤ 90

def NOW : List UInt8 := [78, 79, 87]
def TODAY : List UInt8 := [84, 79, 68, 65, 89]
def TOMORROW : List UInt8 := [84, 79, 77, 79, 82, 82, 79, 87]
def YESTERDAY : List UInt8 := [89, 69, 83, 84, 69, 82, 68, 65, 89]

def FB_LONG_MONTHS_UPPER : List (List UInt8) :=
  [[74, 65, 78, 85, 65, 82, 89], [70, 69, 66, 82, 85, 65, 82, 89], [77, 65, 82, 67, 72], [65, 80, 82, 73, 76],
    [77, 65, 89], [74, 85, 78, 69], [74, 85, 76, 89], [65, 85, 71, 85, 83, 84],
    [83, 69, 80, 84, 69, 77, 66, 69, 82], [79, 67, 84, 79, 66, 69, 82], [78, 79, 86, 69, 77, 66, 69, 82],
    [68, 69, 67, 69, 77, 66, 69, 82]]

/-- The first month whose name the letters begin. -/
def findMonth (temp : List UInt8) : Option ℕ :=
  (FB_LONG_MONTHS_UPPER.findIdx? fun name => temp.isPrefixOf name).map (· + 1)

/-! ## Components -/

/-- The number and the count of its digits, both `USHORT`. -/
def readNumber : List UInt8 → UInt16 → UInt16 → (UInt16 × UInt16) × List UInt8
  | [], n, precision => ((n, precision), [])
  | c :: p, n, precision =>
      if isDigit c then readNumber p (n * 10 + c.toUInt16 - 48) (precision + 1) else ((n, precision), c :: p)

/-- Letters as far as there is room for them. -/
def readLetters : ℕ → List UInt8 → List UInt8 × List UInt8
  | 0, p => ([], p)
  | _ + 1, [] => ([], [])
  | room + 1, c :: p =>
      if LETTER7 (UPPER c) then
        let r := readLetters room p
        (UPPER c :: r.1, r.2)
      else ([], c :: p)

/-- The numbers of digits that are no numbers: 0 means missing. -/
def ENGLISH_MONTH : ℤ := -1

/-- The components with their descriptions, up to the one that is read. -/
structure Scanner where
  parts : List (UInt16 × ℤ)
  have_english_month : Bool
  dot_separator_seen : Bool
  deriving DecidableEq, Repr

namespace Scanner

def component (s : Scanner) (i : ℕ) : UInt16 := (s.parts.getD i (0, 0)).1

def description (s : Scanner) (i : ℕ) : ℤ := (s.parts.getD i (0, 0)).2

end Scanner

/-- What stands in front: a component, or a word that is no month. -/
inductive Read where
  | part (n : UInt16) (description : ℤ) (p : List UInt8)
  | special (temp : List UInt8)

/-- The letters of the longest special word, and one more. -/
def ROOM : ℕ := YESTERDAY.length + 1

def readComponent (s : Scanner) (c : UInt8) (p : List UInt8) : Except DateTimeError Read :=
  if isDigit (UPPER c) then
    let r := readNumber (c :: p) 0 0
    .ok (.part r.1.1 r.1.2.toNat r.2)
  else if LETTER7 (UPPER c) ∧ ¬ s.have_english_month then
    let r := readLetters ROOM (c :: p)
    -- insist on at least 3 characters for month names
    if r.1.length < 3 then .error .convert_error
    else
      -- month names are only allowed in first 2 positions
      match (if s.parts.length < 2 then findMonth r.1 else none) with
      | some n => .ok (.part (.ofNat n) ENGLISH_MONTH r.2)
      | none =>
          -- the check begins behind the character that follows the word
          if ∀ c ∈ r.2.drop 1, isTrailing c then .ok (.special r.1) else .error .convert_error
  else .error .convert_error

/-- What the loop over the components comes to: a word, or the components up to the position `i`, and
what is left. -/
inductive Parsed where
  | special (temp : List UInt8)
  | components (i : ℕ) (s : Scanner) (p : List UInt8)

/-- The loop over the components, of which there is room for the given number. -/
def parseComponents : ℕ → Scanner → List UInt8 → Except DateTimeError Parsed
  | 0, s, p => .ok (.components s.parts.length s p)
  | k + 1, s, p =>
      match p.dropWhile isBlank with
      | [] => .ok (.components s.parts.length s [])
      | c :: p =>
          match readComponent s c p with
          | .error e => .error e
          | .ok (.special temp) => .ok (.special temp)
          | .ok (.part n description p) =>
              let i := s.parts.length
              let s := { s with
                parts := s.parts ++ [(n, description)]
                have_english_month := s.have_english_month || description = ENGLISH_MONTH }
              match p.dropWhile isBlank with
              | [] => .ok (.components i s [])
              | c :: p =>
                  -- grab a separator character
                  if c = 47 ∨ c = 45 ∨ c = 44 ∨ c = 58 then parseComponents k s p
                  else if c = 46 then
                    parseComponents k
                      { s with dot_separator_seen := s.dot_separator_seen || decide (i ≤ 1) } p
                  else parseComponents k s (c :: p)

/-! ## Dates and times -/

/-- The positions of the year, the month and the day. -/
def positions (s : Scanner) : ℕ × ℕ × ℕ :=
  if s.description 0 ≥ 3 then (0, 1, 2)
  else if s.description 0 = ENGLISH_MONTH then (2, 0, 1)
  else if s.description 1 = ENGLISH_MONTH then (2, 1, 0)
  else if s.dot_separator_seen then (2, 1, 0)
  else (2, 0, 1)

/-- The year, if it has one or two digits. -/
def expandYear (times2 : Tm) (tm_year : ℤ) : ℤ :=
  if tm_year < (times2.tm_year - 50).tmod 100 then tm_year + 2000 else tm_year + 1900

/-- The date of the components. None if they are none. -/
def dateOf (now : GDS_TIMESTAMP) (s : Scanner) : Option Tm :=
  let (position_year, position_month, position_day) := positions s
  if s.description position_year > 4 ∨ s.description position_month > 2 ∨ s.description position_month = 0 ∨
      s.description position_day > 2 ∨ s.description position_day ≤ 0 then none
  else
    let times2 := now.decode
    let tm_year : ℤ := (s.component position_year).toNat
    let tm_year :=
      if s.description position_year = 0 then times2.tm_year + 1900
      else if s.description position_year ≤ 2 then expandYear times2 tm_year
      else tm_year
    some { Tm.zero with
      tm_year := tm_year - 1900
      tm_mon := (s.component position_month).toNat - 1
      tm_mday := (s.component position_day).toNat }

/-- The time of day is out of range, or its components are too long. -/
def badTime (s : Scanner) : Prop :=
  s.component 3 > 23 ∨ s.component 4 > 59 ∨ s.component 5 > 59 ∨ s.description 3 > 2 ∨ s.description 3 = 0 ∨
    s.description 4 > 2 ∨ s.description 4 = 0 ∨ s.description 5 > 2 ∨ s.description 6 > 4

instance decidableBadTime (s : Scanner) : Decidable (badTime s) := inferInstanceAs (Decidable (_ ∨ _))

/-- One digit more in each turn. -/
def scaleFraction : ℕ → UInt16 → UInt16
  | 0, n => n
  | k + 1, n => scaleFraction k (n * 10)

def start_component (expect_type : EXPECT_DATETIME) : ℕ :=
  if expect_type = .expect_sql_time then 3 else 0

def rangeError : EXPECT_DATETIME → DateTimeError
  | .expect_sql_date => .date_range_exceeded
  | .expect_sql_time => .time_range_exceeded
  | .expect_timestamp => .datetime_range_exceeded

/-- What is encoded is decoded to other values. -/
def Differs (times times2 : Tm) : Prop :=
  times.tm_year ≠ times2.tm_year ∨ times.tm_mon ≠ times2.tm_mon ∨ times.tm_mday ≠ times2.tm_mday ∨
    times.tm_hour ≠ times2.tm_hour ∨ times.tm_min ≠ times2.tm_min ∨ times.tm_sec ≠ times2.tm_sec

instance decidableDiffers (times times2 : Tm) : Decidable (Differs times times2) :=
  inferInstanceAs (Decidable (_ ∨ _))

/-- What is done with the date of the components. -/
def convert (expect_type : EXPECT_DATETIME) (i : ℕ) (s : Scanner) (times : Tm) :
    Except DateTimeError GDS_TIMESTAMP :=
  if i > 2 ∧ badTime s then .error .convert_error
  else
    let times :=
      if i > 2 then
        { times with
          tm_hour := (s.component 3).toNat
          tm_min := (s.component 4).toNat
          tm_sec := (s.component 5).toNat }
      else times
    let ts := GDS_TIMESTAMP.encode times
    let times2 := ts.decode
    if ¬ ts.isValid then .error (rangeError expect_type)
    else if expect_type ≠ .expect_sql_time ∧ Differs times times2 then .error .convert_error
    else
      let fraction := scaleFraction (4 - s.description 6).toNat (s.component 6)
      .ok { ts with timestamp_time := ts.timestamp_time + fraction.toNat }

/-- Behind the loop over the components. -/
def finish (now : GDS_TIMESTAMP) (expect_type : EXPECT_DATETIME) (i : ℕ) (s : Scanner) (p : List UInt8) :
    Except DateTimeError GDS_TIMESTAMP :=
  -- user must provide at least 2 components
  if i - start_component expect_type < 1 then .error .convert_error
  -- dates cannot have a time portion
  else if expect_type = .expect_sql_date ∧ i > 2 then .error .convert_error
  else if ¬ ∀ c ∈ p, isTrailing c then .error .convert_error
  else if expect_type = .expect_sql_time then convert expect_type i s { Tm.zero with tm_mday := 1 }
  else
    match dateOf now s with
    | none => .error .convert_error
    | some times => convert expect_type i s times

/-- Behind a word that is no month. -/
def specialWord (now : GDS_TIMESTAMP) (expect_type : EXPECT_DATETIME) (temp : List UInt8) :
    Except DateTimeError GDS_TIMESTAMP :=
  if temp = NOW then .ok now
  else if expect_type = .expect_sql_time then .error .convert_error
  else if temp = TODAY then .ok { now with timestamp_time := 0 }
  else if temp = TOMORROW then .ok ⟨now.timestamp_date + 1, 0⟩
  else if temp = YESTERDAY then .ok ⟨now.timestamp_date - 1, 0⟩
  else .error .convert_error

/-- The string `p` at the time `now`. -/
def string_to_datetime (now : GDS_TIMESTAMP) (expect_type : EXPECT_DATETIME) (p : List UInt8) :
    Except DateTimeError GDS_TIMESTAMP :=
  let start := start_component expect_type
  match parseComponents (7 - start) ⟨List.replicate start (0, 0), false, false⟩ p with
  | .error e => .error e
  | .ok (.special temp) => specialWord now expect_type temp
  | .ok (.components i s p) => finish now expect_type i s p

end FirebirdCore.Cvt.DateTime
