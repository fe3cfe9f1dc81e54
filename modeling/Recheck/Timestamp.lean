import Recheck.Decimal
import Recheck.Text.Blank
import Recheck.Text.Split

/-!
# Timestamps

A point in time by the calendar and clock of UTC, down to the nanosecond. A minute may have a leap
second, numbered sixty.

`Timestamp.text` writes `2024-05-06T07:08:09.123Z`, with no, three, six or nine digits of the
second's fraction. `Timestamp.parse?` also reads numbers with fewer digits, blanks around the
numbers, a space in place of the `T`, and times with an offset from UTC.
-/

namespace Recheck

/-- Whether a year has a twenty-ninth of February. -/
def isLeapYear (year : Int) : Bool := year % 4 == 0 && (year % 100 != 0 || year % 400 == 0)

/-- The number of days of a month. -/
def daysIn (year : Int) (month : Nat) : Nat :=
  if month = 2 then if isLeapYear year then 29 else 28
  else if month = 4 ∨ month = 6 ∨ month = 9 ∨ month = 11 then 30
  else 31

/-- A point in time in UTC. -/
structure Timestamp where
  year : Int
  month : Nat
  day : Nat
  hour : Nat
  minute : Nat
  second : Nat
  nano : Nat
  month_mem : 1 ≤ month ∧ month ≤ 12
  day_mem : 1 ≤ day ∧ day ≤ daysIn year month
  hour_lt : hour < 24
  minute_lt : minute < 60
  second_le : second ≤ 60
  nano_lt : nano < 1000000000
deriving DecidableEq

namespace Timestamp

/-! ## Writing -/

/-- A number in at least `width` digits. -/
def padded (width n : Nat) : List Char :=
  let digits := Nat.toDigits 10 n
  List.replicate (width - digits.length) '0' ++ digits

/-- A year in at least four digits, with a sign unless it is one of four digits. -/
def yearText (year : Int) : List Char :=
  if 0 ≤ year ∧ year ≤ 9999 then padded 4 year.toNat
  else (if year < 0 then '-' else '+') :: padded 4 year.natAbs

/-- The fraction of a second, in as many groups of three digits as it needs. -/
def fractionText (nano : Nat) : List Char :=
  if nano = 0 then []
  else if nano % 1000000 = 0 then '.' :: padded 3 (nano / 1000000)
  else if nano % 1000 = 0 then '.' :: padded 6 (nano / 1000)
  else '.' :: padded 9 nano

/-- The written form of a timestamp. -/
def text (t : Timestamp) : String :=
  String.ofList
    (yearText t.year ++ '-' :: padded 2 t.month ++ '-' :: padded 2 t.day ++
      'T' :: padded 2 t.hour ++ ':' :: padded 2 t.minute ++ ':' :: padded 2 t.second ++
      fractionText t.nano ++ ['Z'])

/-! ## Building -/

/-- Years lie between `-maxYear`, included, and `maxYear`, excluded. -/
def maxYear : Int := 262143

/-- The timestamp with the given fields, if they make one. -/
def ofFields? (year : Int) (month day hour minute second nano : Nat) : Option Timestamp :=
  if h : (1 ≤ month ∧ month ≤ 12) ∧ (1 ≤ day ∧ day ≤ daysIn year month) ∧ hour < 24 ∧ minute < 60 ∧
      second ≤ 60 ∧ nano < 1000000000 then
    if -maxYear ≤ year ∧ year < maxYear then
      some
        { year, month, day, hour, minute, second, nano
          month_mem := h.1
          day_mem := h.2.1
          hour_lt := h.2.2.1
          minute_lt := h.2.2.2.1
          second_le := h.2.2.2.2.1
          nano_lt := h.2.2.2.2.2 }
    else none
  else none

/-- The day before a date. -/
def dayBefore (year : Int) (month day : Nat) : Int × Nat × Nat :=
  if 1 < day then (year, month, day - 1)
  else if 1 < month then (year, month - 1, daysIn year (month - 1))
  else (year - 1, 12, 31)

/-- The day after a date. -/
def dayAfter (year : Int) (month day : Nat) : Int × Nat × Nat :=
  if day < daysIn year month then (year, month, day + 1)
  else if month < 12 then (year, month + 1, 1)
  else (year + 1, 1, 1)

/-- The timestamp in UTC for the time of a clock that is ahead by some minutes, less than a day. -/
def behind? (t : Timestamp) (minutes : Int) : Option Timestamp :=
  let clock : Int := 60 * t.hour + t.minute - minutes
  let (date, clock) :=
    if clock < 0 then (dayBefore t.year t.month t.day, clock + 1440)
    else if clock ≥ 1440 then (dayAfter t.year t.month t.day, clock - 1440)
    else ((t.year, t.month, t.day), clock)
  ofFields? date.1 date.2.1 date.2.2 (clock.toNat / 60) (clock.toNat % 60) t.second t.nano

/-! ## Reading -/

/-- A number of at most `width` digits, after blanks. -/
def number? (width : Nat) (cs : List Char) : Option (Nat × List Char) :=
  let cs := Text.trimLeft cs
  let digits := (cs.takeWhile Char.isDigit).take width
  if digits.isEmpty then none else some (Decimal.value digits, cs.drop digits.length)

/-- A year: four digits at most, or any number of them after a sign. -/
def year? (cs : List Char) : Option (Int × List Char) :=
  match Text.trimLeft cs with
  | '-' :: rest =>
    let (digits, rest) := Decimal.span rest
    if digits.isEmpty then none else some (-(Decimal.value digits : Int), rest)
  | '+' :: rest =>
    let (digits, rest) := Decimal.span rest
    if digits.isEmpty then none else some ((Decimal.value digits : Int), rest)
  | cs => (number? 4 cs).map fun (n, rest) => ((n : Int), rest)

/-- What follows a character, after blanks. -/
def after? (c : Char) (cs : List Char) : Option (List Char) :=
  Text.stripStart? [c] (Text.trimLeft cs)

/-- The fraction of a second in nanoseconds. Digits after the ninth do not count. -/
def fraction? (cs : List Char) : Option (Nat × List Char) :=
  match cs with
  | '.' :: rest =>
    let (digits, rest) := Decimal.span rest
    if digits.isEmpty then none
    else
      let digits := digits.take 9
      some (Decimal.value digits * Nat.pow 10 (9 - digits.length), rest)
  | _ => some (0, cs)

/-- The offset of a clock from UTC in minutes. -/
def offset? (cs : List Char) : Option (Int × List Char) :=
  match cs with
  | c :: rest =>
    if c = 'Z' ∨ c = 'z' then some (0, rest)
    else if (String.ofList (cs.take 3)).map Char.toUpper = "UTC" then some (0, cs.drop 3)
    else
      let sign? : Option Int :=
        if c = '+' then some 1 else if c = '-' ∨ c = '−' then some (-1) else none
      match sign?, rest with
      | some sign, h1 :: h2 :: rest =>
        match rest.dropWhile fun c => c == ':' || Text.isBlank c with
        | m1 :: m2 :: rest =>
          if [h1, h2, m1, m2].all Char.isDigit then
            let hours := Decimal.value [h1, h2]
            let minutes := Decimal.value [m1, m2]
            if minutes < 60 ∧ hours < 24 then some (sign * (60 * hours + minutes : Nat), rest)
            else none
          else none
        | _ => none
      | _, _ => none
  | [] => none

/-- A year, a month and a day. -/
def date? (cs : List Char) : Option ((Int × Nat × Nat) × List Char) := do
  let (year, cs) ← year? cs
  let cs ← after? '-' cs
  let (month, cs) ← number? 2 cs
  let cs ← after? '-' cs
  let (day, cs) ← number? 2 cs
  some ((year, month, day), cs)

/-- What follows the mark between a date and a time. -/
def afterDate? : List Char → Option (List Char)
  | c :: rest => if c = 'T' ∨ c = 't' ∨ c = ' ' then some rest else none
  | [] => none

/-- An hour, a minute, a second and nanoseconds. -/
def clock? (cs : List Char) : Option ((Nat × Nat × Nat × Nat) × List Char) := do
  let (hour, cs) ← number? 2 cs
  let cs ← after? ':' cs
  let (minute, cs) ← number? 2 cs
  let cs ← after? ':' cs
  let (second, cs) ← number? 2 cs
  let (nano, cs) ← fraction? cs
  some ((hour, minute, second, nano), cs)

/-- Reads a timestamp. -/
def parse? (text : String) : Option Timestamp := do
  let ((year, month, day), cs) ← date? text.toList
  let cs ← afterDate? cs
  let ((hour, minute, second, nano), cs) ← clock? cs
  let (offset, cs) ← offset? (Text.trimLeft cs)
  let t ← ofFields? year month day hour minute second nano
  if (Text.trimLeft cs).isEmpty then t.behind? offset else none

/-! ## Counting -/

/-- The start of 1970. -/
def epoch : Timestamp where
  year := 1970
  month := 1
  day := 1
  hour := 0
  minute := 0
  second := 0
  nano := 0
  month_mem := by decide
  day_mem := by decide
  hour_lt := by decide
  minute_lt := by decide
  second_le := by decide
  nano_lt := by decide

/-- The date some days after the first of March of year zero. Years are counted from March, so that
the leap day comes last, in eras of four hundred years. -/
def ofDays (days : Int) : Int × Nat × Nat :=
  let era := days.fdiv 146097
  let dayOfEra := (days - era * 146097).toNat
  let yearOfEra := (dayOfEra - dayOfEra / 1460 + dayOfEra / 36524 - dayOfEra / 146096) / 365
  let dayOfYear := dayOfEra - (365 * yearOfEra + yearOfEra / 4 - yearOfEra / 100)
  let shifted := (5 * dayOfYear + 2) / 153
  let day := dayOfYear - (153 * shifted + 2) / 5 + 1
  let month := if shifted < 10 then shifted + 3 else shifted - 9
  (yearOfEra + era * 400 + (if month ≤ 2 then 1 else 0), month, day)

/-- The timestamp some milliseconds after the start of 1970. -/
def ofMillis? (millis : Int) : Option Timestamp :=
  let days := millis.fdiv 86400000
  let rest := (millis - days * 86400000).toNat
  let (year, month, day) := ofDays (days + 719468)
  let seconds := rest / 1000
  ofFields? year month day (seconds / 3600) (seconds / 60 % 60) (seconds % 60)
    (rest % 1000 * 1000000)

end Timestamp

end Recheck
