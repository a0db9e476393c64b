/-!
# Dates of the Gregorian calendar

The calendar is continued in both directions without end. A date is also the number of days since
the first of January 1970; `ofDayNumber` finds the date of such a number.
-/

namespace JsonTemplate.Calendar

structure Date where
  year : Int
  month : Nat
  day : Nat
  deriving DecidableEq, Repr

def isLeapYear (year : Int) : Bool :=
  year % 4 == 0 && (year % 100 != 0 || year % 400 == 0)

def monthLengths (year : Int) : List Nat :=
  [31, if isLeapYear year then 29 else 28, 31, 30, 31, 30, 31, 31, 30, 31, 30, 31]

/-- The days from the first of January of the year 1 to that of a year. -/
def daysBeforeYear (year : Int) : Int :=
  let y := year - 1
  365 * y + y / 4 - y / 100 + y / 400

/-- The number of the first of January 1970, counted from that of the year 1. -/
def epochDay : Int := 719162

def daysBeforeMonth (year : Int) (month : Nat) : Nat :=
  ((monthLengths year).take (month - 1)).foldl (· + ·) 0

/-- The month and the day of the month of a day of a year, which is counted from nought. -/
def monthAndDay : (lengths : List Nat) → (dayOfYear : Nat) → Nat × Nat
  | [], n => (1, n + 1)
  | length :: rest, n =>
    if n < length then (1, n + 1)
    else
      let (month, day) := monthAndDay rest (n - length)
      (month + 1, day)

namespace Date

/-- Whether the calendar has the date. -/
def isValid (d : Date) : Bool :=
  1 ≤ d.month && 1 ≤ d.day && d.day ≤ ((monthLengths d.year)[d.month - 1]?.getD 0)

def dayNumber (d : Date) : Int :=
  daysBeforeYear d.year + daysBeforeMonth d.year d.month + d.day - 1 - epochDay

/-- The date of a day of a year, which is counted from nought. -/
def ofDayOfYear (year : Int) (dayOfYear : Nat) : Date :=
  let (month, day) := monthAndDay (monthLengths year) dayOfYear
  ⟨year, month, day⟩

/-- The date of a number of days since the first of January 1970. -/
def ofDayNumber (n : Int) : Date :=
  let n := n + epochDay
  -- a cycle of 400 years has 146097 days; the estimate is off by one year at most
  let guess := 400 * n / 146097 + 1
  let year :=
    if n < daysBeforeYear guess then guess - 1
    else if daysBeforeYear (guess + 1) ≤ n then guess + 1
    else guess
  ofDayOfYear year (n - daysBeforeYear year).toNat

end Date

end JsonTemplate.Calendar
