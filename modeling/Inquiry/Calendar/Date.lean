/-!
# Calendar.Date — the proleptic Gregorian calendar

Days are counted from 1970-01-01, years from the year 0, months of a year from 0.

* `daysBeforeYear` and `daysBeforeMonth` count the days in front of a year and of a month.
* `yearOfDay` and `monthOfDay` find the year and the month that a day lies in.
* `monthStart` is the first day of a month counted from January of the year 0.
-/

namespace Inquiry
namespace Calendar

/-- Whether a year has 366 days. -/
def isLeap (year : Int) : Bool :=
  year % 4 == 0 && (year % 100 != 0 || year % 400 == 0)

/-- The number of days from 0000-01-01 to 1970-01-01. -/
def epochDay : Int := 719528

/-- The day of January 1 of a year, counted from 0000-01-01. -/
def daysBeforeYear (year : Int) : Int :=
  let past := year - 1
  365 * year + past / 4 - past / 100 + past / 400 + 1

/-- The number of days of a year in front of a month. -/
def daysBeforeMonth (leap : Bool) (month : Nat) : Nat :=
  let common := match month with
    | 0 => 0 | 1 => 31 | 2 => 59 | 3 => 90 | 4 => 120 | 5 => 151
    | 6 => 181 | 7 => 212 | 8 => 243 | 9 => 273 | 10 => 304 | 11 => 334 | _ => 365
  if leap && 2 ≤ month then common + 1 else common

/-- The number of days of a month. -/
def daysInMonth (leap : Bool) (month : Nat) : Nat :=
  daysBeforeMonth leap (month + 1) - daysBeforeMonth leap month

/-- The year of a day counted from 0000-01-01. The mean length of a year gives it but for one. -/
def yearOfDay (day : Int) : Int :=
  let guess := day * 400 / 146097
  if day < daysBeforeYear guess then guess - 1
  else if daysBeforeYear (guess + 1) ≤ day then guess + 1
  else guess

/-- The month of a day of a year, both counted from 0. -/
def monthOfDay (leap : Bool) (dayOfYear : Nat) : Nat :=
  (List.range 11).countP fun m => daysBeforeMonth leap (m + 1) ≤ dayOfYear

/-- A date: the year, the month from 0, and the day of the month from 1. -/
structure Date where
  year : Int
  month : Nat
  day : Nat
  deriving DecidableEq, Repr

/-- Whether there is such a day. -/
def Date.isValid (d : Date) : Bool :=
  d.month < 12 && 1 ≤ d.day && d.day ≤ daysInMonth (isLeap d.year) d.month

/-- The day of a date, counted from 1970-01-01. -/
def Date.toDay (d : Date) : Int :=
  daysBeforeYear d.year + daysBeforeMonth (isLeap d.year) d.month + (d.day - 1) - epochDay

/-- The date of a day counted from 1970-01-01. -/
def Date.ofDay (day : Int) : Date :=
  let day := day + epochDay
  let year := yearOfDay day
  let dayOfYear := (day - daysBeforeYear year).toNat
  let month := monthOfDay (isLeap year) dayOfYear
  ⟨year, month, dayOfYear - daysBeforeMonth (isLeap year) month + 1⟩

/-- The first day, counted from 1970-01-01, of the month with the given number, months being counted
from January of the year 0. -/
def monthStart (month : Int) : Int :=
  Date.toDay ⟨month / 12, (month % 12).toNat, 1⟩

end Calendar
end Inquiry
