import Inquiry.Calendar.Date

/-!
# Calendar.Instant — points of time

An instant is a second of Universal Time counted from 1970-01-01, with a fraction in nanoseconds. The
second lies between the first of the year -262143 and the last of the year 262142. A fraction of a
whole second or more stands for a leap second that follows the counted one.
-/

namespace Inquiry
namespace Calendar

/-- The first second that has an instant. -/
def firstSecond : Int := -8334601228800

/-- The last second that has an instant. -/
def lastSecond : Int := 8210266876799

/-- The number of seconds of a day. -/
def daySeconds : Int := 86400

/-- A point of time. -/
structure Instant where
  second : Int
  nanosecond : Nat
  first_le : firstSecond ≤ second
  le_last : second ≤ lastSecond
  deriving DecidableEq

namespace Instant

/-- The instant of a second with a fraction, if the second is in range. -/
def of? (second : Int) (nanosecond : Nat) : Option Instant :=
  if h : firstSecond ≤ second ∧ second ≤ lastSecond then some ⟨second, nanosecond, h.1, h.2⟩
  else none

/-- The instant of a whole second; a second out of range gives the nearest one in range. -/
def ofSecond (second : Int) : Instant :=
  ⟨max firstSecond (min lastSecond second), 0, by omega, by simp only [firstSecond, lastSecond]; omega⟩

/-- The date of an instant. -/
def date (t : Instant) : Date := Date.ofDay (t.second / daySeconds)

/-- The seconds that have passed on the day of an instant. -/
def secondOfDay (t : Instant) : Nat := (t.second % daySeconds).toNat

/-- The month of an instant, months being counted from January of the year 0. -/
def month (t : Instant) : Int := t.date.year * 12 + t.date.month

end Instant
end Calendar
end Inquiry
