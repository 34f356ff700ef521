import Inquiry.Analysis.Spec
import Inquiry.Calendar.Instant

/-!
# Corpus.Bucket — buckets of time

Time is cut into buckets of `span` units each. Minutes, hours, days and weeks are cut from a fixed
origin: the first Monday of 1970 for weeks and the start of 1970 for the others. Months are counted
from January of the year 0.
-/

namespace Inquiry

open Calendar

namespace Interval

/-- The second from which buckets are counted: 1970-01-05 was a Monday. -/
def origin : Interval → Int
  | .week => 4 * daySeconds
  | _ => 0

/-- The number of units of a bucket; none counts as one. -/
def units (span : UInt32) : Nat := max span.toNat 1

/-- The first month of the bucket of a month. -/
def monthBucket (span : UInt32) (month : Int) : Int := month / units span * units span

/-- The start of the bucket that an instant lies in. A bucket of months that starts before the first
instant is replaced by the second of the instant itself. -/
def bucketStart (interval : Interval) (span : UInt32) (t : Instant) : Int :=
  match interval.seconds? with
  | some seconds =>
    let width : Int := seconds * units span
    (t.second - interval.origin) / width * width + interval.origin
  | none =>
    let start := monthStart (monthBucket span t.month) * daySeconds
    if firstSecond ≤ start ∧ start ≤ lastSecond then start else t.second

end Interval
end Inquiry
