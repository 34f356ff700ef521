/-!
# Analysis.Spec — what an analysis is asked to compute

An analysis counts interactions, in buckets of time or by the values of a field. Its specification
holds its parameters and the name and the filter that the caller gave it.

* `Kind` and `Interval` with the words that name them in documents.
* `Parameters`, of one form for each kind.
* `Spec`, one analysis to run.
-/

namespace Inquiry

/-- The kinds of analyses. -/
inductive Kind where
  | timeSeries
  | freqDist
  deriving DecidableEq, Repr, Inhabited

namespace Kind

/-- All kinds in the order in which they are listed. -/
def all : List Kind := [.timeSeries, .freqDist]

/-- The word for a kind in documents. -/
def key : Kind → String
  | .timeSeries => "timeSeries"
  | .freqDist => "freqDist"

/-- The kind that a word names. -/
def ofKey? (word : String) : Option Kind :=
  all.find? (·.key == word)

end Kind

/-- The units of time that buckets are measured in. -/
inductive Interval where
  | minute
  | hour
  | day
  | week
  | month
  deriving DecidableEq, Repr, Inhabited

namespace Interval

/-- All units, the shortest first. -/
def all : List Interval := [.minute, .hour, .day, .week, .month]

/-- The word for a unit in documents. -/
def word : Interval → String
  | .minute => "minute"
  | .hour => "hour"
  | .day => "day"
  | .week => "week"
  | .month => "month"

/-- The unit that a word names. -/
def ofWord? (word : String) : Option Interval :=
  all.find? (·.word == word)

/-- The length of a unit in seconds. A month has none: it is a unit of the calendar. -/
def seconds? : Interval → Option Nat
  | .minute => some 60
  | .hour => some 3600
  | .day => some 86400
  | .week => some 604800
  | .month => none

end Interval

/-- The parameters of an analysis: the buckets of a time series, or the counted field of a frequency
distribution and the greatest number of values to list. -/
inductive Parameters where
  | timeSeries (interval : Interval) (span : UInt32)
  | freqDist (target : String) (threshold : UInt32)
  deriving DecidableEq, Repr

namespace Parameters

/-- The kind of analysis that parameters belong to. -/
def kind : Parameters → Kind
  | .timeSeries .. => .timeSeries
  | .freqDist .. => .freqDist

/-- The counted field of a frequency distribution. -/
def target? : Parameters → Option String
  | .freqDist target _ => some target
  | .timeSeries .. => none

end Parameters

/-- One analysis to run. -/
structure Spec where
  kind : Kind
  name : Option String
  filter : Option String
  parameters : Parameters
  deriving DecidableEq, Repr

/-- What the caller calls an analysis: its name, or else its filter. -/
def Spec.explicitKey? (s : Spec) : Option String :=
  s.name.or s.filter

/-- The key under which the result of an analysis is merged, and where it comes from. -/
inductive MergeKey where
  | name (text : String)
  | filter (text : String)
  | position (text : String)
  deriving DecidableEq, Repr

namespace MergeKey

/-- The key of an analysis at a position: its name, else its filter, else the position. -/
def resolve (s : Spec) (position : String) : MergeKey :=
  match s.name, s.filter with
  | some n, _ => .name n
  | none, some f => .filter f
  | none, none => .position position

/-- The text of a key, which alone decides whether two keys are the same. -/
def text : MergeKey → String
  | .name t => t
  | .filter t => t
  | .position t => t

/-- The word for the source of a key. -/
def source : MergeKey → String
  | .name _ => "name"
  | .filter _ => "filter"
  | .position _ => "position"

end MergeKey
end Inquiry
