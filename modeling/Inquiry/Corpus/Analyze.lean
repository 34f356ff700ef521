import Inquiry.Backend
import Inquiry.Corpus.Bucket
import Inquiry.Corpus.Interaction
import Inquiry.Corpus.Tally
import Inquiry.Filter.Match
import Inquiry.Filter.Parse

/-!
# Corpus.Analyze — analyses over a corpus in memory

A corpus answers an analysis by counting those of its interactions that the filter admits and that, in
a follow-up, the result before it has counted. Counts with fewer distinct authors than the least
audience are withheld, and their keys are listed instead.

* `Narrowing` is the restriction that the result of one analysis imposes on the next.
* `Corpus.select` picks the interactions to count.
* `Corpus.analyze` answers a request.
-/

namespace Inquiry

/-- A corpus of interactions, and the least number of distinct authors of a count that may be told. -/
structure Corpus where
  interactions : List Interaction
  minAudience : Nat

/-- The restriction that a result imposes on a follow-up: to interactions that have one of its values
at its target, or to those that lie in one of its buckets. -/
inductive Narrowing where
  | values (target : String) (keys : List String)
  | buckets (interval : Interval) (span : UInt32) (starts : List Int64)

namespace Narrowing

/-- The restriction that a result imposes. -/
def ofResult (r : Result) : Narrowing :=
  match r.parameters with
  | .freqDist target _ => .values target r.keys
  | .timeSeries interval span => .buckets interval span (r.records.filterMap Record.timestamp?)

/-- Whether an interaction is within the restriction. -/
def admits (i : Interaction) : Narrowing → Bool
  | .values target keys =>
    match i.fieldText? target with
    | some text => keys.contains text
    | none => false
  | .buckets interval span starts =>
    starts.contains (Int64.ofInt (interval.bucketStart span i.createdAt))

end Narrowing

namespace Corpus

/-- The corpus without interactions. -/
def empty : Corpus := ⟨[], 0⟩

/-- The corpus with one interaction more. -/
def add (c : Corpus) (i : Interaction) : Corpus := { c with interactions := c.interactions ++ [i] }

/-- The number of interactions. -/
def size (c : Corpus) : Nat := c.interactions.length

/-- Whether an interaction passes a filter, if there is one, and the restriction of a result, if there
is one. -/
def passes (filter : Option Filter) (context : Option Result) (i : Interaction) : Bool :=
  filter.all (·.admits i.fields) && context.all fun r => (Narrowing.ofResult r).admits i

/-- The filter of a specification. -/
def filterOf (spec : Spec) : Except BackendError (Option Filter) :=
  match spec.filter with
  | none => .ok none
  | some expr =>
    match Filter.parse expr with
    | .error e => .error (.invalidRequest e.message)
    | .ok f => .ok (some f)

/-- The interactions that a request is about. -/
def select (c : Corpus) (spec : Spec) (context : Option Result) :
    Except BackendError (List Interaction) :=
  (filterOf spec).map fun filter => c.interactions.filter (passes filter context)

/-- Whether a tally has too few authors to be told. -/
def withholds (c : Corpus) (t : Tally) : Bool := t.uniqueAuthors < c.minAudience

/-- The records of a time series, and the starts of the buckets that are withheld. -/
def timeSeries (c : Corpus) (selected : List Interaction) (interval : Interval) (span : UInt32) :
    List Record × TextSet :=
  let tallies := Tallies.ofItems (fun i => some (interval.bucketStart span i.createdAt))
    Interaction.author selected
  let (withheld, told) := tallies.partition fun entry => c.withholds entry.2
  ((told.mergeSort fun a b => a.1 ≤ b.1).map fun (start, t) =>
      .bucket (Int64.ofInt start) t.interactions t.uniqueAuthors,
    .ofList (withheld.map fun entry => toString entry.1))

/-- Whether the first of two counts is listed before the second: the greater number of interactions
first, and of equal numbers the lesser value. -/
def ranksBefore (a b : String × Tally) : Bool :=
  b.2.interactions < a.2.interactions || (b.2.interactions == a.2.interactions && a.1 ≤ b.1)

/-- The records of a frequency distribution, and the values that are withheld. The records are cut off
at the threshold after values are withheld. -/
def frequencies (c : Corpus) (selected : List Interaction) (target : String) (threshold : UInt32) :
    List Record × TextSet :=
  let tallies := Tallies.ofItems (Interaction.fieldText? · target) Interaction.author selected
  let (withheld, told) := tallies.partition fun entry => c.withholds entry.2
  (((told.mergeSort ranksBefore).take threshold.toNat).map fun (key, t) =>
      .frequency key t.interactions t.uniqueAuthors,
    .ofList (withheld.map Prod.fst))

/-- Answers a request. The result repeats the kind and the parameters of the specification. -/
def analyze (c : Corpus) (spec : Spec) (context : Option Result) : Except BackendError Result :=
  -- A bad filter is reported before a bad span, and even of an empty corpus.
  match c.select spec context with
  | .error e => .error e
  | .ok selected =>
    match spec.parameters with
    | .timeSeries interval span =>
      if span = 0 then .error (.invalidRequest "span must be at least 1")
      else
        let (records, redacted) := c.timeSeries selected interval span
        .ok ⟨spec.kind, spec.parameters, records, redacted⟩
    | .freqDist target threshold =>
      let (records, redacted) := c.frequencies selected target threshold
      .ok ⟨spec.kind, spec.parameters, records, redacted⟩

end Corpus
end Inquiry
