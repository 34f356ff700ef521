import Inquiry.Analysis.Spec
import Inquiry.Text.Keyed

/-!
# Result.Basic — what an analysis finds

* `Record` is one count: of a bucket of time, or of a value.
* `Result` is what a backend answers for one analysis.
* `Response` is a result with those of its follow-up analyses, `Merged` the answer for a whole task.
-/

namespace Inquiry

/-- One count: the interactions and the distinct authors of a bucket that starts at a second of
Universal Time, or of a value. -/
inductive Record where
  | bucket (timestamp : Int64) (interactions uniqueAuthors : Nat)
  | frequency (key : String) (interactions uniqueAuthors : Nat)
  deriving DecidableEq, Repr

namespace Record

/-- The value that a frequency record counts. -/
def key? : Record → Option String
  | .frequency key _ _ => some key
  | .bucket .. => none

/-- The start of the bucket that a bucket record counts. -/
def timestamp? : Record → Option Int64
  | .bucket timestamp _ _ => some timestamp
  | .frequency .. => none

/-- The number of interactions counted. -/
def interactions : Record → Nat
  | .bucket _ n _ => n
  | .frequency _ n _ => n

/-- The number of distinct authors of the interactions counted. -/
def uniqueAuthors : Record → Nat
  | .bucket _ _ n => n
  | .frequency _ _ n => n

/-- The kind of analysis that a record belongs to. -/
def kind : Record → Kind
  | .bucket .. => .timeSeries
  | .frequency .. => .freqDist

end Record

/-- The answer of a backend for one analysis. The values or bucket starts that it withheld are listed
in `redacted`. -/
structure Result where
  kind : Kind
  parameters : Parameters
  records : List Record
  redacted : TextSet
  deriving DecidableEq, Repr

namespace Result

/-- A result that withholds nothing. -/
def ofRecords (parameters : Parameters) (records : List Record) : Result :=
  ⟨parameters.kind, parameters, records, .empty⟩

/-- The values that its frequency records count. -/
def keys (r : Result) : List String := r.records.filterMap Record.key?

end Result

/-- A result and the responses of its follow-up analyses, in ascending order of their merge keys. -/
structure Response where
  analysis : Result
  chained : List (String × Response)
  deriving Repr

/-- The response of an analysis without follow-ups. -/
def Response.ofResult (r : Result) : Response := ⟨r, []⟩

/-- The answer for a task: the response of its only analysis, or one response for each of its
analyses, in ascending order of their merge keys. -/
inductive Merged where
  | single (response : Response)
  | keyed (entries : Keyed Response)
  deriving Repr

namespace Merged

/-- The analysis of a task that has only one. -/
def analysis? : Merged → Option Result
  | .single r => some r.analysis
  | .keyed _ => none

/-- The response under a key: a member of a group, or a follow-up of a single analysis. -/
def get? (key : String) : Merged → Option Response
  | .single r => Keyed.find? key r.chained
  | .keyed entries => entries.find? key

/-- The keys of a group. -/
def keys : Merged → List String
  | .single _ => []
  | .keyed entries => entries.map Prod.fst

/-- Whether the task has a single analysis. -/
def isSingle : Merged → Bool
  | .single _ => true
  | .keyed _ => false

end Merged
end Inquiry
