import Inquiry.Analysis.Spec
import Inquiry.Config.Error
import Inquiry.Json.Value
import Inquiry.Text.Blank

/-!
# Config.Fields — the fields of an analysis in a configuration

Each kind of analysis has two required parameters, and each analysis may have a name and a filter.
The parameters are checked in the order in which they are documented, the first fault is reported.

* `Kind.fields` documents the parameters, and `Parameters.parse` reads them.
* `optionalText` reads a name or a filter.
-/

namespace Inquiry

open Json (Value)

/-- The description of one parameter. -/
structure Field where
  name : String
  type : String
  description : String
  deriving DecidableEq, Repr

namespace Kind

/-- What an analysis of a kind computes. -/
def description : Kind → String
  | .timeSeries => "Interaction counts bucketed over time"
  | .freqDist => "Most frequent values of a target field"

/-- The required parameters of a kind. -/
def fields : Kind → List Field
  | .timeSeries =>
    [⟨"interval", "string", "Bucket unit: minute, hour, day, week or month"⟩,
      ⟨"span", "integer", "Number of intervals per bucket"⟩]
  | .freqDist =>
    [⟨"target", "string", "Field path whose values are counted"⟩,
      ⟨"threshold", "integer", "Maximum number of values returned"⟩]

/-- Whether a name is that of a parameter of a kind. -/
def hasField (k : Kind) (name : String) : Bool :=
  k.fields.any (·.name == name)

end Kind

namespace Config

/-- A field that must be there and not null. -/
def required (spec : Value) (field position : String) : Except ConfigError Value :=
  match spec.member? field with
  | none => .error (.missingField position field)
  | some .null => .error (.missingField position field)
  | some v => .ok v

/-- The integer from 1 to `2 ^ 32 - 1` that a document is. -/
def positive? (v : Value) : Option UInt32 :=
  match v.integer? with
  | some n => if 1 ≤ n ∧ n < Nat.pow 2 32 then some (UInt32.ofNat n.toNat) else none
  | none => none

/-- The trimmed text of a string that is not blank. -/
def trimmedText? (v : Value) : Option String :=
  match v.text? with
  | some s => if Text.isBlankText s then none else some (Text.trim s)
  | none => none

/-- A required field read by `read?`. -/
def requiredAs {α : Type} (read? : Value → Option α) (expected : Expectation)
    (spec : Value) (field position : String) : Except ConfigError α :=
  match required spec field position with
  | .error e => .error e
  | .ok v =>
    match read? v with
    | some a => .ok a
    | none => .error (.invalidField position field expected)

/-- A text that may be absent or null, and is not blank; it is kept as it is. -/
def optionalText (spec : Value) (field position : String) : Except ConfigError (Option String) :=
  match spec.member? field with
  | none => .ok none
  | some .null => .ok none
  | some (.string s) =>
    if Text.isBlankText s then .error (.invalidField position field .nonEmptyString) else .ok (some s)
  | some _ => .error (.invalidField position field .nonEmptyString)

end Config

/-- Reads the parameters of a kind from the object at a position. -/
def Parameters.parse (kind : Kind) (spec : Value) (position : String) :
    Except ConfigError Parameters :=
  match kind with
  | .timeSeries => do
    let interval ← Config.requiredAs (fun v => v.text?.bind Interval.ofWord?) .intervalWord
      spec "interval" position
    let span ← Config.requiredAs Config.positive? .positiveInteger spec "span" position
    pure (.timeSeries interval span)
  | .freqDist => do
    let target ← Config.requiredAs Config.trimmedText? .nonEmptyString spec "target" position
    let threshold ← Config.requiredAs Config.positive? .positiveInteger spec "threshold" position
    pure (.freqDist target threshold)

end Inquiry
