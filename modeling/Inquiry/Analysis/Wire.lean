import Inquiry.Analysis.Spec
import Inquiry.Json.Decode
import Inquiry.Json.Reader

/-!
# Analysis.Wire — specifications as documents

How kinds, intervals, parameters, specifications and merge keys are written and read. Parameters are
written without a tag: their members tell which kind they belong to, and a reader tries the time
series first.

Where a specification is read from a text, its members of other names are passed over as drafts;
`Spec.select` says what is left.
-/

namespace Inquiry

open Json (Draft Value)
open Json.Decode

/-- The document of a kind. -/
def Kind.toJson (k : Kind) : Value := .string k.key

/-- The kind that a document names. -/
def Kind.ofJson? (v : Value) : Option Kind := (word? v).bind ofKey?

/-- The document of an interval. -/
def Interval.toJson (i : Interval) : Value := .string i.word

/-- The interval that a document names. -/
def Interval.ofJson? (v : Value) : Option Interval := (word? v).bind ofWord?

namespace Parameters

/-- The document of parameters. -/
def toJson : Parameters → Value
  | .timeSeries interval span =>
    .object [("interval", interval.toJson), ("span", .ofNat span.toNat)]
  | .freqDist target threshold =>
    .object [("target", .string target), ("threshold", .ofNat threshold.toNat)]

/-- The parameters of a time series that a document holds. -/
def timeSeriesOfJson? (v : Value) : Option Parameters :=
  match objectFields ["interval", "span"] v with
  | some [some interval, some span] => do
    pure (.timeSeries (← Interval.ofJson? interval) (← uint32? span))
  | _ => none

/-- The parameters of a frequency distribution that a document holds. -/
def freqDistOfJson? (v : Value) : Option Parameters :=
  match objectFields ["target", "threshold"] v with
  | some [some target, some threshold] => do
    pure (.freqDist (← target.text?) (← uint32? threshold))
  | _ => none

/-- The parameters that a document holds: those of a time series if it can be read so. -/
def ofJson? (v : Value) : Option Parameters :=
  (timeSeriesOfJson? v).or (freqDistOfJson? v)

end Parameters

namespace Spec

/-- The members of the document of a specification, absent ones left out. -/
def jsonMembers (s : Spec) : List (String × Value) :=
  [("analysis_type", s.kind.toJson)]
    ++ (s.name.map fun n => ("name", .string n)).toList
    ++ (s.filter.map fun f => ("filter", .string f)).toList
    ++ [("parameters", s.parameters.toJson)]

/-- The document of a specification. -/
def toJson (s : Spec) : Value := .object s.jsonMembers

/-- The specification that a document holds. -/
def ofJson? (v : Value) : Option Spec :=
  match recordFields ["analysis_type", "name", "filter", "parameters"] v with
  | some [some kind, name, filter, some parameters] => do
    pure ⟨← Kind.ofJson? kind, ← optional Value.text? name, ← optional Value.text? filter,
      ← Parameters.ofJson? parameters⟩
  | _ => none

/-- What a specification takes of a draft. -/
def select : Draft → Draft :=
  Draft.select [("analysis_type", id), ("name", id), ("filter", id), ("parameters", id)]

/-- The specification that a text holds. -/
def ofText? (s : String) : Option Spec := (Json.Reader.readSelected? select s).bind ofJson?

end Spec

/-- The document of a merge key. -/
def MergeKey.toJson (k : MergeKey) : Value :=
  .object [("source", .string k.source), ("key", .string k.text)]

end Inquiry
