import Inquiry.Json.Reader
import Inquiry.Result.Wire
import Inquiry.Run.Journal
import Inquiry.Service.Error
import Inquiry.Task.Compile

/-!
# Service.Process — running the configuration in a request

The body of a request is read up to the end of its first document, and what follows is passed over.
The document is compiled as a configuration, and the tasks of the graph are run. A request is refused
before anything runs, or answered with the outcomes of all tasks, failed ones among them.

* `readBody` and `readGraph` take a request apart; they say why it is refused.
* `ProcessReport` is the answer.
-/

namespace Inquiry
namespace Service

open Json (Value)

/-- The greatest length of a body, in bytes. -/
def maxBodyBytes : Nat := 2 * 1024 * 1024

/-- The document in the body of a request. -/
def readBody (r : Http.Request) : Except BodyError Value :=
  if !r.declaresJson then .error .notDeclared
  else if maxBodyBytes < r.body.utf8ByteSize then .error .tooLong
  else
    -- What follows the first document is passed over.
    match Json.Reader.readFirst r.body with
    | some (document, _) => .ok document
    | none => .error .notJson

/-- The graph that a request asks for. -/
def readGraph (r : Http.Request) : Except RequestError Graph :=
  match readBody r with
  | .error e => .error (.invalidRequest e.message)
  | .ok config => (Graph.compile config).mapError .invalidConfiguration

/-- What tells one run from another: a name of its own, and how long it took in milliseconds. -/
structure RunStamp where
  runId : String
  elapsed : Nat
  deriving DecidableEq, Repr

/-- The answer to a request: what came of each task. -/
structure ProcessReport where
  stamp : RunStamp
  completion : Run.Completion

/-- The document of the outcome of a task: the answer for it, or the message why there is none. -/
def outcomeToJson (o : Run.TaskOutcome) : Value :=
  let outcome := match o.outcome with
    | .ok merged => ("data", merged.toJson)
    | .error e => ("error", .string e.message)
  .object [("analysis_type", o.kind.toJson), ("index", .ofNat o.index),
    ("position", .string o.position), outcome]

/-- The document of an answer. -/
def ProcessReport.toJson (p : ProcessReport) : Value :=
  .object [("run_id", .string p.stamp.runId),
    ("succeeded", .ofNat p.completion.summary.succeeded),
    ("failed", .ofNat p.completion.summary.failed),
    ("elapsed_ms", .ofNat p.stamp.elapsed),
    ("outcomes", .array (p.completion.outcomes.map outcomeToJson))]

end Service
end Inquiry
