import Inquiry.Backend
import Inquiry.Task.Graph

/-!
# Task.Merge — from results to the answer for a task

The results of a task come chain by chain, the head of a chain first. For a single chain the result of
the head is surfaced and the others are its follow-ups, each under its merge key; for a group all
results stand side by side under their merge keys. Two results under one key are an error.
-/

namespace Inquiry

/-- Why a task has no answer. -/
inductive TaskError where
  /-- The call of a leaf failed. -/
  | backend (position : String) (source : BackendError)
  /-- A result came under a key that was taken. -/
  | mergeKeyCollision (key position : String)
  /-- The run was cancelled before the task was complete. -/
  | cancelled
  /-- The task ended abnormally. -/
  | aborted (reason : String)
  deriving DecidableEq, Repr

/-- The message for a task without answer. -/
def TaskError.message : TaskError → String
  | .backend position source => "Backend error at " ++ position ++ ": " ++ source.message
  | .mergeKeyCollision key position =>
    "Merge key collision: '" ++ key ++ "' at " ++ position ++ " is already taken by a sibling"
  | .cancelled => "Execution cancelled"
  | .aborted reason => "Task aborted: " ++ reason

/-- The result of a leaf, with the key under which it is merged. -/
structure LeafOutput where
  key : String
  position : String
  result : Result
  deriving DecidableEq, Repr

/-- The output of a leaf. -/
def LeafOutput.of (leaf : Leaf) (result : Result) : LeafOutput :=
  ⟨leaf.mergeKey.text, leaf.position, result⟩

namespace Merged

/-- Adds outputs under their keys; the first whose key is taken is the one reported. -/
def insertAll (scope : Keyed Response) : List LeafOutput → Except TaskError (Keyed Response)
  | [] => .ok scope
  | output :: rest =>
    if (scope.find? output.key).isSome then
      .error (.mergeKeyCollision output.key output.position)
    else insertAll (scope.insertNew output.key (.ofResult output.result)) rest

/-- Merges the outputs of the chains of a task. -/
def ofOutputs (outputs : List (List LeafOutput)) : Node → Except TaskError Merged
  | .single chain =>
    match outputs.flatten with
    | [] => .error (.aborted ("no result produced for " ++ chain.head.position))
    | head :: rest => (insertAll [] rest).map fun chained => .single ⟨head.result, chained⟩
  | .group _ => (insertAll [] outputs.flatten).map .keyed

end Merged
end Inquiry
