import Inquiry.Run.Agenda

/-!
# Run.Settle — when a task is decided

A task is decided when all its chains are finished, or by a chain that cannot be. A crash decides it at
once. A failure decides it at once in a group of at most `smallSize` chains; in a larger group it does
so when every chain in front of it is finished. When several chains have failed, the first counts.

* `verdict?` is the decision that the strands of a task allow.
* `State.settle` reports a decided task and gives up the strands that are left of it.
-/

namespace Inquiry
namespace Run

/-- The outputs of the chains of a task, or why there are none. -/
abbrev Verdict := Except TaskError (List (List LeafOutput))

namespace Strand

/-- The message of a crash. -/
def crash? (s : Strand) : Option String :=
  match s.phase with
  | .crashed message => some message
  | _ => none

/-- The failure of a strand. -/
def failure? (s : Strand) : Option TaskError :=
  match s.phase with
  | .failed e => some e
  | _ => none

/-- Whether all links are answered. -/
def isFinished (s : Strand) : Bool :=
  match s.phase with
  | .finished => true
  | _ => false

/-- The outputs, the head first. -/
def chainOutput (s : Strand) : List LeafOutput := s.outputs.reverse

end Strand

/-- The first failure that no unfinished strand stands in front of. -/
def leadingFailure? : List Strand → Option TaskError
  | [] => none
  | s :: rest => if s.isFinished then leadingFailure? rest else s.failure?

/-- The failure that decides a task. -/
def decidingFailure? (strands : List Strand) : Option TaskError :=
  if strands.length ≤ smallSize then strands.findSome? Strand.failure? else leadingFailure? strands

/-- The decision that the strands of a task allow. -/
def verdict? (strands : List Strand) : Option Verdict :=
  -- A crash counts before every failure.
  match strands.findSome? Strand.crash? with
  | some message => some (.error (.aborted ("task worker panicked: " ++ message)))
  | none =>
    match decidingFailure? strands with
    | some e => some (.error e)
    | none =>
      if strands.all Strand.isFinished then some (.ok (strands.map Strand.chainOutput)) else none

/-- The outcome of a task with a decision. -/
def outcomeOf (setup : Setup) (task : Nat) : Verdict → Outcome
  | .error e => .error e
  | .ok outputs =>
    match setup.graph.tasks[task]? with
    | some t => Merged.ofOutputs outputs t.node
    | none => .error (.aborted "task worker ended without a result")

namespace Phase

/-- What becomes of a phase when its task is over. -/
def giveUp (phase : Phase) : Phase :=
  if phase.isOver then phase else dropped

/-- The event of giving up a phase. -/
def farewell? : Phase → Option Event
  | waiting _ link _ => some (.withdrawn link)
  | granted link _ => some (.withdrawn link)
  | holding link _ => some (.withdrawn link)
  | calling _ link _ _ _ => some (.cutOff link)
  | _ => none

end Phase

namespace State

/-- Records the end of what is left of a task. -/
def recordFarewells (s : State) (strands : List Strand) : State :=
  strands.foldl (fun s strand =>
    match strand.phase.farewell? with
    | some event => s.record event
    | none => s) s

/-- Gives up the strands of a task, which give their permits back. -/
def giveUp (s : State) (task : Nat) : State :=
  let own := s.strandsOf task
  let s := s.recordFarewells own
  releaseAll (own.countP (·.phase.hasPermit))
    { s with strands := s.strands.map fun strand =>
        if strand.task == task then { strand with phase := strand.phase.giveUp } else strand }

/-- Reports a task and gives up what is left of it. -/
def report (s : State) (task : Nat) (outcome : Outcome) : State :=
  (s.giveUp task).record (.reported task outcome)

/-- Reports a task if its strands decide it. -/
def settle (s : State) (setup : Setup) (task : Nat) : State :=
  match verdict? (s.strandsOf task) with
  | some verdict => s.report task (outcomeOf setup task verdict)
  | none => s

end State
end Run
end Inquiry
