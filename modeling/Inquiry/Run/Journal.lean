import Inquiry.Run.Rest

/-!
# Run.Journal — what a run leaves behind

A run reports each task once. It may be cancelled, which reports every task that is left, or given up,
after which nothing happens at all.

* `Journal` is the record of a run in the order of time.
* `Setup.run` runs a graph; `Journal.reports`, `Journal.calls`, `Journal.peak` and `Journal.summary?`
  read the record.
* `Setup.complete` runs a graph to its end and lists the outcomes in the order of the graph.
-/

namespace Inquiry
namespace Run

/-- The report of a task, and its time. -/
structure Report where
  task : Nat
  at_ : Nat
  outcome : Outcome

/-- A call of the backend: when it started, in which context, and when it was answered, if it was. -/
structure Call where
  leaf : Leaf
  context : Option Result
  start : Nat
  answered : Option Nat

/-- The end of a run: how many tasks there were, and how they went. -/
structure Summary where
  tasks : Nat
  succeeded : Nat
  failed : Nat
  deriving DecidableEq, Repr

/-- The events of a run in the order of time. -/
structure Journal where
  setup : Setup
  events : List Stamped

/-- When a run is interrupted. -/
structure Interruption where
  cancelAt : Option Nat := none
  abandonAt : Option Nat := none

namespace State

/-- The tasks that have been reported. -/
def reported (s : State) : List Nat :=
  s.log.filterMap fun stamped =>
    match stamped.event with
    | .reported task _ => some task
    | _ => none

/-- The tasks that have not been reported, in the order of the graph. -/
def unreported (s : State) (setup : Setup) : List Nat :=
  let reported := s.reported
  (List.range setup.graph.tasks.length).filter fun task => !reported.contains task

/-- Cancels what is left of a run: every task that has not been reported is reported now. -/
def cancel (s : State) (setup : Setup) (time : Nat) : State :=
  (s.unreported setup).foldl (fun s task => s.report task (.error .cancelled)) { s with now := time }

end State

/-- The last state of a run. A run that is over when it is interrupted is not affected. -/
def Setup.finalState (setup : Setup) (interruption : Interruption) : State :=
  match interruption.cancelAt with
  | none => setup.rest interruption.abandonAt
  | some time =>
    -- A run that is given up first, or at the same time, has nothing left to cancel.
    if interruption.abandonAt.any (· ≤ time) then setup.rest interruption.abandonAt
    else (setup.rest (some time)).cancel setup time

/-- Runs a graph. -/
def Setup.run (setup : Setup) (interruption : Interruption) : Journal :=
  ⟨setup, (setup.finalState interruption).log.reverse⟩

namespace Journal

/-- The reports in the order of time. -/
def reports (j : Journal) : List Report :=
  j.events.filterMap fun stamped =>
    match stamped.event with
    | .reported task outcome => some ⟨task, stamped.at_, outcome⟩
    | _ => none

/-- The time at which the call of a leaf was answered. -/
def answeredAt? (j : Journal) (leaf : Leaf) : Option Nat :=
  j.events.findSome? fun stamped =>
    match stamped.event with
    | .answered answered _ => if answered.id = leaf.id then some stamped.at_ else none
    | _ => none

/-- The calls in the order in which they started. -/
def calls (j : Journal) : List Call :=
  j.events.filterMap fun stamped =>
    match stamped.event with
    | .began leaf context => some ⟨leaf, context, stamped.at_, j.answeredAt? leaf⟩
    | _ => none

/-- The number of calls in flight after an event. -/
def inFlightAfter (n : Nat) : Event → Nat
  | .began .. => n + 1
  | .answered .. => n - 1
  | .timedOut _ => n - 1
  | .cutOff _ => n - 1
  | _ => n

/-- The greatest number of calls that were in flight together. -/
def peak (j : Journal) : Nat :=
  (j.events.foldl (fun (n, most) stamped =>
    let n := inFlightAfter n stamped.event
    (n, max most n)) (0, 0)).2

/-- How many tasks there are, and how those that are reported went. -/
def tally (j : Journal) : Summary :=
  ⟨j.setup.graph.tasks.length, j.reports.countP (·.outcome.isOk),
    j.reports.countP (!·.outcome.isOk)⟩

/-- The summary of a run, unless it was given up before every task was reported. -/
def summary? (j : Journal) : Option Summary :=
  if j.reports.length < j.setup.graph.tasks.length then none else some j.tally

end Journal

/-- The outcome of a task. -/
structure TaskOutcome where
  kind : Kind
  index : Nat
  position : String
  outcome : Outcome

namespace TaskOutcome

/-- The outcome that a report tells. -/
def ofReport? (graph : Graph) (r : Report) : Option TaskOutcome :=
  graph.tasks[r.task]?.map fun t => ⟨t.kind, t.index, t.position, r.outcome⟩

/-- Outcomes are listed by the word for their kind, and then by their index. -/
def precedes (a b : TaskOutcome) : Bool :=
  a.kind.key < b.kind.key || (a.kind.key == b.kind.key && a.index ≤ b.index)

end TaskOutcome

/-- What comes of a run that goes to its end: the summary, and the outcomes in order. -/
structure Completion where
  summary : Summary
  outcomes : List TaskOutcome

/-- Runs a graph to its end. -/
def Setup.complete (setup : Setup) : Completion :=
  let journal := setup.run {}
  ⟨journal.tally,
    (journal.reports.filterMap (TaskOutcome.ofReport? setup.graph)).mergeSort TaskOutcome.precedes⟩

end Run
end Inquiry
