import Inquiry.Task.Merge

/-!
# Run.State — the state of a run

A run calls a backend for every leaf of a graph, the leaves of a chain one after the other. A call needs
one of a limited number of permits, which are given first come, first served, and has a deadline.

Each task has a worker, who looks after the chains of the task. One worker at a time has a turn; the
others wait on the agenda. What happens to a chain while no worker looks at it, a permit set aside or a
call that is over, only puts its worker on the agenda.

* `Backend` is what calls come to, and how long they take.
* `Strand` is a chain on its way, `Phase` where it stands.
* `Event` is what a run records; `State` holds all there is at one moment.

Times are in milliseconds from the start of the run.
-/

namespace Inquiry
namespace Run

/-- What the call of a leaf comes to. -/
inductive Answer where
  | result (r : Result)
  | failure (e : BackendError)
  | crash (message : String)
  deriving DecidableEq, Repr

/-- How a call goes: the time it takes, and what it comes to. -/
structure Behaviour where
  delay : Nat
  answer : Answer
  deriving DecidableEq, Repr

/-- How the call of a leaf goes, given the result of the leaf in front of it. -/
abbrev Backend := Leaf → Option Result → Behaviour

/-- The limits of a run: the number of calls in flight, of which at least one is allowed, and the time
that a call may take. -/
structure Limits where
  inFlight : Nat := 8
  leafTimeout : Nat := 60000
  deriving DecidableEq, Repr

/-- The number of permits. -/
def Limits.permits (l : Limits) : Nat := max l.inFlight 1

/-- How a call leaves the backend: with an answer, or at its deadline. -/
inductive Ending where
  | answered (answer : Answer)
  | timedOut
  deriving DecidableEq, Repr

/-- Where a chain stands. -/
inductive Phase where
  /-- The link has not asked for a permit. -/
  | ready (link : Leaf) (rest : List Leaf)
  /-- The link waits for a permit; who drew the lesser ticket is served first. -/
  | waiting (ticket : Nat) (link : Leaf) (rest : List Leaf)
  /-- A permit is set aside for the link, which its worker has not seen. -/
  | granted (link : Leaf) (rest : List Leaf)
  /-- The link has its permit, and its call has not started. -/
  | holding (link : Leaf) (rest : List Leaf)
  /-- The call of the link is in flight until the given time. Calls draw tickets when they start. -/
  | calling (ticket : Nat) (link : Leaf) (rest : List Leaf) (ends : Nat) (ending : Ending)
  /-- All links are answered. -/
  | finished
  /-- A link has failed. -/
  | failed (e : TaskError)
  /-- A link has crashed. -/
  | crashed (message : String)
  /-- The task is reported, the chain is given up. -/
  | dropped
  deriving DecidableEq, Repr

/-- A chain on its way: its task, the outputs of the links answered so far, the last first, and where it
stands. -/
structure Strand where
  task : Nat
  outputs : List LeafOutput
  phase : Phase
  deriving DecidableEq, Repr

/-- The strand of a chain at the start. -/
def Strand.start (task : Nat) (chain : Chain) : Strand :=
  ⟨task, [], .ready chain.head (chain.toList.drop 1)⟩

/-- The answer for a task, or why there is none. -/
abbrev Outcome := Except TaskError Merged

/-- What a run records. -/
inductive Event where
  /-- A leaf starts to wait for a permit. -/
  | queued (leaf : Leaf)
  /-- A permit is set aside for a leaf that waits. -/
  | granted (leaf : Leaf)
  /-- The call of a leaf starts, in the context of a result unless the leaf is the head of its chain. -/
  | began (leaf : Leaf) (context : Option Result)
  /-- The call of a leaf ends with an answer. -/
  | answered (leaf : Leaf) (answer : Answer)
  /-- The call of a leaf ends at its deadline. -/
  | timedOut (leaf : Leaf)
  /-- The call of a leaf is cut off. -/
  | cutOff (leaf : Leaf)
  /-- A leaf that waits for a permit, or has one, is given up before its call starts. -/
  | withdrawn (leaf : Leaf)
  /-- A task is reported. -/
  | reported (task : Nat) (outcome : Outcome)

/-- An event and its time. -/
structure Stamped where
  at_ : Nat
  event : Event

/-- The state of a run. -/
structure State where
  now : Nat
  /-- The number of permits that nobody has. -/
  free : Nat
  nextTicket : Nat
  /-- The strands in the order of the graph. -/
  strands : List Strand
  /-- The tasks whose workers wait for a turn, the next first; none is there twice. -/
  agenda : List Nat
  /-- The strands of large groups that ask to be looked at, the first to ask first; none is there
  twice. -/
  alerts : List Nat
  /-- The strands whose workers had used up their turn when they came to them, the last first. -/
  postponed : List Nat
  /-- The number of turns since postponed strands were last called up. -/
  turns : Nat
  /-- The task whose worker has the turn. -/
  active : Option Nat
  /-- What is left of the allowance of the turn. -/
  allowance : Nat
  /-- Whether the worker who has the turn is to have another. -/
  again : Bool
  /-- The record so far, the last event first. -/
  log : List Stamped

/-- What stays the same during a run. -/
structure Setup where
  graph : Graph
  backend : Backend
  limits : Limits

/-- The strands of tasks from a number on. -/
def strandsFrom (task : Nat) : List Task → List Strand
  | [] => []
  | t :: rest => t.node.chains.map (Strand.start task) ++ strandsFrom (task + 1) rest

namespace Phase

/-- The ticket of a waiting strand. -/
def ticket? : Phase → Option Nat
  | waiting ticket _ _ => some ticket
  | _ => none

/-- Whether the call of a link is in flight. -/
def isCalling : Phase → Bool
  | calling .. => true
  | _ => false

/-- Whether a strand has a permit. -/
def hasPermit : Phase → Bool
  | granted .. => true
  | holding .. => true
  | calling .. => true
  | _ => false

/-- Whether nothing more happens to a strand. -/
def isOver : Phase → Bool
  | finished => true
  | failed _ => true
  | crashed _ => true
  | dropped => true
  | _ => false

/-- The greatest number of phases that a strand can still pass through. -/
def work : Phase → Nat
  | ready _ rest => 5 * rest.length + 5
  | waiting _ _ rest => 5 * rest.length + 4
  | granted _ rest => 5 * rest.length + 3
  | holding _ rest => 5 * rest.length + 2
  | calling _ _ rest _ _ => 5 * rest.length + 1
  | _ => 0

end Phase

/-- The greatest number of chains of a group that a worker looks at all together. -/
def smallSize : Nat := 30

namespace State

/-- Records an event. -/
def record (s : State) (event : Event) : State := { s with log := ⟨s.now, event⟩ :: s.log }

/-- Replaces a strand. -/
def setStrand (s : State) (i : Nat) (strand : Strand) : State :=
  { s with strands := s.strands.set i strand }

/-- Puts a strand into a phase. -/
def setPhase (s : State) (i : Nat) (strand : Strand) (phase : Phase) : State :=
  s.setStrand i { strand with phase }

/-- The strands of a task in the order of the configuration. -/
def strandsOf (s : State) (task : Nat) : List Strand := s.strands.filter (·.task == task)

/-- Whether a task is a group whose chains are looked at one by one, when they ask for it. -/
def isLarge (s : State) (task : Nat) : Bool := smallSize < (s.strandsOf task).length

/-- Whether nothing more happens to a task. -/
def isOver (s : State) (task : Nat) : Bool := (s.strandsOf task).all (·.phase.isOver)

/-- The number of phases that all strands together can still pass through. -/
def work (s : State) : Nat := (s.strands.map (·.phase.work)).foldr (· + ·) 0

/-- The number of calls in flight. -/
def inFlight (s : State) : Nat := s.strands.countP (·.phase.isCalling)

end State

/-- The state before a run: every worker waits for a turn, and in large groups every strand asks to be
looked at. -/
def Setup.start (setup : Setup) : State :=
  let s : State :=
    { now := 0, free := setup.limits.permits, nextTicket := 0,
      strands := strandsFrom 0 setup.graph.tasks, agenda := List.range setup.graph.tasks.length,
      alerts := [], postponed := [], turns := 0, active := none, allowance := 0, again := false,
      log := [] }
  let large := (List.range setup.graph.tasks.length).filter s.isLarge
  { s with alerts := s.strands.zipIdx.filterMap fun (strand, i) =>
      if large.contains strand.task then some i else none }

end Run
end Inquiry
