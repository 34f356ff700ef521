import Inquiry.Run.State

/-!
# Run.Agenda — who gets a turn, and who gets a permit

Whatever happens to a strand puts its worker on the agenda, at the end. A worker who is on it already
stays where it is; a worker who has the turn comes back to the end after it.

* `State.wake` calls the worker of a strand up.
* `State.release` takes a permit back. While strands wait, the permit goes to the one that has waited
  longest, and is never free.
* `State.pause` calls up all that was postponed, the last first.
-/

namespace Inquiry
namespace Run

/-- The strand that has waited longest, and its ticket. -/
def oldest? : List Strand → Option (Nat × Nat)
  | [] => none
  | s :: rest =>
    let others := (oldest? rest).map fun (ticket, i) => (ticket, i + 1)
    match s.phase.ticket?, others with
    | some ticket, some (ticket', i) => if ticket ≤ ticket' then some (ticket, 0) else some (ticket', i)
    | some ticket, none => some (ticket, 0)
    | none, others => others

namespace State

/-- Puts a worker on the agenda. -/
def callUp (s : State) (task : Nat) : State :=
  if s.active = some task then { s with again := true }
  else if s.agenda.contains task then s
  else { s with agenda := s.agenda ++ [task] }

/-- Calls up the worker of a strand. In a large group the strand asks to be looked at; if it has asked
before, its worker knows. -/
def wake (s : State) (i : Nat) : State :=
  match s.strands[i]? with
  | none => s
  | some strand =>
    if s.isLarge strand.task then
      if strand.phase.isOver || s.alerts.contains i then s
      else { s with alerts := s.alerts ++ [i] }.callUp strand.task
    else if s.isOver strand.task then s
    else s.callUp strand.task

/-- Sets a permit aside for a strand that waits. -/
def grant (s : State) (i : Nat) : State :=
  match s.strands[i]? with
  | none => s
  | some strand =>
    match strand.phase with
    | .waiting _ link rest =>
      ((s.setPhase i strand (.granted link rest)).record (.granted link)).wake i
    | _ => s

/-- Takes a permit back. -/
def release (s : State) : State :=
  match oldest? s.strands with
  | some (_, i) => s.grant i
  | none => { s with free := s.free + 1 }

/-- Takes back a number of permits. -/
def releaseAll : Nat → State → State
  | 0, s => s
  | n + 1, s => releaseAll n s.release

/-- Leaves a strand for later, because the turn is used up. -/
def postpone (s : State) (i : Nat) : State := { s with postponed := i :: s.postponed }

/-- Calls up what was postponed. -/
def pause (s : State) : State :=
  s.postponed.foldl wake { s with postponed := [], turns := 0 }

end State
end Run
end Inquiry
