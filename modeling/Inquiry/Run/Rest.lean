import Inquiry.Run.Turn

/-!
# Run.Rest — how a run goes on

Time stands still while there is a worker on the agenda. Then it moves on to the next end of a call, and
the workers of all calls that end there are called up, in the order in which the calls started.

* `State.nextTurn?` gives the next worker on the agenda its turn. What was postponed is called up when
  the agenda is empty, and after every `roundTurns` turns.
* `State.rest` goes on until no worker is left on the agenda.
* `Setup.rest` is the state in which a run comes to rest for good.
-/

namespace Inquiry
namespace Run

/-- The number of turns after which postponed strands are called up, even if there are workers left. -/
def roundTurns : Nat := 61

/-- The time at which the next call is over. -/
def nextEnd? : List Strand → Option Nat
  | [] => none
  | s :: rest =>
    match s.phase, nextEnd? rest with
    | .calling _ _ _ ends _, some time => some (min ends time)
    | .calling _ _ _ ends _, none => some ends
    | _, time => time

/-- The strands whose calls are over at a time, each with its ticket; the first strand has number
`i`. -/
def endingAt (time : Nat) : Nat → List Strand → List (Nat × Nat)
  | _, [] => []
  | i, s :: rest =>
    match s.phase with
    | .calling ticket _ _ ends _ =>
      if ends ≤ time then (ticket, i) :: endingAt time (i + 1) rest else endingAt time (i + 1) rest
    | _ => endingAt time (i + 1) rest

namespace State

/-- The turn of the next worker, if there is one. -/
def nextTurn? (s : State) (setup : Setup) : Option State :=
  let s := if s.agenda.isEmpty || s.turns == roundTurns then s.pause else s
  match s.agenda with
  | [] => none
  | task :: rest => some ({ s with agenda := rest }.turn setup task)

/-- At most `n` turns. -/
def turnsUpTo (setup : Setup) : Nat → State → State
  | 0, s => s
  | n + 1, s =>
    match s.nextTurn? setup with
    | none => s
    | some s => turnsUpTo setup n s

/-- A bound on the number of turns at one time. A turn in which no strand gets on leaves less to be
looked at, and what a stride adds to that is no more than four times the strands. -/
def turnBound (s : State) (setup : Setup) : Nat :=
  (s.work + 1) * (4 * s.strands.length + 2 * setup.graph.tasks.length + 5)

/-- Gives turns until no worker is left on the agenda. -/
def rest (s : State) (setup : Setup) : State := s.turnsUpTo setup (s.turnBound setup)

/-- Lets time pass until calls are over, and calls up their workers. -/
def elapse (s : State) (time : Nat) : State :=
  let ended := (endingAt time 0 s.strands).mergeSort fun a b => a.1 ≤ b.1
  (ended.map Prod.snd).foldl wake { s with now := time, turns := 0 }

/-- Lets time pass `n` times at most, and never to `stop` or beyond. -/
def moments (setup : Setup) (stop : Option Nat) : Nat → State → State
  | 0, s => s
  | n + 1, s =>
    match nextEnd? s.strands with
    | none => s
    | some time =>
      if stop.any (· ≤ time) then s else moments setup stop n ((s.elapse time).rest setup)

end State

/-- The state in which a run comes to rest, before `stop` if that is given. Time passes for calls only,
so it passes no more often than there is work. -/
def Setup.rest (setup : Setup) (stop : Option Nat) : State :=
  if stop = some 0 then setup.start
  else (setup.start.rest setup).moments setup stop setup.start.work

end Run
end Inquiry
