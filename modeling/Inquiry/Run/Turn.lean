import Inquiry.Run.Settle
import Inquiry.Run.Stride

/-!
# Run.Turn — the turn of a worker

At its turn a worker looks at strands of its task, and reports the task once it is decided.

* `State.round` is what the worker of a small group does: it looks at all strands in their order, up to
  the first that fails.
* `State.attend` is what the worker of a large group does: it looks at the strands that have asked for
  it. Having seen as many strands wait as there are left, it makes way for the others and asks for
  another turn; a strand that ends starts the count anew.
* `State.turn` is a turn.
-/

namespace Inquiry
namespace Run

/-- What the strands of a task may use up in one turn, all together. -/
def turnAllowance : Nat := 128

/-- The numbers of the strands of a task, the first strand having number `i`. -/
def numbersOf (task : Nat) : Nat → List Strand → List Nat
  | _, [] => []
  | i, s :: rest =>
    if s.task = task then i :: numbersOf task (i + 1) rest else numbersOf task (i + 1) rest

namespace State

/-- Looks at strands in order, up to the first that fails. -/
def round (setup : Setup) : List Nat → State → State
  | [], s => s
  | i :: rest, s =>
    let s := s.visit setup i
    match s.strands[i]?.map Strand.phase with
    | some (.failed _) => s
    | some (.crashed _) => s
    | _ => round setup rest s

/-- The first strand of a task that asks to be looked at. -/
def alert? (s : State) (task : Nat) : Option Nat :=
  s.alerts.find? fun i => s.strands[i]?.any (·.task == task)

/-- Looks at the strands of a task that ask for it, `unfinished` of which are left; the worker makes way
after `left` more that wait. -/
def attend (setup : Setup) (task : Nat) : (unfinished left : Nat) → State → State
  | _, 0, s => { s with again := true }
  | unfinished, left + 1, s =>
    match s.alert? task with
    | none => s
    | some i =>
      let s := { s with alerts := s.alerts.erase i }.visit setup i
      if s.strands[i]?.any (·.phase.isOver) then
        match unfinished with
        | 0 => s
        | unfinished + 1 =>
          if (verdict? (s.strandsOf task)).isSome then s else attend setup task unfinished unfinished s
      else attend setup task unfinished left s
termination_by unfinished left => (unfinished, left)

/-- Lets a worker look at its strands. -/
def look (s : State) (setup : Setup) (task : Nat) : State :=
  if s.isLarge task then
    let unfinished := (s.strandsOf task).countP (!·.phase.isOver)
    s.attend setup task unfinished unfinished
  else s.round setup (numbersOf task 0 s.strands)

/-- The beginning of a turn. -/
def beginTurn (s : State) (task : Nat) : State :=
  { s with active := some task, allowance := turnAllowance, again := false, turns := s.turns + 1 }

/-- The end of a turn: a worker who is to have another goes to the end of the agenda. -/
def endTurn (s : State) (task : Nat) : State :=
  { s with
    active := none
    agenda := if s.again && !s.isOver task then s.agenda ++ [task] else s.agenda }

/-- The turn of the worker of a task. -/
def turn (s : State) (setup : Setup) (task : Nat) : State :=
  (((s.beginTurn task).look setup task).settle setup task).endTurn task

end State
end Run
end Inquiry
