import Inquiry.Run.Agenda

/-!
# Run.Stride — how a strand goes on

A worker who looks at a strand lets it go on until it has to wait. The permits that the strand takes and
the calls that are over are paid for out of the allowance of the turn; a backend that answers at once
costs nothing. When the allowance is used up, the strand is postponed, whatever it waits for.

* `State.stride` takes a strand from its phase to the next.
* `State.visit` lets a strand go on.
-/

namespace Inquiry
namespace Run

/-- What comes of a stride. -/
inductive Stride where
  /-- The strand goes on at once. -/
  | onward (s : State)
  /-- The strand has to wait, or is over. -/
  | halt (s : State)

namespace State

/-- Takes one from the allowance of the turn. -/
def spend (s : State) : State := { s with allowance := s.allowance - 1 }

/-- A link asks for a permit: it takes a free one, and else it waits. -/
def ask (s : State) (i : Nat) (strand : Strand) (link : Leaf) (rest : List Leaf) : Stride :=
  if s.free = 0 then
    .halt ({ s.setPhase i strand (.waiting s.nextTicket link rest) with
      nextTicket := s.nextTicket + 1 }.record (.queued link))
  else .onward { (s.setPhase i strand (.holding link rest)).spend with free := s.free - 1 }

/-- The call of a link is over. The permit goes back before the next link asks for one. -/
def resolve (s : State) (setup : Setup) (i : Nat) (strand : Strand) (link : Leaf)
    (rest : List Leaf) : Ending → Stride
  | .timedOut =>
    .halt ((s.record (.timedOut link)).setPhase i strand
      (.failed (.backend link.position (.timeout (setup.limits.leafTimeout * 1000))))).release
  | .answered answer =>
    let s := s.record (.answered link answer)
    match answer with
    | .failure e => .halt (s.setPhase i strand (.failed (.backend link.position e))).release
    | .crash message => .halt (s.setPhase i strand (.crashed message)).release
    | .result r =>
      let strand := { strand with outputs := LeafOutput.of link r :: strand.outputs }
      match rest with
      | [] => .halt (s.setPhase i strand .finished).release
      | next :: rest => .onward (s.setPhase i strand (.ready next rest)).release

/-- The phase of a strand whose call is in flight from now on. An answer exactly at the deadline still
counts. -/
def callPhase (s : State) (setup : Setup) (behaviour : Behaviour) (link : Leaf) (rest : List Leaf) :
    Phase :=
  if behaviour.delay ≤ setup.limits.leafTimeout then
    .calling s.nextTicket link rest (s.now + behaviour.delay) (.answered behaviour.answer)
  else .calling s.nextTicket link rest (s.now + setup.limits.leafTimeout) .timedOut

/-- The call of a link starts. The context is the result of the link in front of it. A call that takes
no time, or has none, is over at once. -/
def begin (s : State) (setup : Setup) (i : Nat) (strand : Strand) (link : Leaf) (rest : List Leaf) :
    Stride :=
  let context := strand.outputs.head?.map LeafOutput.result
  let behaviour := setup.backend link context
  let s := s.record (.began link context)
  if behaviour.delay = 0 then s.resolve setup i strand link rest (.answered behaviour.answer)
  else if setup.limits.leafTimeout = 0 then s.spend.resolve setup i strand link rest .timedOut
  else .halt { s.setPhase i strand (s.callPhase setup behaviour link rest) with
    nextTicket := s.nextTicket + 1 }

/-- Takes a strand from its phase to the next, if it can go there now. -/
def stride (s : State) (setup : Setup) (i : Nat) : Stride :=
  match s.strands[i]? with
  | none => .halt s
  | some strand =>
    if strand.phase.isOver then .halt s
    else if s.allowance = 0 then .halt (s.postpone i)
    else
      match strand.phase with
      | .ready link rest => s.ask i strand link rest
      | .granted link rest => .onward (s.setPhase i strand (.holding link rest)).spend
      | .holding link rest => s.begin setup i strand link rest
      | .calling _ link rest ends ending =>
        if ends ≤ s.now then s.spend.resolve setup i strand link rest ending else .halt s
      | _ => .halt s

/-- At most `n` strides of a strand. -/
def strides (setup : Setup) (i : Nat) : Nat → State → State
  | 0, s => s
  | n + 1, s =>
    match s.stride setup i with
    | .halt s => s
    | .onward s => strides setup i n s

/-- Lets a strand go on until it has to wait. No phase comes twice, so its work bounds the strides. -/
def visit (s : State) (setup : Setup) (i : Nat) : State :=
  match s.strands[i]? with
  | none => s
  | some strand => s.strides setup i strand.phase.work

end State
end Run
end Inquiry
