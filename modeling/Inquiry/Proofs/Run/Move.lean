import Mathlib.Logic.Relation
import Inquiry.Run.Journal

/-!
# Proofs.Run.Move — what can happen in a run

A run is a course of small moves: a strand asks for a permit, takes one, starts its call, ends it; a task
is reported; time passes. Who does what next is decided by turns, of which a move knows nothing.

* `State.Alike` relates states that differ only in who has a turn, or asks for one.
* `Move` lists the moves; `Course` is any number of them.
* `State.release_cases` says what becomes of a permit that is given back.
* `Course.rest`: a run goes from one time to the next by moves.
-/

namespace Inquiry
namespace Run

/-! ## States that differ in the scheduling only -/

namespace State

/-- Two states in which the same has happened. -/
structure Alike (s t : State) : Prop where
  now : t.now = s.now
  free : t.free = s.free
  nextTicket : t.nextTicket = s.nextTicket
  strands : t.strands = s.strands
  log : t.log = s.log

namespace Alike

variable {s t u : State}

theorem refl (s : State) : Alike s s := ⟨rfl, rfl, rfl, rfl, rfl⟩

theorem trans (h₁ : Alike s t) (h₂ : Alike t u) : Alike s u :=
  ⟨h₂.now.trans h₁.now, h₂.free.trans h₁.free, h₂.nextTicket.trans h₁.nextTicket,
    h₂.strands.trans h₁.strands, h₂.log.trans h₁.log⟩

end Alike

theorem callUp_alike (s : State) (task : Nat) : Alike s (s.callUp task) := by
  unfold callUp
  split
  · exact ⟨rfl, rfl, rfl, rfl, rfl⟩
  · split
    · exact .refl s
    · exact ⟨rfl, rfl, rfl, rfl, rfl⟩

theorem wake_alike (s : State) (i : Nat) : Alike s (s.wake i) := by
  unfold wake
  split
  · exact .refl s
  · split
    · split
      · exact .refl s
      · exact Alike.trans (t := { s with alerts := s.alerts ++ [i] }) ⟨rfl, rfl, rfl, rfl, rfl⟩
          (callUp_alike _ _)
    · split
      · exact .refl s
      · exact callUp_alike _ _

theorem foldl_wake_alike (s : State) (is : List Nat) : Alike s (is.foldl wake s) := by
  induction is generalizing s with
  | nil => exact .refl s
  | cons i is ih => exact (wake_alike s i).trans (ih _)

theorem pause_alike (s : State) : Alike s s.pause :=
  Alike.trans (t := { s with postponed := [], turns := 0 }) ⟨rfl, rfl, rfl, rfl, rfl⟩
    (foldl_wake_alike _ _)

end State

/-! ## Permits that are given back -/

theorem oldest?_eq_some {strands : List Strand} {ticket i : Nat}
    (h : oldest? strands = some (ticket, i)) :
    ∃ strand link rest, strands[i]? = some strand ∧ strand.phase = .waiting ticket link rest := by
  induction strands generalizing ticket i with
  | nil => cases h
  | cons s strands ih =>
    have hhead {t : Nat} (ht : s.phase.ticket? = some t) :
        ∃ link rest, s.phase = .waiting t link rest := by
      cases hp : s.phase with
      | waiting t' link rest =>
        rw [hp] at ht
        cases ht
        exact ⟨link, rest, rfl⟩
      | _ => simp [hp, Phase.ticket?] at ht
    simp only [oldest?] at h
    -- The first strand is the oldest, or another one is, or both wait and the tickets decide.
    cases ht : s.phase.ticket? with
    | none =>
      cases ho : oldest? strands with
      | none => simp [ht, ho] at h
      | some p =>
        obtain ⟨strand, link, rest, hi, hp⟩ := ih ho
        simp only [ht, ho, Option.map_some, Option.some.injEq, Prod.mk.injEq] at h
        obtain ⟨rfl, rfl⟩ := h
        exact ⟨strand, link, rest, by simpa using hi, hp⟩
    | some t =>
      obtain ⟨link, rest, hs⟩ := hhead ht
      cases ho : oldest? strands with
      | none =>
        simp only [ht, ho, Option.map_none, Option.some.injEq, Prod.mk.injEq] at h
        obtain ⟨rfl, rfl⟩ := h
        exact ⟨s, link, rest, rfl, hs⟩
      | some p =>
        obtain ⟨strand, link', rest', hi, hp⟩ := ih ho
        simp only [ht, ho, Option.map_some] at h
        split at h
        · cases h
          exact ⟨s, link, rest, rfl, hs⟩
        · cases h
          exact ⟨strand, link', rest', by simpa using hi, hp⟩

theorem oldest?_eq_none {strands : List Strand} (h : oldest? strands = none) :
    ∀ strand ∈ strands, strand.phase.ticket? = none := by
  induction strands with
  | nil => simp
  | cons s strands ih =>
    simp only [oldest?] at h
    cases ht : s.phase.ticket? with
    | none =>
      cases ho : oldest? strands with
      | none =>
        intro strand hmem
        rcases List.mem_cons.1 hmem with rfl | hmem
        · exact ht
        · exact ih ho strand hmem
      | some p => simp [ht, ho] at h
    | some t =>
      cases ho : oldest? strands with
      | none => simp [ht, ho] at h
      | some p =>
        simp only [ht, ho, Option.map_some] at h
        split at h <;> cases h

namespace State

/-- The state in which a permit is set aside for a link, but its worker has not been called up. -/
def hand (s : State) (i : Nat) (strand : Strand) (link : Leaf) (rest : List Leaf) : State :=
  (s.setPhase i strand (.granted link rest)).record (.granted link)

/-- A permit that is given back goes to a strand that waits; it is free only when none does. -/
theorem release_cases (s : State) :
    (∃ i strand ticket link rest, s.strands[i]? = some strand ∧
      strand.phase = .waiting ticket link rest ∧ s.release = (s.hand i strand link rest).wake i) ∨
    ((∀ strand ∈ s.strands, strand.phase.ticket? = none) ∧
      s.release = { s with free := s.free + 1 }) := by
  cases h : oldest? s.strands with
  | none =>
    refine .inr ⟨oldest?_eq_none h, ?_⟩
    simp [release, h]
  | some p =>
    obtain ⟨strand, link, rest, hi, hp⟩ := oldest?_eq_some h
    refine .inl ⟨p.2, strand, p.1, link, rest, hi, hp, ?_⟩
    simp [release, h, grant, hi, hp, hand]

end State

/-! ## Calls that are over -/

/-- The event of the end of a call. -/
def Ending.event (link : Leaf) : Ending → Event
  | .answered answer => .answered link answer
  | .timedOut => .timedOut link

/-- A strand once the call of its link is over. -/
def Strand.conclude (setup : Setup) (strand : Strand) (link : Leaf) (rest : List Leaf) :
    Ending → Strand
  | .timedOut => { strand with
      phase := .failed (.backend link.position (.timeout (setup.limits.leafTimeout * 1000))) }
  | .answered (.failure e) => { strand with phase := .failed (.backend link.position e) }
  | .answered (.crash message) => { strand with phase := .crashed message }
  | .answered (.result r) =>
    { strand with
      outputs := LeafOutput.of link r :: strand.outputs
      phase := match rest with
        | [] => .finished
        | next :: rest => .ready next rest }

/-- The state that a stride leads to. -/
def Stride.state : Stride → State
  | .onward s => s
  | .halt s => s

namespace State

/-- The state after the end of a call. -/
def conclude (s : State) (setup : Setup) (i : Nat) (strand : Strand) (link : Leaf)
    (rest : List Leaf) (ending : Ending) : State :=
  ((s.record (ending.event link)).setStrand i (strand.conclude setup link rest ending)).release

theorem resolve_eq (s : State) (setup : Setup) (i : Nat) (strand : Strand) (link : Leaf)
    (rest : List Leaf) (ending : Ending) :
    s.resolve setup i strand link rest ending =
      if (strand.conclude setup link rest ending).phase.isOver
      then .halt (s.conclude setup i strand link rest ending)
      else .onward (s.conclude setup i strand link rest ending) := by
  cases ending with
  | timedOut => rfl
  | answered answer =>
    cases answer with
    | failure e => rfl
    | crash message => rfl
    | result r => cases rest <;> rfl

theorem resolve_state (s : State) (setup : Setup) (i : Nat) (strand : Strand) (link : Leaf)
    (rest : List Leaf) (ending : Ending) :
    (s.resolve setup i strand link rest ending).state = s.conclude setup i strand link rest ending := by
  rw [resolve_eq]
  split <;> rfl

end State

/-! ## Strides -/

/-- The context in which the next link of a strand is called. -/
def Strand.context (strand : Strand) : Option Result := strand.outputs.head?.map LeafOutput.result

namespace Behaviour

/-- The time that a call takes. -/
def duration (b : Behaviour) (limits : Limits) : Nat := min b.delay limits.leafTimeout

/-- How a call ends. -/
def ending (b : Behaviour) (limits : Limits) : Ending :=
  if b.delay ≤ limits.leafTimeout then .answered b.answer else .timedOut

end Behaviour

theorem State.callPhase_eq (s : State) (setup : Setup) (b : Behaviour) (link : Leaf)
    (rest : List Leaf) :
    s.callPhase setup b link rest =
      .calling s.nextTicket link rest (s.now + b.duration setup.limits) (b.ending setup.limits) := by
  unfold State.callPhase Behaviour.duration Behaviour.ending
  split
  · rename_i h
    rw [Nat.min_eq_left h]
  · rename_i h
    rw [Nat.min_eq_right (Nat.le_of_not_le h)]

namespace Phase

/-- Whether a strand has nothing to do at a time but wait, or is over. -/
def Settled (now : Nat) : Phase → Prop
  | waiting .. => True
  | calling _ _ _ ends _ => now < ends
  | phase => phase.isOver = true

theorem Settled.of_isOver {now : Nat} {phase : Phase} (h : phase.isOver = true) :
    phase.Settled now := by
  cases phase <;> first | exact h | cases h

end Phase

namespace State

/-- The state once the call of a link has started. -/
def launch (s : State) (setup : Setup) (i : Nat) (strand : Strand) (link : Leaf) (rest : List Leaf)
    (nextTicket : Nat) : State :=
  let b := setup.backend link strand.context
  { (s.record (.began link strand.context)).setPhase i strand
      (.calling s.nextTicket link rest (s.now + b.duration setup.limits) (b.ending setup.limits)) with
    nextTicket }

/-- The state once a link has started to wait for a permit. -/
def queue (s : State) (i : Nat) (strand : Strand) (link : Leaf) (rest : List Leaf) : State :=
  { s.setPhase i strand (.waiting s.nextTicket link rest) with nextTicket := s.nextTicket + 1 }.record
    (.queued link)

/-- The state once a link has taken a free permit. -/
def take (s : State) (i : Nat) (strand : Strand) (link : Leaf) (rest : List Leaf) : State :=
  { s.setPhase i strand (.holding link rest) with free := s.free - 1 }

/-- The state once a strand that has asked for it has been looked at. -/
def hear (s : State) (setup : Setup) (i : Nat) : State :=
  { s with alerts := s.alerts.erase i }.visit setup i

/-- What a stride of a strand can come to. -/
inductive Stridden (setup : Setup) (s : State) (i : Nat) : Stride → Prop
  | absent (none_at : s.strands[i]? = none) : Stridden setup s i (.halt s)
  | settled {strand : Strand} (strand_at : s.strands[i]? = some strand)
      (settled : strand.phase.Settled s.now) : Stridden setup s i (.halt s)
  | postponed {strand : Strand} (strand_at : s.strands[i]? = some strand)
      (active : strand.phase.isOver = false) (used_up : s.allowance = 0) :
      Stridden setup s i (.halt (s.postpone i))
  | queued {strand : Strand} {link : Leaf} {rest : List Leaf}
      (strand_at : s.strands[i]? = some strand) (phase : strand.phase = .ready link rest)
      (allowed : s.allowance ≠ 0) (none_free : s.free = 0) :
      Stridden setup s i (.halt (s.queue i strand link rest))
  | taken {strand : Strand} {link : Leaf} {rest : List Leaf}
      (strand_at : s.strands[i]? = some strand) (phase : strand.phase = .ready link rest)
      (allowed : s.allowance ≠ 0) (some_free : s.free ≠ 0) :
      Stridden setup s i (.onward (s.spend.take i strand link rest))
  | seen {strand : Strand} {link : Leaf} {rest : List Leaf}
      (strand_at : s.strands[i]? = some strand) (phase : strand.phase = .granted link rest)
      (allowed : s.allowance ≠ 0) :
      Stridden setup s i (.onward (s.spend.setPhase i strand (.holding link rest)))
  | launched {strand : Strand} {link : Leaf} {rest : List Leaf}
      (strand_at : s.strands[i]? = some strand) (phase : strand.phase = .holding link rest)
      (allowed : s.allowance ≠ 0)
      (later : (setup.backend link strand.context).duration setup.limits ≠ 0) :
      Stridden setup s i (.halt (s.launch setup i strand link rest (s.nextTicket + 1)))
  | immediate {strand : Strand} {link : Leaf} {rest : List Leaf} {t : State}
      (strand_at : s.strands[i]? = some strand) (phase : strand.phase = .holding link rest)
      (allowed : s.allowance ≠ 0)
      (at_once : (setup.backend link strand.context).duration setup.limits = 0)
      (begun : t = s.record (.began link strand.context) ∨
        t = (s.record (.began link strand.context)).spend) :
      Stridden setup s i (t.resolve setup i strand link rest
        ((setup.backend link strand.context).ending setup.limits))
  | due {strand : Strand} {ticket : Nat} {link : Leaf} {rest : List Leaf} {ends : Nat}
      {ending : Ending} (strand_at : s.strands[i]? = some strand)
      (phase : strand.phase = .calling ticket link rest ends ending)
      (allowed : s.allowance ≠ 0) (due : ends ≤ s.now) :
      Stridden setup s i (s.spend.resolve setup i strand link rest ending)

theorem stridden_begin {s : State} {setup : Setup} {i : Nat} {strand : Strand} {link : Leaf}
    {rest : List Leaf} (strand_at : s.strands[i]? = some strand)
    (phase : strand.phase = .holding link rest) (allowed : s.allowance ≠ 0) :
    Stridden setup s i (s.begin setup i strand link rest) := by
  -- The behaviour is a variable here, so that its delay can be split on.
  have hcase : ∀ b : Behaviour, b = setup.backend link strand.context →
      Stridden setup s i
        (if b.delay = 0 then
          (s.record (.began link strand.context)).resolve setup i strand link rest
            (.answered b.answer)
        else if setup.limits.leafTimeout = 0 then
          (s.record (.began link strand.context)).spend.resolve setup i strand link rest .timedOut
        else .halt (s.launch setup i strand link rest (s.nextTicket + 1))) := by
    rintro b rfl
    split
    · rename_i hdelay
      have hending : (setup.backend link strand.context).ending setup.limits =
          .answered (setup.backend link strand.context).answer := by
        simp [Behaviour.ending, hdelay]
      rw [← hending]
      exact .immediate strand_at phase allowed (by simp [Behaviour.duration, hdelay]) (.inl rfl)
    · rename_i hdelay
      split
      · rename_i htimeout
        have hending : (setup.backend link strand.context).ending setup.limits = .timedOut := by
          simp [Behaviour.ending, htimeout, hdelay]
        rw [← hending]
        exact .immediate strand_at phase allowed (by simp [Behaviour.duration, htimeout]) (.inr rfl)
      · rename_i htimeout
        refine .launched strand_at phase allowed ?_
        unfold Behaviour.duration
        omega
  have hbegin := hcase _ rfl
  unfold begin
  simp only [callPhase_eq]
  exact hbegin

theorem stridden (s : State) (setup : Setup) (i : Nat) :
    Stridden setup s i (s.stride setup i) := by
  unfold stride
  split
  · rename_i hnone
    exact .absent hnone
  · rename_i strand hi
    split
    · rename_i hover
      exact .settled hi (.of_isOver hover)
    · rename_i hover
      split
      · rename_i hused
        exact .postponed hi (by simpa using hover) hused
      · rename_i hallowed
        split
        · rename_i link rest hp
          unfold ask
          split
          · rename_i hfree
            exact .queued hi hp hallowed hfree
          · rename_i hfree
            exact .taken hi hp hallowed hfree
        · rename_i link rest hp
          exact .seen hi hp hallowed
        · rename_i link rest hp
          exact stridden_begin hi hp hallowed
        · rename_i ticket link rest ends ending hp
          split
          · rename_i hdue
            exact .due hi hp hallowed hdue
          · rename_i hdue
            refine .settled hi ?_
            rw [hp]
            exact Nat.lt_of_not_le hdue
        · -- Of the phases that are not over only waiting is left.
          rename_i hready hgranted hholding hcalling
          refine .settled hi ?_
          cases hp : strand.phase with
          | waiting => trivial
          | ready link rest => exact absurd hp (hready link rest)
          | granted link rest => exact absurd hp (hgranted link rest)
          | holding link rest => exact absurd hp (hholding link rest)
          | calling ticket link rest ends ending => exact absurd hp (hcalling ticket link rest ends ending)
          | _ => simp [hp, Phase.isOver] at hover

end State

/-! ## Turns -/

namespace State

/-- The state in which the next turn is given: what was postponed may be called up before. -/
def refresh (s : State) : State :=
  if s.agenda.isEmpty || s.turns == roundTurns then s.pause else s

theorem refresh_alike (s : State) : Alike s s.refresh := by
  unfold refresh
  split
  · exact s.pause_alike
  · exact .refl s

theorem nextTurn?_of_nil {s : State} (setup : Setup) (h : s.refresh.agenda = []) :
    s.nextTurn? setup = none := by
  unfold refresh at h
  simp only [nextTurn?, h]

theorem nextTurn?_of_cons {s : State} (setup : Setup) {task : Nat} {rest : List Nat}
    (h : s.refresh.agenda = task :: rest) :
    s.nextTurn? setup = some ({ s.refresh with agenda := rest }.turn setup task) := by
  unfold refresh at h
  simp only [nextTurn?, h]
  rfl

theorem nextTurn?_eq_none {s : State} {setup : Setup} (h : s.nextTurn? setup = none) :
    s.refresh.agenda = [] := by
  cases hagenda : s.refresh.agenda with
  | nil => rfl
  | cons task rest =>
    rw [nextTurn?_of_cons setup hagenda] at h
    cases h

theorem nextTurn?_eq_some {s t : State} {setup : Setup} (h : s.nextTurn? setup = some t) :
    ∃ r task rest, r = s.refresh ∧ r.agenda = task :: rest ∧
      t = { r with agenda := rest }.turn setup task := by
  cases hagenda : s.refresh.agenda with
  | nil =>
    rw [nextTurn?_of_nil setup hagenda] at h
    cases h
  | cons task rest =>
    rw [nextTurn?_of_cons setup hagenda] at h
    cases h
    exact ⟨s.refresh, task, rest, rfl, hagenda, rfl⟩

end State

/-! ## Moves -/

/-- One thing that happens in a run. -/
inductive Move (setup : Setup) : State → State → Prop
  | queue {s : State} {i : Nat} {strand : Strand} {link : Leaf} {rest : List Leaf}
      (strand_at : s.strands[i]? = some strand) (phase : strand.phase = .ready link rest)
      (none_free : s.free = 0) : Move setup s (s.queue i strand link rest)
  | take {s : State} {i : Nat} {strand : Strand} {link : Leaf} {rest : List Leaf}
      (strand_at : s.strands[i]? = some strand) (phase : strand.phase = .ready link rest)
      (some_free : s.free ≠ 0) : Move setup s (s.take i strand link rest)
  | see {s : State} {i : Nat} {strand : Strand} {link : Leaf} {rest : List Leaf}
      (strand_at : s.strands[i]? = some strand) (phase : strand.phase = .granted link rest) :
      Move setup s (s.setPhase i strand (.holding link rest))
  | launch {s : State} {i : Nat} {strand : Strand} {link : Leaf} {rest : List Leaf} {n : Nat}
      (strand_at : s.strands[i]? = some strand) (phase : strand.phase = .holding link rest)
      (drawn : s.nextTicket ≤ n) : Move setup s (s.launch setup i strand link rest n)
  | conclude {s : State} {i : Nat} {strand : Strand} {ticket : Nat} {link : Leaf}
      {rest : List Leaf} {ends : Nat} {ending : Ending} (strand_at : s.strands[i]? = some strand)
      (phase : strand.phase = .calling ticket link rest ends ending) (due : ends ≤ s.now) :
      Move setup s (s.conclude setup i strand link rest ending)
  | decide {s : State} {task : Nat} {verdict : Verdict}
      (decided : verdict? (s.strandsOf task) = some verdict) :
      Move setup s (s.report task (outcomeOf setup task verdict))
  | elapse {s : State} {time : Nat} (later : s.now ≤ time)
      (early : ∀ strand ∈ s.strands, ∀ ticket link rest ends ending,
        strand.phase = .calling ticket link rest ends ending → time ≤ ends) :
      Move setup s { s with now := time }
  | schedule {s t : State} (alike : State.Alike s t) : Move setup s t

/-- Any number of moves. -/
abbrev Course (setup : Setup) : State → State → Prop := Relation.ReflTransGen (Move setup)

namespace Course

variable {setup : Setup} {s t u : State}

theorem alike (h : State.Alike s t) : Course setup s t := .single (.schedule h)

theorem of_stridden {i : Nat} {r : Stride} (h : State.Stridden setup s i r) :
    Course setup s r.state := by
  cases h with
  | absent => exact .refl
  | settled => exact .refl
  | postponed => exact alike ⟨rfl, rfl, rfl, rfl, rfl⟩
  | queued hi hp _ hfree => exact .single (.queue hi hp hfree)
  | taken hi hp _ hfree =>
    have hspend : Course setup s s.spend := alike ⟨rfl, rfl, rfl, rfl, rfl⟩
    exact hspend.tail (.take hi hp hfree)
  | seen hi hp =>
    have hspend : Course setup s s.spend := alike ⟨rfl, rfl, rfl, rfl, rfl⟩
    exact hspend.tail (.see hi hp)
  | launched hi hp => exact .single (.launch hi hp (Nat.le_succ _))
  | due hi hp _ hdue =>
    have hspend : Course setup s s.spend := alike ⟨rfl, rfl, rfl, rfl, rfl⟩
    rw [State.resolve_state]
    exact hspend.tail (.conclude hi hp hdue)
  | @immediate strand link rest u hi hp _ hzero hu =>
    -- The call is in flight for no time at all.
    let ending := (setup.backend link strand.context).ending setup.limits
    let calling : Strand := { strand with
      phase := .calling s.nextTicket link rest
        (s.now + (setup.backend link strand.context).duration setup.limits) ending }
    let v := { s.launch setup i strand link rest s.nextTicket with allowance := u.allowance }
    have hlt : i < s.strands.length := (List.getElem?_eq_some_iff.1 hi).1
    have hv : v.strands[i]? = some calling := by
      simp [v, calling, ending, State.launch, State.setPhase, State.setStrand, State.record, hlt]
    have hlaunch : Course setup s (s.launch setup i strand link rest s.nextTicket) :=
      .single (.launch hi hp (Nat.le_refl _))
    have hv' : Move setup (s.launch setup i strand link rest s.nextTicket) v :=
      .schedule ⟨rfl, rfl, rfl, rfl, rfl⟩
    have hend : Move setup v (v.conclude setup i calling link rest ending) :=
      .conclude hv rfl (by simp [v, State.launch, State.setPhase, State.setStrand, State.record, hzero])
    have heq : v.conclude setup i calling link rest ending =
        u.conclude setup i strand link rest ending := by
      have hstrand : calling.conclude setup link rest ending =
          strand.conclude setup link rest ending := by
        rcases ending with answer | _
        · cases answer <;> rfl
        · rfl
      rcases hu with rfl | rfl <;>
        simp [v, State.conclude, State.launch, State.setPhase, State.setStrand, State.record,
          State.spend, hstrand]
    rw [State.resolve_state, ← heq]
    exact (hlaunch.tail hv').tail hend

theorem stride (s : State) (i : Nat) : Course setup s (s.stride setup i).state :=
  of_stridden (s.stridden setup i)

theorem strides (n i : Nat) (s : State) : Course setup s (s.strides setup i n) := by
  induction n generalizing s with
  | zero => exact .refl
  | succ n ih =>
    have hstride : Course setup s (s.stride setup i).state := stride s i
    simp only [State.strides]
    cases hr : s.stride setup i with
    | halt t =>
      rw [hr] at hstride
      exact hstride
    | onward t =>
      rw [hr] at hstride
      exact hstride.trans (ih t)

theorem visit (s : State) (i : Nat) : Course setup s (s.visit setup i) := by
  unfold State.visit
  split
  · exact .refl
  · exact strides _ _ _

theorem round (is : List Nat) (s : State) : Course setup s (s.round setup is) := by
  induction is generalizing s with
  | nil => exact .refl
  | cons i is ih =>
    simp only [State.round]
    split
    · exact visit s i
    · exact visit s i
    · exact (visit s i).trans (ih _)

theorem hear (i : Nat) (s : State) : Course setup s (s.hear setup i) := by
  have herase : Course setup s { s with alerts := s.alerts.erase i } :=
    alike ⟨rfl, rfl, rfl, rfl, rfl⟩
  exact herase.trans (visit _ i)

theorem attend (task unfinished left : Nat) (s : State) :
    Course setup s (s.attend setup task unfinished left) := by
  fun_induction State.attend setup task unfinished left s with
  | case1 => exact alike ⟨rfl, rfl, rfl, rfl, rfl⟩
  | case2 => exact .refl
  | case3 left s i => exact hear i s
  | case4 left s i => exact hear i s
  | case5 left s i _ _ _ _ _ ih => exact (hear i s).trans ih
  | case6 unfinished left s i _ _ _ ih => exact (hear i s).trans ih

theorem look (s : State) (task : Nat) : Course setup s (s.look setup task) := by
  unfold State.look
  split
  · exact attend _ _ _ s
  · exact round _ s

theorem settle (s : State) (task : Nat) : Course setup s (s.settle setup task) := by
  unfold State.settle
  split
  · rename_i verdict h
    exact .single (.decide h)
  · exact .refl

theorem turn (s : State) (task : Nat) : Course setup s (s.turn setup task) := by
  have hbegin : Course setup s (s.beginTurn task) := alike ⟨rfl, rfl, rfl, rfl, rfl⟩
  have hlook : Course setup _ _ := look (s.beginTurn task) task
  have hsettle : Course setup _ _ := settle ((s.beginTurn task).look setup task) task
  exact ((hbegin.trans hlook).trans hsettle).trans (alike ⟨rfl, rfl, rfl, rfl, rfl⟩)

theorem nextTurn? (h : s.nextTurn? setup = some t) : Course setup s t := by
  obtain ⟨r, task, rest, rfl, _, rfl⟩ := State.nextTurn?_eq_some h
  have hpop : Course setup s { s.refresh with agenda := rest } :=
    alike (s.refresh_alike.trans ⟨rfl, rfl, rfl, rfl, rfl⟩)
  exact hpop.trans (turn _ task)

theorem turnsUpTo (n : Nat) (s : State) : Course setup s (s.turnsUpTo setup n) := by
  induction n generalizing s with
  | zero => exact .refl
  | succ n ih =>
    simp only [State.turnsUpTo]
    split
    · exact .refl
    · rename_i h
      exact (nextTurn? h).trans (ih _)

theorem rest (s : State) : Course setup s (s.rest setup) := turnsUpTo _ s

end Course
end Run
end Inquiry
