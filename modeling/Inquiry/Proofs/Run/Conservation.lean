import Inquiry.Proofs.Run.Cancellation

/-!
# Proofs.Run.Conservation — permits are conserved, and put to use

In every state that a run can reach, cancelled or not, each permit is free, or in use by a call in flight,
or on its way to a call: set aside for a strand, or taken by one whose call is about to start. Permits are
on their way only while workers have turns. Whenever all that happens at a time has happened, a permit is
free or in use, and none is free while a strand waits. In the end all are free.

* `Step` is a move of a run or a step of cancelling it, and `Setup.Reaches` any number of them from the start.
* `Step.tallied`: the record tells how many calls are in flight, and there are never more than permits.
* `Setup.stateAt` is the state of a run when all that happens up to a time has happened.
* `Setup.conserves_permits`: permits are conserved in every state, at every time, and in the end.
-/

namespace Inquiry
namespace Run

/-! ## The states of a run that may be cancelled -/

/-- One thing that happens in a run: a move, or, where it is cancelled, that time passes without regard to
the calls in flight and that a task is reported as cancelled. -/
inductive Step (setup : Setup) : State → State → Prop
  | move {s t : State} (move : Move setup s t) : Step setup s t
  | interrupt (s : State) (time : Nat) : Step setup s { s with now := time }
  | cancel (s : State) (task : Nat) : Step setup s (s.report task (.error .cancelled))

/-- The states that a run can come to, in whatever order things happen. -/
def Setup.Reaches (setup : Setup) (s : State) : Prop :=
  Relation.ReflTransGen (Step setup) setup.start s

namespace Setup

variable {setup : Setup}

theorem Reaches.of_course {s : State} (h : Course setup setup.start s) : setup.Reaches s := by
  induction h with
  | refl => exact .refl
  | tail _ hmove ih => exact ih.tail (.move hmove)

theorem reaches_rest (setup : Setup) (stop : Option Nat) : setup.Reaches (setup.rest stop) :=
  .of_course (setup.course_rest stop)

theorem Reaches.cancel {s : State} (h : setup.Reaches s) (time : Nat) :
    setup.Reaches (s.cancel setup time) :=
  State.cancel_induction (h.tail (.interrupt s time)) fun t task ht => ht.tail (.cancel t task)

theorem reaches_finalState (setup : Setup) (cancelAt : Option Nat) :
    setup.Reaches (setup.finalState { cancelAt }) := by
  cases cancelAt with
  | none => exact setup.reaches_rest none
  | some time => exact (setup.reaches_rest (some time)).cancel time

end Setup

/-! ## Calls in flight, by the record -/

/-- The number of calls in flight at the end of a record, the last event first, and the greatest number of
them there has been. -/
def callsAfter : List Stamped → Nat × Nat
  | [] => (0, 0)
  | e :: log =>
    let n := Journal.inFlightAfter (callsAfter log).1 e.event
    (n, max (callsAfter log).2 n)

theorem Journal.peak_eq (setup : Setup) (s : State) :
    (Journal.mk setup s.log.reverse).peak = (callsAfter s.log).2 := by
  rw [peak, List.foldl_reverse]
  refine congrArg Prod.snd ?_
  induction s.log with
  | nil => rfl
  | cons e log ih => rw [List.foldr_cons, ih, callsAfter]

/-- A record tells that `n` calls are in flight, and never were more than there are permits. -/
def Tallies (permits : Nat) (log : List Stamped) (n : Nat) : Prop :=
  (callsAfter log).1 = n ∧ (callsAfter log).2 ≤ permits

namespace Tallies

variable {permits n : Nat} {log : List Stamped}

theorem record (h : Tallies permits log n) (time : Nat) (event : Event)
    (hle : Journal.inFlightAfter n event ≤ permits) :
    Tallies permits (⟨time, event⟩ :: log) (Journal.inFlightAfter n event) := by
  obtain ⟨rfl, hmost⟩ := h
  exact ⟨rfl, Nat.max_le.2 ⟨hmost, hle⟩⟩

/-- Events that are about permits and reports, not about calls, change nothing. -/
theorem append (h : Tallies permits log n) (hle : n ≤ permits) {time : Nat} {events : List Event}
    (hsame : ∀ e ∈ events, Journal.inFlightAfter n e = n) :
    Tallies permits (events.map (Stamped.mk time) ++ log) n := by
  induction events with
  | nil => exact h
  | cons e events ih =>
    have hrest := ih fun e' he' => hsame e' (List.mem_cons_of_mem _ he')
    have he := hsame e List.mem_cons_self
    have hrecord : Tallies permits (⟨time, e⟩ :: (events.map (Stamped.mk time) ++ log))
        (Journal.inFlightAfter n e) := hrest.record time e (by rwa [he])
    rwa [he] at hrecord

/-- With the strands of a task their calls are cut off. -/
theorem farewells (h : Tallies permits log n) (hle : n ≤ permits) (time : Nat) (strands : List Strand) :
    Tallies permits ((strands.filterMap (·.phase.farewell?)).reverse.map (Stamped.mk time) ++ log)
      (n - strands.countP (·.phase.isCalling)) := by
  induction strands generalizing n log with
  | nil => exact h
  | cons strand strands ih =>
    -- The event of the first strand is the first to be recorded.
    have hone : ∀ (event : Event) (k : Nat), strand.phase.farewell? = some event →
        Journal.inFlightAfter n event = k → k ≤ n →
        Tallies permits (((strand :: strands).filterMap (·.phase.farewell?)).reverse.map (Stamped.mk time) ++ log)
          (k - strands.countP (·.phase.isCalling)) := by
      intro event k hevent hk hkn
      have hrecord : Tallies permits (⟨time, event⟩ :: log) k :=
        hk ▸ h.record time event (by omega)
      have hfirst : (strand :: strands).filterMap (·.phase.farewell?) =
          event :: strands.filterMap (·.phase.farewell?) := List.filterMap_cons_some hevent
      rw [hfirst, List.reverse_cons, List.map_append, List.append_assoc]
      exact ih hrecord (by omega)
    rw [List.countP_cons]
    cases hp : strand.phase with
    | calling ticket link rest ends ending =>
      have hcut := hone (.cutOff link) (n - 1) (by rw [hp]; rfl) rfl (Nat.sub_le n 1)
      rwa [Nat.sub_sub, Nat.add_comm] at hcut
    | waiting ticket link rest => exact hone (.withdrawn link) n (by rw [hp]; rfl) rfl (Nat.le_refl n)
    | granted link rest => exact hone (.withdrawn link) n (by rw [hp]; rfl) rfl (Nat.le_refl n)
    | holding link rest => exact hone (.withdrawn link) n (by rw [hp]; rfl) rfl (Nat.le_refl n)
    | _ =>
      have hnone : strand.phase.farewell? = none := by rw [hp]; rfl
      have hfirst : (strand :: strands).filterMap (·.phase.farewell?) =
          strands.filterMap (·.phase.farewell?) := List.filterMap_cons_none hnone
      rw [hfirst]
      exact ih h hle

end Tallies

/-! ## Calls in flight, by the strands -/

namespace State

variable {s t : State}

theorem inFlight_set {i : Nat} {a b : Strand} (hi : s.strands[i]? = some a) (ht : t.strands = s.strands.set i b) :
    t.inFlight + (if a.phase.isCalling then 1 else 0) = s.inFlight + (if b.phase.isCalling then 1 else 0) := by
  rw [inFlight, ht]
  exact countP_set (·.phase.isCalling) b hi

/-- What a strand does besides calling does not change how many calls are in flight. -/
theorem inFlight_set_of_eq {i : Nat} {a b : Strand} (hi : s.strands[i]? = some a)
    (ht : t.strands = s.strands.set i b) (hsame : b.phase.isCalling = a.phase.isCalling) :
    t.inFlight = s.inFlight := by
  have hset := inFlight_set hi ht
  rw [hsame] at hset
  exact Nat.add_right_cancel hset

theorem release_inFlight (s : State) : s.release.inFlight = s.inFlight := by
  rcases s.release_cases with ⟨i, strand, ticket, link, rest, hi, hp, heq⟩ | ⟨-, heq⟩
  · have hstrands : s.release.strands = s.strands.set i { strand with phase := .granted link rest } := by
      rw [heq, ((s.hand i strand link rest).wake_alike i).strands]
      rfl
    exact inFlight_set_of_eq hi hstrands (by rw [hp]; rfl)
  · rw [heq]
    rfl

theorem report_inFlight (s : State) (task : Nat) (outcome : Outcome) :
    (s.report task outcome).inFlight = s.inFlight - (s.strandsOf task).countP (·.phase.isCalling) := by
  have hwithdraw : (s.withdraw task).inFlight + (s.strandsOf task).countP (·.phase.isCalling) = s.inFlight :=
    s.withdraw_countP (p := Phase.isCalling) (fun phase => by cases phase <;> rfl) task
  have hgiveUp : (s.giveUp task).inFlight = (s.withdraw task).inFlight := by
    rw [giveUp_eq]
    refine releaseAll_induction (P := fun t => t.inFlight = (s.withdraw task).inFlight) ?_ _ rfl
    intro t ht
    rw [release_inFlight, ht]
  have hreport : (s.report task outcome).inFlight = (s.giveUp task).inFlight := rfl
  omega

/-- The number of permits on their way: a strand has them, and makes no call. -/
def onTheWay (s : State) : Nat := s.strands.countP fun strand => strand.phase.hasPermit && !strand.phase.isCalling

theorem held_eq (s : State) : s.held = s.onTheWay + s.inFlight := by
  unfold held onTheWay inFlight
  induction s.strands with
  | nil => rfl
  | cons strand strands ih =>
    simp only [List.countP_cons, ih]
    cases strand.phase <;> simp [Phase.hasPermit, Phase.isCalling] <;> omega

theorem Balanced.inFlight_le {permits : Nat} (hs : s.Balanced permits 0) : s.inFlight ≤ permits := by
  have hsum := hs.sum
  have hheld := s.held_eq
  omega

/-- The permits are accounted for, and the record tells how many calls are in flight. -/
structure Tallied (permits : Nat) (s : State) : Prop where
  balanced : s.Balanced permits 0
  tallies : Tallies permits s.log s.inFlight

theorem Tallied.report {permits : Nat} (hs : s.Tallied permits) (task : Nat) (outcome : Outcome) :
    (s.report task outcome).Tallied permits where
  balanced := hs.balanced.report
  tallies := by
    have hle := hs.balanced.inFlight_le
    -- First the calls of the task are cut off, then its permits are handed on, then it is reported.
    have hwithdraw : Tallies permits (s.withdraw task).log
        (s.inFlight - (s.strandsOf task).countP (·.phase.isCalling)) := by
      rw [s.withdraw_log task]
      exact hs.tallies.farewells hle _ _
    obtain ⟨events, hgranted, hlog⟩ := extends_releaseAll ((s.strandsOf task).countP (·.phase.hasPermit))
      (s.withdraw task)
    have hgiveUp : Tallies permits (s.giveUp task).log
        (s.inFlight - (s.strandsOf task).countP (·.phase.isCalling)) := by
      rw [giveUp_eq, hlog]
      refine hwithdraw.append (by omega) fun e he => ?_
      obtain ⟨link, rfl⟩ := hgranted e he
      rfl
    have hafter : s.inFlight - (s.strandsOf task).countP (·.phase.isCalling) ≤ permits :=
      Nat.le_trans (Nat.sub_le _ _) hle
    rw [report_inFlight]
    exact hgiveUp.record _ (.reported task outcome) hafter

end State

theorem Move.tallies {setup : Setup} {s t : State} {permits : Nat} (h : Move setup s t)
    (hs : s.Tallied permits) : Tallies permits t.log t.inFlight := by
  have hle : t.inFlight ≤ permits := (h.balanced hs.balanced).inFlight_le
  have hbefore : s.inFlight ≤ permits := hs.balanced.inFlight_le
  cases h with
  | @queue i strand link rest hi hp =>
    have hsame : (s.queue i strand link rest).inFlight = s.inFlight :=
      State.inFlight_set_of_eq hi rfl (by rw [hp]; rfl)
    rw [hsame]
    exact hs.tallies.record s.now (.queued link) hbefore
  | @take i strand link rest hi hp =>
    have hsame : (s.take i strand link rest).inFlight = s.inFlight :=
      State.inFlight_set_of_eq hi rfl (by rw [hp]; rfl)
    rw [hsame]
    exact hs.tallies
  | @see i strand link rest hi hp =>
    have hsame : (s.setPhase i strand (.holding link rest)).inFlight = s.inFlight :=
      State.inFlight_set_of_eq hi rfl (by rw [hp]; rfl)
    rw [hsame]
    exact hs.tallies
  | @launch i strand link rest n hi hp =>
    have hmore : (s.launch setup i strand link rest n).inFlight = s.inFlight + 1 := by
      have hset := State.inFlight_set (t := s.launch setup i strand link rest n) hi rfl
      simpa [hp, Phase.isCalling] using hset
    rw [hmore] at hle ⊢
    exact hs.tallies.record s.now (.began link strand.context) hle
  | @conclude i strand ticket link rest ends ending hi hp =>
    -- The call ends before its permit goes back, and with the permit no call starts yet.
    let ended := (s.record (ending.event link)).setStrand i (strand.conclude setup link rest ending)
    have hless : ended.inFlight = s.inFlight - 1 := by
      have hset := State.inFlight_set (s := s) (t := ended) hi rfl
      rw [strand.conclude_isCalling setup, hp] at hset
      simp only [Phase.isCalling, if_true] at hset
      simp at hset
      omega
    have hended : Tallies permits ended.log ended.inFlight := by
      have hafter : Journal.inFlightAfter s.inFlight (ending.event link) = s.inFlight - 1 := by
        cases ending <;> rfl
      have hrecord := hs.tallies.record s.now (ending.event link) (by omega)
      rwa [hafter, ← hless] at hrecord
    obtain ⟨events, hgranted, hlog⟩ := ended.extends_release
    have hrelease : (s.conclude setup i strand link rest ending).inFlight = ended.inFlight :=
      ended.release_inFlight
    rw [hrelease] at hle ⊢
    rw [State.conclude, hlog]
    refine hended.append hle fun e he => ?_
    obtain ⟨link', rfl⟩ := hgranted e he
    rfl
  | decide => exact (hs.report _ _).tallies
  | elapse => exact hs.tallies
  | schedule halike =>
    rw [State.inFlight, halike.log, halike.strands]
    exact hs.tallies

/-- Whatever happens, the permits stay accounted for, and the record tells how many calls are in flight. -/
theorem Step.tallied {setup : Setup} {s t : State} {permits : Nat} (h : Step setup s t)
    (hs : s.Tallied permits) : t.Tallied permits := by
  cases h with
  | move hmove => exact ⟨hmove.balanced hs.balanced, hmove.tallies hs⟩
  | interrupt => exact ⟨⟨hs.balanced.sum, hs.balanced.busy⟩, hs.tallies⟩
  | cancel task => exact hs.report task _

theorem Setup.start_tallied (setup : Setup) : setup.start.Tallied setup.limits.permits where
  balanced := setup.start_balanced
  tallies := by
    have hnone : setup.start.inFlight = 0 := by
      have hheld := setup.start.held_eq
      have hsum := setup.start_balanced.sum
      have hfree : setup.start.free = setup.limits.permits := rfl
      omega
    rw [hnone]
    exact ⟨rfl, Nat.zero_le _⟩

theorem Setup.Reaches.tallied {setup : Setup} {s : State} (h : setup.Reaches s) :
    s.Tallied setup.limits.permits := by
  induction h with
  | refl => exact setup.start_tallied
  | tail _ hstep ih => exact hstep.tallied ih

/-! ## Reported tasks are over -/

/-- Nothing more happens to the strands of a reported task. -/
def State.ReportedOver (s : State) : Prop :=
  ∀ strand ∈ s.strands, strand.task ∈ s.reported → strand.phase.isOver = true

theorem State.ReportedOver.report {s : State} (hs : s.ReportedOver) (task : Nat) (outcome : Outcome) :
    (s.report task outcome).ReportedOver := by
  unfold ReportedOver
  rw [report_reported]
  change ∀ strand ∈ (s.giveUp task).strands, _
  rw [giveUp_eq]
  refine releaseAll_induction (P := fun t => ∀ strand ∈ t.strands, strand.task ∈ task :: s.reported →
    strand.phase.isOver = true) ?_ _ ?_
  · intro t ht
    refine release_forall ?_ ht
    -- A strand that waits for a permit is not over, and so its task is not reported.
    intro strand ticket link rest hp hover htask
    have hwaits := hover htask
    rw [hp] at hwaits
    cases hwaits
  · intro strand hmem htask
    rcases withdraw_strand_mem hmem with ⟨-, hover, -⟩ | ⟨hne, hbefore⟩
    · exact hover
    · exact hs strand hbefore ((List.mem_cons.1 htask).resolve_left hne)

theorem Step.map_task {setup : Setup} {s t : State} (h : Step setup s t) :
    t.strands.map Strand.task = s.strands.map Strand.task := by
  cases h with
  | move hmove => exact hmove.passes.map_task
  | interrupt => rfl
  | cancel task => exact ((s.report_pushed task _).passes setup s.now).map_task

/-- A strand belongs to one task throughout. -/
theorem Setup.Reaches.map_task {setup : Setup} {s : State} (h : setup.Reaches s) :
    s.strands.map Strand.task = setup.start.strands.map Strand.task := by
  induction h with
  | refl => rfl
  | tail _ hstep ih => exact hstep.map_task.trans ih

theorem Setup.Reaches.task_lt {setup : Setup} {s : State} (h : setup.Reaches s) :
    ∀ strand ∈ s.strands, strand.task < setup.graph.tasks.length := by
  intro strand hmem
  have hin : strand.task ∈ setup.start.strands.map Strand.task := h.map_task ▸ List.mem_map_of_mem hmem
  obtain ⟨first, hfirst, htask⟩ := List.mem_map.1 hin
  exact htask ▸ setup.start_task_lt first hfirst

namespace Setup

variable (setup : Setup)

theorem finalState_reportedOver (cancelAt : Option Nat) : (setup.finalState { cancelAt }).ReportedOver := by
  cases cancelAt with
  | none => exact (setup.rest_between none).orderly.over_of_closed
  | some time =>
    have hrest : (setup.rest (some time)).ReportedOver := (setup.rest_between (some time)).orderly.over_of_closed
    exact State.cancel_induction (P := State.ReportedOver) hrest fun _ task ht => ht.report task _

/-- In the end nothing more happens to any strand. -/
theorem finalState_over (cancelAt : Option Nat) :
    ∀ strand ∈ (setup.finalState { cancelAt }).strands, strand.phase.isOver = true := by
  intro strand hmem
  refine setup.finalState_reportedOver cancelAt strand hmem ?_
  refine (setup.finalState_reported cancelAt).mem_iff.2 (List.mem_range.2 ?_)
  exact (setup.reaches_finalState cancelAt).task_lt strand hmem

/-! ## A run that may be cancelled, up to a time -/

/-- The state of a run when all that happens up to a time has happened. -/
def stateAt (cancelAt : Option Nat) (time : Nat) : State :=
  if cancelAt.any (· ≤ time) then setup.finalState { cancelAt } else setup.endOf time

theorem reaches_stateAt (cancelAt : Option Nat) (time : Nat) : setup.Reaches (setup.stateAt cancelAt time) := by
  unfold stateAt
  split
  · exact setup.reaches_finalState cancelAt
  · exact setup.reaches_rest _

/-- The record of that state is the record of the run up to the time. -/
theorem stateAt_log (cancelAt : Option Nat) (time : Nat) :
    (setup.stateAt cancelAt time).log.reverse =
      (setup.run { cancelAt }).events.filter (·.at_ ≤ time) := by
  cases cancelAt with
  | none =>
    have hlog := setup.endOf_log time
    change (setup.endOf time).log.reverse = (setup.rest none).log.reverse.filter (·.at_ ≤ time)
    rw [hlog, List.filter_reverse]
  | some cancel =>
    obtain ⟨before, after, cut, h⟩ := setup.run_splits cancel
    by_cases hle : cancel ≤ time
    · have hall : ∀ e ∈ before ++ cut, e.at_ ≤ time := by
        intro e he
        rcases List.mem_append.1 he with he | he
        · exact Nat.le_trans (Nat.le_of_lt (h.before_lt e he)) hle
        · exact (h.cut_at e he).1 ▸ hle
      rw [stateAt, if_pos (by simpa using hle), h.cancelled, List.filter_eq_self.2 (by simpa using hall)]
      exact h.cancelled
    · -- Before it is cancelled, the run goes as the whole run does.
      have hcut : cut.filter (·.at_ ≤ time) = [] :=
        List.filter_eq_nil_iff.2 fun e he => by simpa [(h.cut_at e he).1] using hle
      have hafter : after.filter (·.at_ ≤ time) = [] :=
        List.filter_eq_nil_iff.2 fun e he => by
          have hlater := h.le_after e he
          simp only [decide_eq_true_eq]
          omega
      have hwhole : (setup.rest none).log.reverse = before ++ after := h.whole
      rw [stateAt, if_neg (by simpa using hle), setup.endOf_log, ← List.filter_reverse, hwhole, h.cancelled,
        List.filter_append, List.filter_append, hcut, hafter]

theorem stateAt_settled (cancelAt : Option Nat) (time : Nat) :
    ∀ strand ∈ (setup.stateAt cancelAt time).strands,
      strand.phase.Settled (setup.stateAt cancelAt time).now := by
  unfold stateAt
  split
  · intro strand hmem
    exact .of_isOver (setup.finalState_over cancelAt strand hmem)
  · exact (setup.endOf_quiet time).settled

/-! ## Conservation -/

/-- Permits are conserved, and none is idle while a leaf waits for one. -/
structure Conserves (cancelAt : Option Nat) : Prop where
  /-- In every state a permit is free, in use, or on its way to a call; while a strand waits, none is free. -/
  reached : ∀ s, setup.Reaches s →
    s.free + s.onTheWay + s.inFlight = max 1 setup.limits.inFlight ∧
      ((∃ strand ∈ s.strands, strand.phase.ticket? ≠ none) → s.free = 0)
  /-- The states at the times of the run are such states, and their records are those of the run up to then. -/
  atTime : ∀ time, setup.Reaches (setup.stateAt cancelAt time) ∧
    (setup.stateAt cancelAt time).log.reverse = (setup.run { cancelAt }).events.filter (·.at_ ≤ time)
  /-- At every time a permit is free or in use. -/
  conserved : ∀ time, (setup.stateAt cancelAt time).free + (setup.stateAt cancelAt time).inFlight =
    max 1 setup.limits.inFlight
  /-- At every time a strand that has a permit makes a call. -/
  used : ∀ time, ∀ strand ∈ (setup.stateAt cancelAt time).strands,
    strand.phase.hasPermit = true → strand.phase.isCalling = true
  /-- At every time at which a strand waits, all permits are in use. -/
  busy : ∀ time, ∀ strand ∈ (setup.stateAt cancelAt time).strands, strand.phase.ticket? ≠ none →
    (setup.stateAt cancelAt time).inFlight = max 1 setup.limits.inFlight
  /-- There are never more calls in flight than permits. -/
  bounded : (setup.run { cancelAt }).peak ≤ max 1 setup.limits.inFlight
  /-- When the run is over, all permits are free, and nobody has one or waits for one. -/
  returned : setup.Reaches (setup.finalState { cancelAt }) ∧
    (setup.finalState { cancelAt }).free = max 1 setup.limits.inFlight ∧
    ∀ strand ∈ (setup.finalState { cancelAt }).strands,
      strand.phase.hasPermit = false ∧ strand.phase.ticket? = none

theorem permits_eq : setup.limits.permits = max 1 setup.limits.inFlight := Nat.max_comm _ _

/-- In every state of a run a permit is free, in use, or on its way to a call. -/
theorem Reaches.balanced {s : State} (h : setup.Reaches s) : s.Balanced (max 1 setup.limits.inFlight) 0 := by
  have htallied := h.tallied.balanced
  rwa [setup.permits_eq] at htallied

theorem Reaches.sum {s : State} (h : setup.Reaches s) :
    s.free + s.onTheWay + s.inFlight = max 1 setup.limits.inFlight := by
  have hsum := h.balanced.sum
  have hheld := s.held_eq
  omega

/-- Where a strand that has a permit makes a call, no permit is on its way. -/
theorem onTheWay_eq_zero {s : State} {now : Nat} (h : ∀ strand ∈ s.strands, strand.phase.Settled now) :
    s.onTheWay = 0 := by
  refine List.countP_eq_zero.2 fun strand hmem => ?_
  have hsettled := h strand hmem
  cases hp : strand.phase <;> simp_all [Phase.Settled, Phase.isOver, Phase.hasPermit, Phase.isCalling]

/-- When all that happens up to a time has happened, no permit is on its way. -/
theorem stateAt_onTheWay (cancelAt : Option Nat) (time : Nat) : (setup.stateAt cancelAt time).onTheWay = 0 :=
  onTheWay_eq_zero (setup.stateAt_settled cancelAt time)

theorem stateAt_sum (cancelAt : Option Nat) (time : Nat) :
    (setup.stateAt cancelAt time).free + (setup.stateAt cancelAt time).inFlight = max 1 setup.limits.inFlight := by
  have hsum := (setup.reaches_stateAt cancelAt time).sum
  rwa [setup.stateAt_onTheWay cancelAt time] at hsum

/-- In the end nobody has a permit or waits for one. -/
theorem finalState_idle (cancelAt : Option Nat) : ∀ strand ∈ (setup.finalState { cancelAt }).strands,
    strand.phase.hasPermit = false ∧ strand.phase.ticket? = none := by
  intro strand hmem
  have hover := setup.finalState_over cancelAt strand hmem
  cases hp : strand.phase <;> simp_all [Phase.isOver, Phase.hasPermit, Phase.ticket?]

theorem finalState_free (cancelAt : Option Nat) :
    (setup.finalState { cancelAt }).free = max 1 setup.limits.inFlight := by
  have hheld : (setup.finalState { cancelAt }).held = 0 :=
    List.countP_eq_zero.2 fun strand hmem => by simp [(setup.finalState_idle cancelAt strand hmem).1]
  have hsum := (setup.reaches_finalState cancelAt).balanced.sum
  omega

/-- Whatever the graph, the backend and the limits are, and whenever a run is cancelled, permits are
conserved. -/
theorem conserves_permits (cancelAt : Option Nat) : setup.Conserves cancelAt where
  reached := by
    intro s hs
    refine ⟨hs.sum, ?_⟩
    rintro ⟨strand, hmem, hwaits⟩
    exact hs.balanced.busy strand hmem hwaits
  atTime time := ⟨setup.reaches_stateAt cancelAt time, setup.stateAt_log cancelAt time⟩
  conserved time := setup.stateAt_sum cancelAt time
  used := by
    intro time strand hmem hpermit
    have hnot := List.countP_eq_zero.1 (setup.stateAt_onTheWay cancelAt time) strand hmem
    simpa [hpermit] using hnot
  busy := by
    intro time strand hmem hwaits
    have hfree := (setup.reaches_stateAt cancelAt time).balanced.busy strand hmem hwaits
    have hsum := setup.stateAt_sum cancelAt time
    rwa [hfree, Nat.zero_add] at hsum
  bounded := by
    have hmost := (setup.reaches_finalState cancelAt).tallied.tallies.2
    rw [setup.permits_eq] at hmost
    exact Nat.le_trans (Nat.le_of_eq (Journal.peak_eq setup _)) hmost
  returned := ⟨setup.reaches_finalState cancelAt, setup.finalState_free cancelAt, setup.finalState_idle cancelAt⟩

end Setup
end Run
end Inquiry
