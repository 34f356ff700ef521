import Inquiry.Proofs.Run.Permits

/-!
# Proofs.Run.Attention — no strand is forgotten

A strand that can go on is in the mind of a worker: in a small group the worker is on the agenda, in a
large one the strand has asked to be looked at, or the strand is postponed. So nothing is left to do when
the agenda is empty.

* `State.Orderly` says that the agenda and the alerts hold what they may hold, and nothing twice.
* `State.Attended` says that no strand is forgotten, up to some that are just being looked at.
* `visit_attended`: a strand that has been looked at is not forgotten.
-/

namespace Inquiry
namespace Run

theorem nodup_append_singleton {α : Type} {l : List α} {x : α} (h : l.Nodup) (hx : x ∉ l) :
    (l ++ [x]).Nodup := by
  refine List.nodup_append.2 ⟨h, by simp, ?_⟩
  rintro y hy z hz rfl
  exact hx (List.mem_singleton.1 hz ▸ hy)

theorem map_set_of_eq {α β : Type} {f : α → β} {l : List α} {i : Nat} {a b : α}
    (hi : l[i]? = some a) (h : f b = f a) : (l.set i b).map f = l.map f := by
  obtain ⟨hlt, hget⟩ := List.getElem?_eq_some_iff.1 hi
  rw [List.map_set, h]
  refine List.ext_getElem? fun j => ?_
  by_cases hj : i = j
  · subst hj
    simp [hlt, hget]
  · simp [hj]

/-! ## What a task has been told of -/

/-- What counts of a strand when its task is decided. -/
structure Standing where
  task : Nat
  isOver : Bool
  crash? : Option String
  failure? : Option TaskError
  finished : Bool

/-- The standing of a strand. -/
def Strand.standing (strand : Strand) : Standing :=
  ⟨strand.task, strand.phase.isOver, strand.crash?, strand.failure?, strand.isFinished⟩

/-- The task that an event reports. -/
def Event.reportedTask? : Event → Option Nat
  | reported task _ => some task
  | _ => none

namespace State

/-- The standings of all strands. -/
def standings (s : State) : List Standing := s.strands.map Strand.standing

theorem reported_eq (s : State) : s.reported = s.log.filterMap (·.event.reportedTask?) := by
  refine congrArg (s.log.filterMap ·) (funext fun stamped => ?_)
  cases stamped.event <;> rfl

theorem mem_reported {s : State} {task : Nat} :
    task ∈ s.reported ↔ ∃ time outcome, ⟨time, .reported task outcome⟩ ∈ s.log := by
  rw [reported_eq, List.mem_filterMap]
  constructor
  · rintro ⟨⟨time, event⟩, he, hevent⟩
    cases event with
    | reported other outcome =>
      cases hevent
      exact ⟨time, outcome, he⟩
    | _ => cases hevent
  · rintro ⟨time, outcome, he⟩
    exact ⟨_, he, rfl⟩

theorem reported_record (s : State) (event : Event)
    (h : ∀ task outcome, event ≠ .reported task outcome) : (s.record event).reported = s.reported := by
  rw [reported_eq, reported_eq]
  cases event with
  | reported task outcome => exact absurd rfl (h task outcome)
  | _ => rfl

theorem standings_hand {s : State} {i : Nat} {strand : Strand} {ticket : Nat} {link : Leaf}
    {rest : List Leaf} (hi : s.strands[i]? = some strand)
    (hp : strand.phase = .waiting ticket link rest) :
    (s.hand i strand link rest).standings = s.standings := by
  have hsame : ({ strand with phase := .granted link rest } : Strand).standing = strand.standing := by
    simp [Strand.standing, Strand.crash?, Strand.failure?, Strand.isFinished, hp, Phase.isOver]
  exact map_set_of_eq hi hsame

theorem isLarge_congr {s t : State} (h : t.strands.map Strand.task = s.strands.map Strand.task)
    (task : Nat) : t.isLarge task = s.isLarge task := by
  have hlength : ∀ u : State, (u.strandsOf task).length =
      (u.strands.map Strand.task).countP (· == task) := by
    intro u
    rw [strandsOf, ← List.countP_eq_length_filter, List.countP_map]
    rfl
  rw [isLarge, isLarge, hlength, hlength, h]

/-! ## Who is called up -/

/-- Whether a worker is to have a turn. -/
def Called (s : State) (task : Nat) : Prop :=
  task ∈ s.agenda ∨ s.active = some task ∧ s.again = true

/-- Whether the worker of a strand is going to look at it. -/
def Heard (s : State) (i task : Nat) : Prop :=
  i ∈ s.postponed ∨ s.isLarge task = true ∧ i ∈ s.alerts ∨ s.isLarge task = false ∧ s.Called task

/-- What may change while strands are looked at. -/
structure Stirs (s t : State) : Prop where
  now : t.now = s.now
  active : t.active = s.active
  reported : t.reported = s.reported
  tasks : t.strands.map Strand.task = s.strands.map Strand.task
  agenda : ∀ task ∈ s.agenda, task ∈ t.agenda
  alerts : ∀ i ∈ s.alerts, i ∈ t.alerts
  postponed : ∀ i ∈ s.postponed, i ∈ t.postponed
  again : s.again = true → t.again = true

namespace Stirs

variable {s t u : State}

theorem refl (s : State) : Stirs s s :=
  ⟨rfl, rfl, rfl, rfl, fun _ h => h, fun _ h => h, fun _ h => h, fun h => h⟩

theorem trans (h₁ : Stirs s t) (h₂ : Stirs t u) : Stirs s u where
  now := h₂.now.trans h₁.now
  active := h₂.active.trans h₁.active
  reported := h₂.reported.trans h₁.reported
  tasks := h₂.tasks.trans h₁.tasks
  agenda task h := h₂.agenda task (h₁.agenda task h)
  alerts i h := h₂.alerts i (h₁.alerts i h)
  postponed i h := h₂.postponed i (h₁.postponed i h)
  again h := h₂.again (h₁.again h)

theorem called {task : Nat} (h : Stirs s t) (hs : s.Called task) : t.Called task := by
  rcases hs with hs | ⟨hactive, hagain⟩
  · exact .inl (h.agenda task hs)
  · exact .inr ⟨h.active.trans hactive, h.again hagain⟩

theorem heard {i task : Nat} (h : Stirs s t) (hs : s.Heard i task) : t.Heard i task := by
  unfold Heard at *
  rw [isLarge_congr h.tasks]
  rcases hs with hs | ⟨hlarge, hs⟩ | ⟨hsmall, hs⟩
  · exact .inl (h.postponed i hs)
  · exact .inr (.inl ⟨hlarge, h.alerts i hs⟩)
  · exact .inr (.inr ⟨hsmall, h.called hs⟩)

end Stirs

/-- The ways in which a worker is called up. -/
theorem callUp_cases (s : State) (task : Nat) :
    (s.active = some task ∧ s.callUp task = { s with again := true }) ∨
    (task ∈ s.agenda ∧ s.callUp task = s) ∨
    (s.active ≠ some task ∧ task ∉ s.agenda ∧
      s.callUp task = { s with agenda := s.agenda ++ [task] }) := by
  unfold callUp
  split
  · rename_i hactive
    exact .inl ⟨hactive, rfl⟩
  · rename_i hactive
    split
    · rename_i hmem
      exact .inr (.inl ⟨by simpa using hmem, rfl⟩)
    · rename_i hnew
      exact .inr (.inr ⟨hactive, by simpa using hnew, rfl⟩)

theorem callUp_stirs (s : State) (task : Nat) : Stirs s (s.callUp task) := by
  rcases s.callUp_cases task with ⟨_, heq⟩ | ⟨_, heq⟩ | ⟨_, _, heq⟩
  · rw [heq]
    exact { Stirs.refl s with again := fun _ => rfl }
  · rw [heq]
    exact .refl s
  · rw [heq]
    exact { Stirs.refl s with agenda := fun _ h => List.mem_append_left _ h }

theorem callUp_called (s : State) (task : Nat) : (s.callUp task).Called task := by
  rcases s.callUp_cases task with ⟨hactive, heq⟩ | ⟨hmem, heq⟩ | ⟨_, _, heq⟩
  · rw [heq]
    exact .inr ⟨hactive, rfl⟩
  · rw [heq]
    exact .inl hmem
  · rw [heq]
    exact .inl (List.mem_append_right _ List.mem_cons_self)

theorem callUp_alerts (s : State) (task : Nat) (alerts : List Nat) :
    { s with alerts }.callUp task = { s.callUp task with alerts } := by
  unfold callUp
  simp only
  split
  · rfl
  · split <;> rfl

theorem callUp_alerts_eq (s : State) (task : Nat) : (s.callUp task).alerts = s.alerts := by
  rcases s.callUp_cases task with ⟨_, heq⟩ | ⟨_, heq⟩ | ⟨_, _, heq⟩ <;> rw [heq]

/-- The ways in which a worker is called up, or not. -/
theorem wake_cases {s : State} {i : Nat} {strand : Strand} (hi : s.strands[i]? = some strand) :
    (s.isLarge strand.task = true ∧ (strand.phase.isOver = true ∨ i ∈ s.alerts) ∧ s.wake i = s) ∨
    (s.isLarge strand.task = true ∧ strand.phase.isOver = false ∧ i ∉ s.alerts ∧
      s.wake i = { s.callUp strand.task with alerts := s.alerts ++ [i] }) ∨
    (s.isLarge strand.task = false ∧ s.isOver strand.task = true ∧ s.wake i = s) ∨
    (s.isLarge strand.task = false ∧ s.isOver strand.task = false ∧
      s.wake i = s.callUp strand.task) := by
  simp only [wake, hi]
  split
  · rename_i hlarge
    split
    · rename_i hskip
      exact .inl ⟨hlarge, by simpa using hskip, rfl⟩
    · rename_i hskip
      have hopen : strand.phase.isOver = false ∧ i ∉ s.alerts := by simpa using hskip
      exact .inr (.inl ⟨hlarge, hopen.1, hopen.2, callUp_alerts _ _ _⟩)
  · rename_i hsmall
    split
    · rename_i hover
      exact .inr (.inr (.inl ⟨by simpa using hsmall, hover, rfl⟩))
    · rename_i hover
      exact .inr (.inr (.inr ⟨by simpa using hsmall, by simpa using hover, rfl⟩))

theorem wake_stirs (s : State) (i : Nat) : Stirs s (s.wake i) := by
  cases hi : s.strands[i]? with
  | none =>
    have hsame : s.wake i = s := by simp [wake, hi]
    rw [hsame]
    exact .refl s
  | some strand =>
    rcases wake_cases hi with ⟨_, _, heq⟩ | ⟨_, _, _, heq⟩ | ⟨_, _, heq⟩ | ⟨_, _, heq⟩
    · rw [heq]
      exact .refl s
    · rw [heq]
      exact { s.callUp_stirs strand.task with alerts := fun _ h => List.mem_append_left _ h }
    · rw [heq]
      exact .refl s
    · rw [heq]
      exact s.callUp_stirs strand.task

theorem hand_stirs {s : State} {i : Nat} {strand : Strand} {ticket : Nat} {link : Leaf}
    {rest : List Leaf} (hi : s.strands[i]? = some strand)
    (hp : strand.phase = .waiting ticket link rest) : Stirs s (s.hand i strand link rest) where
  now := rfl
  active := rfl
  reported := reported_record _ _ (by simp)
  tasks := by
    have hstandings := congrArg (List.map Standing.task) (standings_hand hi hp)
    simpa [standings, Strand.standing, Function.comp_def] using hstandings
  agenda _ h := h
  alerts _ h := h
  postponed _ h := h
  again h := h

theorem release_stirs (s : State) : Stirs s s.release := by
  rcases s.release_cases with ⟨i, strand, ticket, link, rest, hi, hp, heq⟩ | ⟨_, heq⟩
  · rw [heq]
    exact (hand_stirs hi hp).trans (wake_stirs _ i)
  · rw [heq]
    exact ⟨rfl, rfl, rfl, rfl, fun _ h => h, fun _ h => h, fun _ h => h, fun h => h⟩

/-- A permit that is given back changes no strand but one that waits. -/
theorem release_strands_at {s : State} {i : Nat} {strand : Strand} (hi : s.strands[i]? = some strand)
    (hphase : strand.phase.ticket? = none) : s.release.strands[i]? = some strand := by
  rcases s.release_cases with ⟨j, other, ticket, link, rest, hj, hp, heq⟩ | ⟨_, heq⟩
  · have hne : j ≠ i := by
      rintro rfl
      rw [hi] at hj
      cases hj
      rw [hp] at hphase
      cases hphase
    rw [heq, ((s.hand j other link rest).wake_alike j).strands]
    simpa [hand, record, setPhase, setStrand, hne] using hi
  · rwa [heq]

theorem release_standings (s : State) : s.release.standings = s.standings := by
  rcases s.release_cases with ⟨i, strand, ticket, link, rest, hi, hp, heq⟩ | ⟨_, heq⟩
  · rw [heq, standings, ((s.hand i strand link rest).wake_alike i).strands]
    exact standings_hand hi hp
  · rw [heq]
    rfl

/-! ## Agenda and alerts in order -/

/-- Whether a worker is to have a turn, or has it. -/
def Summoned (s : State) (task : Nat) : Prop := task ∈ s.agenda ∨ s.active = some task

theorem Called.summoned {s : State} {task : Nat} (h : s.Called task) : s.Summoned task := by
  rcases h with h | ⟨h, _⟩
  · exact .inl h
  · exact .inr h

theorem Stirs.summoned {s t : State} {task : Nat} (h : Stirs s t) (hs : s.Summoned task) :
    t.Summoned task := by
  rcases hs with hs | hs
  · exact .inl (h.agenda task hs)
  · exact .inr (h.active.trans hs)

/-- Agenda and alerts hold nothing twice. Of a task that is closed nothing is left: its strands are over,
and its worker is not on the agenda. -/
structure Orderly (tasks : Nat) (closed : List Nat) (s : State) : Prop where
  task_lt : ∀ strand ∈ s.strands, strand.task < tasks
  over_of_closed : ∀ strand ∈ s.strands, strand.task ∈ closed → strand.phase.isOver = true
  agenda_nodup : s.agenda.Nodup
  agenda_lt : ∀ task ∈ s.agenda, task < tasks
  agenda_open : ∀ task ∈ s.agenda, task ∉ closed
  agenda_active : ∀ task ∈ s.agenda, s.active ≠ some task
  alerts_nodup : s.alerts.Nodup
  alerts_strand : ∀ i ∈ s.alerts, ∃ strand, s.strands[i]? = some strand ∧
    s.isLarge strand.task = true ∧ (strand.phase.isOver = true → strand.task ∈ closed) ∧
    (strand.phase.isOver = false → s.Summoned strand.task)

namespace Orderly

variable {tasks : Nat} {closed : List Nat} {s t : State}

theorem open_of_active {strand : Strand} (hs : s.Orderly tasks closed) (hmem : strand ∈ s.strands)
    (hactive : strand.phase.isOver = false) : strand.task ∉ closed := by
  intro hclosed
  rw [hs.over_of_closed strand hmem hclosed] at hactive
  cases hactive

theorem callUp {task : Nat} (hs : s.Orderly tasks closed) (hlt : task < tasks) (hopen : task ∉ closed) :
    (s.callUp task).Orderly tasks closed := by
  rcases s.callUp_cases task with ⟨_, heq⟩ | ⟨_, heq⟩ | ⟨hactive, hnew, heq⟩
  · rw [heq]
    exact { hs with }
  · rw [heq]
    exact hs
  · rw [heq]
    -- What the agenda is asked for holds of the task that is called up, too.
    have hmem : ∀ {P : Nat → Prop}, (∀ x ∈ s.agenda, P x) → P task →
        ∀ x ∈ s.agenda ++ [task], P x := by
      intro P hagenda htask x hx
      rcases List.mem_append.1 hx with hx | hx
      · exact hagenda x hx
      · obtain rfl := List.mem_singleton.1 hx
        exact htask
    exact {
      hs with
      agenda_nodup := nodup_append_singleton hs.agenda_nodup hnew
      agenda_lt := hmem hs.agenda_lt hlt
      agenda_open := hmem hs.agenda_open hopen
      agenda_active := hmem hs.agenda_active hactive
      alerts_strand := by
        intro i hi
        obtain ⟨strand, hstrand, hlarge, hover, hcalled⟩ := hs.alerts_strand i hi
        refine ⟨strand, hstrand, hlarge, hover, fun h => ?_⟩
        rcases hcalled h with h | h
        · exact .inl (List.mem_append_left _ h)
        · exact .inr h }

/-- A strand of a large group asks to be looked at. -/
theorem alert {i : Nat} {strand : Strand} (hs : s.Orderly tasks closed) (hi : s.strands[i]? = some strand)
    (hlarge : s.isLarge strand.task = true) (hactive : strand.phase.isOver = false)
    (hnew : i ∉ s.alerts) (hcalled : s.Summoned strand.task) :
    { s with alerts := s.alerts ++ [i] }.Orderly tasks closed :=
  { hs with
    alerts_nodup := nodup_append_singleton hs.alerts_nodup hnew
    alerts_strand := by
      intro j hj
      rcases List.mem_append.1 hj with hj | hj
      · exact hs.alerts_strand j hj
      · obtain rfl := List.mem_singleton.1 hj
        refine ⟨strand, hi, hlarge, fun h => ?_, fun _ => hcalled⟩
        rw [hactive] at h
        cases h }

theorem wake (hs : s.Orderly tasks closed) (i : Nat) : (s.wake i).Orderly tasks closed := by
  cases hi : s.strands[i]? with
  | none =>
    have hsame : s.wake i = s := by simp [State.wake, hi]
    rwa [hsame]
  | some strand =>
    have hmem : strand ∈ s.strands := List.mem_of_getElem? hi
    rcases wake_cases hi with ⟨_, _, heq⟩ | ⟨hlarge, hactive, hnew, heq⟩ | ⟨_, _, heq⟩ | ⟨_, hopen, heq⟩
    · rwa [heq]
    · have hcallUp := hs.callUp (hs.task_lt strand hmem) (hs.open_of_active hmem hactive)
      have halerts := s.callUp_alerts_eq strand.task
      have hi' : (s.callUp strand.task).strands[i]? = some strand := by
        rwa [(s.callUp_alike strand.task).strands]
      have halert := hcallUp.alert hi'
        (by rwa [isLarge_congr (s.callUp_stirs strand.task).tasks]) hactive (by rwa [halerts])
        (s.callUp_called strand.task).summoned
      rw [halerts] at halert
      rwa [heq]
    · rwa [heq]
    · rw [heq]
      refine hs.callUp (hs.task_lt strand hmem) ?_
      -- Some strand of the task is left.
      obtain ⟨other, hother, hleft⟩ : ∃ other ∈ s.strandsOf strand.task, other.phase.isOver = false := by
        simpa [State.isOver] using hopen
      obtain ⟨hother, htask⟩ := List.mem_filter.1 hother
      have heqtask : other.task = strand.task := by simpa using htask
      rw [← heqtask]
      exact hs.open_of_active hother hleft

/-- Only the strands, and who is called up, count. -/
theorem of_eq (hs : s.Orderly tasks closed) (hstrands : t.strands = s.strands)
    (hagenda : t.agenda = s.agenda) (halerts : t.alerts = s.alerts) (hactive : t.active = s.active) :
    t.Orderly tasks closed where
  task_lt := by
    rw [hstrands]
    exact hs.task_lt
  over_of_closed := by
    rw [hstrands]
    exact hs.over_of_closed
  agenda_nodup := by
    rw [hagenda]
    exact hs.agenda_nodup
  agenda_lt := by
    rw [hagenda]
    exact hs.agenda_lt
  agenda_open := by
    rw [hagenda]
    exact hs.agenda_open
  agenda_active := by
    rw [hagenda, hactive]
    exact hs.agenda_active
  alerts_nodup := by
    rw [halerts]
    exact hs.alerts_nodup
  alerts_strand := by
    intro i hi
    rw [halerts] at hi
    obtain ⟨strand, hstrand, hlarge, hover, hcalled⟩ := hs.alerts_strand i hi
    refine ⟨strand, by rwa [hstrands], ?_, hover, ?_⟩
    · rwa [isLarge_congr (congrArg _ hstrands)]
    · unfold Summoned at *
      rwa [hagenda, hactive]

/-- A strand passes on. It may be over then only if it has not asked to be looked at. -/
theorem setStrand {i : Nat} {strand : Strand} (strand' : Strand) (hs : s.Orderly tasks closed)
    (hi : s.strands[i]? = some strand) (hactive : strand.phase.isOver = false)
    (htask : strand'.task = strand.task) (hkeep : strand'.phase.isOver = false ∨ i ∉ s.alerts) :
    (s.setStrand i strand').Orderly tasks closed := by
  have hmem : strand ∈ s.strands := List.mem_of_getElem? hi
  have htasks : (s.setStrand i strand').strands.map Strand.task = s.strands.map Strand.task :=
    map_set_of_eq hi htask
  exact {
    hs with
    task_lt := by
      intro other hother
      rcases List.mem_or_eq_of_mem_set hother with hother | rfl
      · exact hs.task_lt other hother
      · rw [htask]
        exact hs.task_lt strand hmem
    over_of_closed := by
      intro other hother hclosed
      rcases List.mem_or_eq_of_mem_set hother with hother | rfl
      · exact hs.over_of_closed other hother hclosed
      · rw [htask] at hclosed
        exact absurd hclosed (hs.open_of_active hmem hactive)
    alerts_strand := by
      intro j hj
      obtain ⟨other, hother, hlarge, hover, hcalled⟩ := hs.alerts_strand j hj
      -- The strand itself has asked only if it goes on.
      by_cases hij : i = j
      · subst hij
        rw [hi] at hother
        cases hother
        have hopen : strand'.phase.isOver = false := hkeep.resolve_right fun h => h hj
        refine ⟨strand', ?_, ?_, ?_, ?_⟩
        · simp [State.setStrand, (List.getElem?_eq_some_iff.1 hi).1]
        · rwa [htask, isLarge_congr htasks]
        · intro h
          rw [hopen] at h
          cases h
        · intro _
          rw [htask]
          exact hcalled hactive
      · refine ⟨other, ?_, ?_, hover, hcalled⟩
        · simpa [State.setStrand, hij] using hother
        · rwa [isLarge_congr htasks] }

theorem release (hs : s.Orderly tasks closed) : s.release.Orderly tasks closed := by
  rcases s.release_cases with ⟨i, strand, ticket, link, rest, hi, hp, heq⟩ | ⟨_, heq⟩
  · rw [heq]
    have hset := hs.setStrand { strand with phase := .granted link rest } hi
      (by rw [hp]; rfl) rfl (.inl rfl)
    have hhand : (s.hand i strand link rest).Orderly tasks closed :=
      hset.of_eq rfl rfl rfl rfl
    exact hhand.wake i
  · rw [heq]
    exact hs.of_eq rfl rfl rfl rfl

end Orderly

/-! ## Strands that are looked at -/

/-- No strand is forgotten: each has nothing to do but wait, or is over, or a worker is going to look at
it, or is looking at it. -/
def Attended (looked : Nat → Prop) (s : State) : Prop :=
  ∀ i strand, s.strands[i]? = some strand →
    looked i ∨ strand.phase.Settled s.now ∨ s.Heard i strand.task

theorem wake_heard {s : State} {i : Nat} {strand : Strand} (hi : s.strands[i]? = some strand)
    (hactive : strand.phase.isOver = false) : (s.wake i).Heard i strand.task := by
  have hmem : strand ∈ s.strandsOf strand.task := by
    simp [strandsOf, List.mem_of_getElem? hi]
  rcases wake_cases hi with ⟨hlarge, hskip, heq⟩ | ⟨hlarge, _, _, heq⟩ | ⟨_, hover, _⟩ |
    ⟨hsmall, _, heq⟩
  · rw [heq]
    refine .inr (.inl ⟨hlarge, hskip.resolve_left ?_⟩)
    simp [hactive]
  · refine .inr (.inl ⟨?_, ?_⟩)
    · rwa [isLarge_congr (s.wake_stirs i).tasks]
    · rw [heq]
      exact List.mem_append_right _ List.mem_cons_self
  · have hall := List.all_eq_true.1 hover strand hmem
    rw [hactive] at hall
    cases hall
  · refine .inr (.inr ⟨?_, ?_⟩)
    · rwa [isLarge_congr (s.wake_stirs i).tasks]
    · rw [heq]
      exact s.callUp_called strand.task

namespace Attended

variable {looked : Nat → Prop} {s t : State}

theorem set {i : Nat} {strand' : Strand} (hs : s.Attended looked) (hstirs : Stirs s t)
    (ht : t.strands = s.strands.set i strand') (hi : looked i) : t.Attended looked := by
  intro j strand hj
  by_cases hij : i = j
  · subst hij
    exact .inl hi
  · have hsame : s.strands[j]? = some strand := by
      rw [ht] at hj
      simpa [hij] using hj
    rcases hs j strand hsame with h | h | h
    · exact .inl h
    · rw [hstirs.now]
      exact .inr (.inl h)
    · exact .inr (.inr (hstirs.heard h))

theorem release (hs : s.Attended looked) : s.release.Attended looked := by
  rcases s.release_cases with ⟨i, strand, ticket, link, rest, hi, hp, heq⟩ | ⟨_, heq⟩
  · rw [heq]
    intro j other hj
    rw [((s.hand i strand link rest).wake_alike i).strands] at hj
    have hstirs := (hand_stirs hi hp).trans (wake_stirs (s.hand i strand link rest) i)
    -- The strand that has got a permit is woken, and the others keep whoever they have.
    by_cases hij : i = j
    · subst hij
      have hgranted : (s.hand i strand link rest).strands[i]? =
          some { strand with phase := .granted link rest } := by
        simp [hand, record, setPhase, State.setStrand, (List.getElem?_eq_some_iff.1 hi).1]
      rw [hgranted] at hj
      cases hj
      exact .inr (.inr (wake_heard hgranted rfl))
    · have hsame : s.strands[j]? = some other := by
        simpa [hand, record, setPhase, State.setStrand, hij] using hj
      rcases hs j other hsame with h | h | h
      · exact .inl h
      · rw [hstirs.now]
        exact .inr (.inl h)
      · exact .inr (.inr (hstirs.heard h))
  · rw [heq]
    exact hs

end Attended

/-- What a look at a strand leaves as it is. -/
structure Looked (tasks : Nat) (closed : List Nat) (i : Nat) (s t : State) : Prop where
  orderly : t.Orderly tasks closed
  stirs : Stirs s t
  unasked : i ∉ t.alerts
  standings : ∃ standing, t.standings = s.standings.set i standing
  attended : ∀ looked : Nat → Prop,
    s.Attended (fun j => j = i ∨ looked j) → t.Attended (fun j => j = i ∨ looked j)

namespace Looked

variable {setup : Setup} {tasks i : Nat} {closed : List Nat} {s t u : State}

theorem refl (hs : s.Orderly tasks closed) (hi : i ∉ s.alerts) : Looked tasks closed i s s where
  orderly := hs
  stirs := .refl s
  unasked := hi
  standings := by
    cases h : s.standings[i]? with
    | none =>
      refine ⟨⟨0, false, none, none, false⟩, ?_⟩
      rw [List.set_eq_of_length_le (List.getElem?_eq_none_iff.1 h)]
    | some standing =>
      obtain ⟨hlt, hget⟩ := List.getElem?_eq_some_iff.1 h
      exact ⟨standing, by rw [← hget, List.set_getElem_self]⟩
  attended _ h := h

theorem trans (h₁ : Looked tasks closed i s t) (h₂ : Looked tasks closed i t u) :
    Looked tasks closed i s u where
  orderly := h₂.orderly
  stirs := h₁.stirs.trans h₂.stirs
  unasked := h₂.unasked
  standings := by
    obtain ⟨first, hfirst⟩ := h₁.standings
    obtain ⟨second, hsecond⟩ := h₂.standings
    exact ⟨second, by rw [hsecond, hfirst, List.set_set]⟩
  attended looked h := h₂.attended looked (h₁.attended looked h)

/-- The strand that is looked at passes on. -/
theorem pass {strand strand' : Strand} (hs : s.Orderly tasks closed) (hi : i ∉ s.alerts)
    (hstrand : s.strands[i]? = some strand) (hactive : strand.phase.isOver = false)
    (ht : t.strands = s.strands.set i strand') (htask : strand'.task = strand.task)
    (hnow : t.now = s.now) (hreported : t.reported = s.reported) (hagenda : t.agenda = s.agenda)
    (halerts : t.alerts = s.alerts) (hpostponed : t.postponed = s.postponed)
    (hturn : t.active = s.active) (hagain : t.again = s.again) : Looked tasks closed i s t := by
  have htasks : t.strands.map Strand.task = s.strands.map Strand.task := by
    rw [ht]
    exact map_set_of_eq hstrand htask
  have hstirs : Stirs s t :=
    ⟨hnow, hturn, hreported, htasks, fun _ h => hagenda ▸ h, fun _ h => halerts ▸ h,
      fun _ h => hpostponed ▸ h, fun h => hagain ▸ h⟩
  exact {
    orderly := (hs.setStrand _ hstrand hactive htask (.inr hi)).of_eq ht hagenda halerts hturn
    stirs := hstirs
    unasked := halerts ▸ hi
    standings := ⟨strand'.standing, by rw [State.standings, ht, List.map_set]; rfl⟩
    attended := fun looked h => h.set hstirs ht (.inl rfl) }

/-- A permit that is given back goes to another strand. -/
theorem release {strand : Strand} (hs : s.Orderly tasks closed) (hi : i ∉ s.alerts)
    (hstrand : s.strands[i]? = some strand) (hphase : strand.phase.ticket? = none) :
    Looked tasks closed i s s.release where
  orderly := hs.release
  stirs := s.release_stirs
  unasked := by
    rcases s.release_cases with ⟨j, other, ticket, link, rest, hj, hp, heq⟩ | ⟨_, heq⟩
    · rw [heq]
      -- The permit goes to a strand that waits, which this one does not.
      have hne : i ≠ j := by
        rintro rfl
        rw [hstrand] at hj
        cases hj
        rw [hp] at hphase
        cases hphase
      have hhand : (s.hand j other link rest).strands[j]? =
          some { other with phase := .granted link rest } := by
        simp [hand, record, setPhase, setStrand, (List.getElem?_eq_some_iff.1 hj).1]
      rcases wake_cases hhand with ⟨_, _, hwake⟩ | ⟨_, _, _, hwake⟩ | ⟨_, _, hwake⟩ | ⟨_, _, hwake⟩
      · rwa [hwake]
      · rw [hwake]
        intro hmem
        rcases List.mem_append.1 hmem with hmem | hmem
        · exact hi hmem
        · exact hne (List.mem_singleton.1 hmem)
      · rwa [hwake]
      · rw [hwake, callUp_alerts_eq]
        exact hi
    · rw [heq]
      exact hi
  standings := by
    obtain ⟨standing, hstanding⟩ := (Looked.refl hs hi).standings
    exact ⟨standing, by rw [s.release_standings, ← hstanding]⟩
  attended _ h := h.release

theorem conclude {strand : Strand} {link : Leaf} {rest : List Leaf} {ending : Ending}
    (hs : s.Orderly tasks closed) (hi : i ∉ s.alerts) (hstrand : s.strands[i]? = some strand)
    (hactive : strand.phase.isOver = false) :
    Looked tasks closed i s (s.conclude setup i strand link rest ending) := by
  let u := (s.record (ending.event link)).setStrand i (strand.conclude setup link rest ending)
  have hreported : u.reported = s.reported := by
    refine reported_record s _ ?_
    cases ending <;> simp [Ending.event]
  -- The strand has passed on before its permit is given back.
  have hpass : Looked tasks closed i s u :=
    pass hs hi hstrand hactive rfl (Strand.conclude_task _ _ _ _ _) rfl hreported rfl rfl rfl rfl rfl
  have hu : u.strands[i]? = some (strand.conclude setup link rest ending) := by
    simp [u, setStrand, record, (List.getElem?_eq_some_iff.1 hstrand).1]
  exact hpass.trans (release hpass.orderly hpass.unasked hu (Strand.conclude_ticket? _ _ _ _ _))

theorem of_stridden {r : Stride} (h : Stridden setup s i r) (hs : s.Orderly tasks closed)
    (hi : i ∉ s.alerts) : Looked tasks closed i s r.state := by
  cases h with
  | absent => exact refl hs hi
  | settled => exact refl hs hi
  | postponed =>
    have hstirs : Stirs s (s.postpone i) :=
      { Stirs.refl s with postponed := fun _ h => List.mem_cons_of_mem _ h }
    exact {
      refl hs hi with
      orderly := hs.of_eq rfl rfl rfl rfl
      stirs := hstirs
      attended := fun looked h j strand hj => by
        rcases h j strand hj with h | h | h
        · exact .inl h
        · exact .inr (.inl h)
        · exact .inr (.inr (hstirs.heard h)) }
  | queued hstrand hp =>
    exact pass hs hi hstrand (by rw [hp]; rfl) rfl rfl rfl (reported_record _ _ (by simp))
      rfl rfl rfl rfl rfl
  | taken hstrand hp =>
    exact pass hs hi hstrand (by rw [hp]; rfl) rfl rfl rfl rfl rfl rfl rfl rfl rfl
  | seen hstrand hp =>
    exact pass hs hi hstrand (by rw [hp]; rfl) rfl rfl rfl rfl rfl rfl rfl rfl rfl
  | launched hstrand hp =>
    exact pass hs hi hstrand (by rw [hp]; rfl) rfl rfl rfl (reported_record _ _ (by simp))
      rfl rfl rfl rfl rfl
  | due hstrand hp =>
    rw [resolve_state]
    have hspend : Looked tasks closed i s s.spend :=
      { refl hs hi with
        orderly := hs.of_eq rfl rfl rfl rfl
        stirs := { Stirs.refl s with }
        attended := fun _ h => h }
    exact hspend.trans (conclude hspend.orderly hi hstrand (by rw [hp]; rfl))
  | @immediate strand link rest u hstrand hp _ _ hu =>
    rw [resolve_state]
    have hlook : Looked tasks closed i s u := by
      rcases hu with rfl | rfl
      all_goals
        have hreported : (s.record (.began link strand.context)).reported = s.reported :=
          reported_record _ _ (by simp)
        exact {
          refl hs hi with
          orderly := hs.of_eq rfl rfl rfl rfl
          stirs := { Stirs.refl s with reported := hreported }
          attended := fun _ h => h }
    have hstrand' : u.strands[i]? = some strand := by
      rcases hu with rfl | rfl <;> exact hstrand
    exact hlook.trans (conclude hlook.orderly hlook.unasked hstrand' (by rw [hp]; rfl))

end Looked

/-! ## The end of a visit -/

theorem conclude_strands_at {s : State} {setup : Setup} {i : Nat} {strand : Strand} {link : Leaf}
    {rest : List Leaf} {ending : Ending} (hi : s.strands[i]? = some strand) :
    (s.conclude setup i strand link rest ending).strands[i]? =
      some (strand.conclude setup link rest ending) := by
  refine release_strands_at ?_ (Strand.conclude_ticket? setup strand link rest ending)
  simp [setStrand, record, (List.getElem?_eq_some_iff.1 hi).1]

theorem setStrand_strands_at {s : State} {i : Nat} {a b : Strand} (hi : s.strands[i]? = some a) :
    (s.setStrand i b).strands[i]? = some b :=
  List.getElem?_set_self (List.getElem?_eq_some_iff.1 hi).1

section Resolve

variable {setup : Setup} {s t : State} {i : Nat} {strand : Strand} {link : Leaf} {rest : List Leaf}
  {ending : Ending}

/-- A call that ends a visit ends its chain. -/
theorem resolve_halt (hi : s.strands[i]? = some strand)
    (h : s.resolve setup i strand link rest ending = .halt t) {other : Strand}
    (hother : t.strands[i]? = some other) : other.phase.isOver = true := by
  rw [resolve_eq] at h
  split at h
  · rename_i hover
    cases h
    rw [conclude_strands_at hi] at hother
    cases hother
    exact hover
  · cases h

/-- A call after which a visit goes on has not ended its chain. -/
theorem resolve_onward (hi : s.strands[i]? = some strand)
    (h : s.resolve setup i strand link rest ending = .onward t) :
    t.strands[i]? = some (strand.conclude setup link rest ending) ∧
      (strand.conclude setup link rest ending).phase.isOver = false := by
  rw [resolve_eq] at h
  split at h
  · cases h
  · rename_i hactive
    cases h
    exact ⟨conclude_strands_at hi, by simpa using hactive⟩

end Resolve

/-- A strand that halts has nothing to do but wait, or is over, or has been postponed because the turn is
used up. -/
theorem stridden_halt {setup : Setup} {s t : State} {i : Nat} (h : Stridden setup s i (.halt t)) :
    ∀ strand, t.strands[i]? = some strand →
      strand.phase.Settled t.now ∨ i ∈ t.postponed ∧ t.allowance = 0 := by
  generalize hr : Stride.halt t = r at h
  cases h with
  | absent hnone =>
    cases hr
    simp [hnone]
  | settled hi hsettled =>
    cases hr
    intro strand hstrand
    rw [hi] at hstrand
    cases hstrand
    exact .inl hsettled
  | postponed _ _ hused =>
    cases hr
    exact fun _ _ => .inr ⟨List.mem_cons_self, hused⟩
  | @queued strand link rest hi =>
    cases hr
    intro other hother
    have hset : (s.queue i strand link rest).strands[i]? =
        some { strand with phase := .waiting s.nextTicket link rest } := setStrand_strands_at hi
    rw [hset] at hother
    cases hother
    exact .inl trivial
  | @launched strand link rest hi _ _ hlater =>
    cases hr
    intro other hother
    simp only [launch, setPhase, setStrand, record, List.getElem?_set_self
      (List.getElem?_eq_some_iff.1 hi).1, Option.some.injEq] at hother
    subst hother
    exact .inl (Nat.lt_add_of_pos_right (Nat.pos_of_ne_zero hlater))
  | taken => cases hr
  | seen => cases hr
  | due hi => exact fun _ hother => .inl (.of_isOver (resolve_halt (s := s.spend) hi hr.symm hother))
  | @immediate strand _ _ u hi _ _ _ hu =>
    have hi' : u.strands[i]? = some strand := by
      rcases hu with rfl | rfl <;> exact hi
    exact fun _ hother => .inl (.of_isOver (resolve_halt hi' hr.symm hother))

/-- A strand that goes on has used up some of its work. -/
theorem stridden_onward {setup : Setup} {s t : State} {i : Nat}
    (h : Stridden setup s i (.onward t)) : ∃ strand strand', s.strands[i]? = some strand ∧
      t.strands[i]? = some strand' ∧ strand'.phase.work < strand.phase.work := by
  generalize hr : Stride.onward t = r at h
  cases h with
  | @taken strand link rest hi hp =>
    cases hr
    refine ⟨strand, { strand with phase := .holding link rest }, hi, setStrand_strands_at hi, ?_⟩
    simp [hp, Phase.work]
  | @seen strand link rest hi hp =>
    cases hr
    refine ⟨strand, { strand with phase := .holding link rest }, hi, setStrand_strands_at hi, ?_⟩
    simp [hp, Phase.work]
  | @due strand ticket link rest ends ending hi hp =>
    have hwork : 5 * rest.length < strand.phase.work := by
      rw [hp]
      exact Nat.lt_succ_self _
    exact ⟨strand, _, hi, (resolve_onward (s := s.spend) hi hr.symm).1,
      Nat.lt_of_le_of_lt (Strand.conclude_work setup strand link rest ending) hwork⟩
  | @immediate strand link rest u hi hp _ _ hu =>
    have hwork : 5 * rest.length < strand.phase.work := by
      rw [hp]
      simp [Phase.work]
    have hi' : u.strands[i]? = some strand := by
      rcases hu with rfl | rfl <;> exact hi
    exact ⟨strand, _, hi, (resolve_onward hi' hr.symm).1,
      Nat.lt_of_le_of_lt (Strand.conclude_work setup strand link rest _) hwork⟩
  | _ => cases hr

theorem strides_looked {setup : Setup} {tasks i : Nat} {closed : List Nat} (n : Nat) {s : State}
    (hs : s.Orderly tasks closed) (hi : i ∉ s.alerts)
    (hwork : ∀ strand, s.strands[i]? = some strand → strand.phase.work ≤ n) :
    Looked tasks closed i s (s.strides setup i n) ∧
    ∀ strand, (s.strides setup i n).strands[i]? = some strand →
      strand.phase.Settled (s.strides setup i n).now ∨
        i ∈ (s.strides setup i n).postponed ∧ (s.strides setup i n).allowance = 0 := by
  -- The work of the strand bounds the strides that are left.
  induction n generalizing s with
  | zero =>
    refine ⟨.refl hs hi, fun strand hstrand => .inl (.of_isOver ?_)⟩
    by_contra hactive
    have hpos := Strand.work_pos_of_isOver (a := strand) (by simpa using hactive)
    have hzero := hwork strand hstrand
    omega
  | succ n ih =>
    have hstride := s.stridden setup i
    simp only [strides]
    cases hr : s.stride setup i with
    | halt t =>
      rw [hr] at hstride
      exact ⟨.of_stridden hstride hs hi, stridden_halt hstride⟩
    | onward t =>
      rw [hr] at hstride
      have hlooked : Looked tasks closed i s t := .of_stridden hstride hs hi
      obtain ⟨strand, strand', hstrand, hstrand', hlt⟩ := stridden_onward hstride
      have hle : ∀ other, t.strands[i]? = some other → other.phase.work ≤ n := by
        intro other hother
        rw [hstrand'] at hother
        cases hother
        have hbound := hwork strand hstrand
        omega
      obtain ⟨hrest, hend⟩ := ih hlooked.orderly hlooked.unasked hle
      exact ⟨hlooked.trans hrest, hend⟩

theorem visit_looked {tasks i : Nat} {closed : List Nat} {s : State} (setup : Setup)
    (hs : s.Orderly tasks closed) (hi : i ∉ s.alerts) : Looked tasks closed i s (s.visit setup i) ∧
    ∀ strand, (s.visit setup i).strands[i]? = some strand →
      strand.phase.Settled (s.visit setup i).now ∨
        i ∈ (s.visit setup i).postponed ∧ (s.visit setup i).allowance = 0 := by
  unfold visit
  split
  · rename_i hnone
    refine ⟨.refl hs hi, ?_⟩
    simp [hnone]
  · rename_i strand hstrand
    refine strides_looked _ hs hi ?_
    intro other hother
    rw [hstrand] at hother
    cases hother
    exact Nat.le_refl _

/-- A strand that has been looked at is not forgotten. -/
theorem visit_attended {tasks i : Nat} {closed : List Nat} {s : State} {looked : Nat → Prop} (setup : Setup)
    (hs : s.Orderly tasks closed) (hi : i ∉ s.alerts) (ha : s.Attended fun j => j = i ∨ looked j) :
    (s.visit setup i).Attended looked := by
  obtain ⟨hlooked, hend⟩ := visit_looked setup hs hi
  intro j strand hj
  rcases hlooked.attended looked ha j strand hj with (rfl | h) | h | h
  · rcases hend strand hj with h | ⟨h, _⟩
    · exact .inr (.inl h)
    · exact .inr (.inr (.inl h))
  · exact .inl h
  · exact .inr (.inl h)
  · exact .inr (.inr h)

end State
end Run
end Inquiry
