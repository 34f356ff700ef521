import Inquiry.Proofs.Run.Turn

/-!
# Proofs.Run.Between — the states between turns

Between turns no strand is forgotten, and a task that is not reported is not decided, unless its worker is
on the agenda.

* `State.Between` says so.
* `Between.turn`, `Between.nextTurn?`, `Between.elapse`, `Setup.start_between`: it holds at the start of a
  run, and whatever happens keeps it.
-/

namespace Inquiry
namespace Run
namespace State

/-! ## Reports -/

section Report

variable {s : State}

theorem withdraw_reported (s : State) (task : Nat) : (s.withdraw task).reported = s.reported := by
  obtain ⟨events, haside, hlog⟩ := s.extends_withdraw task
  have hnone : (events.map (Stamped.mk s.now)).filterMap (·.event.reportedTask?) = [] := by
    rw [List.filterMap_map, List.filterMap_eq_nil_iff]
    intro event hevent
    have hisAside := haside event hevent
    cases event <;> first | rfl | cases hisAside
  rw [reported_eq, reported_eq, hlog, List.filterMap_append, hnone, List.nil_append]

theorem withdraw_stirs (s : State) (task : Nat) : Stirs s (s.withdraw task) where
  now := s.withdraw_now task
  active := by simp [withdraw, recordFarewells_eq]
  reported := s.withdraw_reported task
  tasks := by
    simp only [withdraw, List.map_map]
    refine List.map_congr_left fun strand _ => ?_
    simp only [Function.comp_apply]
    split <;> rfl
  agenda _ h := by simpa [withdraw, recordFarewells_eq] using h
  alerts _ h := by simpa [withdraw, recordFarewells_eq] using h
  postponed _ h := by simpa [withdraw, recordFarewells_eq] using h
  again h := by simpa [withdraw, recordFarewells_eq] using h

theorem withdraw_strandsOf (s : State) {task other : Nat} (hne : other ≠ task) :
    (s.withdraw task).strandsOf other = s.strandsOf other := by
  have hother : ∀ strands : List Strand,
      (strands.map fun strand => if strand.task == task then
        { strand with phase := strand.phase.giveUp } else strand).filter (·.task == other) =
      strands.filter (·.task == other) := by
    intro strands
    induction strands with
    | nil => rfl
    | cons strand strands ih =>
      rw [List.map_cons, List.filter_cons, List.filter_cons, ih]
      by_cases htask : strand.task = task
      · simp [htask, hne.symm]
      · simp [htask]
  exact hother s.strands

/-- A strand after a report: it is over if it is one of the task, and else it is as it was. -/
theorem withdraw_strand {task i : Nat} {strand : Strand} (hi : (s.withdraw task).strands[i]? = some strand) :
    (strand.task = task ∧ strand.phase.isOver = true ∧
      ∃ before, s.strands[i]? = some before ∧ before.task = task) ∨
    (strand.task ≠ task ∧ s.strands[i]? = some strand) := by
  simp only [withdraw, List.getElem?_map, Option.map_eq_some_iff] at hi
  obtain ⟨before, hbefore, rfl⟩ := hi
  by_cases htask : before.task = task
  · refine .inl ⟨by simp [htask], ?_, before, hbefore, htask⟩
    rw [if_pos (by simpa using htask)]
    cases hp : before.phase <;> rfl
  · refine .inr ⟨by simp [htask], ?_⟩
    simp [htask, hbefore]

theorem withdraw_strand_mem {task : Nat} {strand : Strand} (hmem : strand ∈ (s.withdraw task).strands) :
    (strand.task = task ∧ strand.phase.isOver = true ∧ ∃ before ∈ s.strands, before.task = task) ∨
    (strand.task ≠ task ∧ strand ∈ s.strands) := by
  obtain ⟨i, hi⟩ := List.mem_iff_getElem?.1 hmem
  rcases withdraw_strand hi with ⟨htask, hover, before, hbefore, hb⟩ | ⟨htask, hbefore⟩
  · exact .inl ⟨htask, hover, before, List.mem_of_getElem? hbefore, hb⟩
  · exact .inr ⟨htask, List.mem_of_getElem? hbefore⟩

/-- A strand that has asked to be looked at is still there when a task is withdrawn, but it may be over. -/
theorem withdraw_alerts_strand {tasks task : Nat} {closed : List Nat} (hs : s.Orderly tasks closed) {i : Nat}
    (hi : i ∈ s.alerts) : ∃ strand, (s.withdraw task).strands[i]? = some strand ∧
      (s.withdraw task).isLarge strand.task = true ∧
      (strand.phase.isOver = true → strand.task ∈ task :: closed) ∧
      (strand.phase.isOver = false → (s.withdraw task).Summoned strand.task) := by
  have hstirs := s.withdraw_stirs task
  obtain ⟨before, hbefore, hlarge, hover, hsummoned⟩ := hs.alerts_strand i hi
  obtain ⟨strand, hstrand⟩ : ∃ strand, (s.withdraw task).strands[i]? = some strand :=
    ⟨_, by simp only [withdraw, List.getElem?_map, hbefore, Option.map_some]; rfl⟩
  have htasks := congrArg (·[i]?) hstirs.tasks
  simp only [List.getElem?_map, hstrand, hbefore, Option.map_some, Option.some.injEq] at htasks
  refine ⟨strand, hstrand, by rwa [isLarge_congr hstirs.tasks, htasks], fun h => ?_, fun h => ?_⟩
  · rcases withdraw_strand hstrand with ⟨htask, -⟩ | ⟨-, hsame⟩
    · rw [htask]
      exact List.mem_cons_self
    · rw [hbefore] at hsame
      cases hsame
      exact List.mem_cons_of_mem _ (hover h)
  · rcases withdraw_strand hstrand with ⟨-, hisOver, -⟩ | ⟨-, hsame⟩
    · rw [hisOver] at h
      cases h
    · rw [hbefore] at hsame
      cases hsame
      exact hstirs.summoned (hsummoned h)

theorem withdraw_orderly {tasks task : Nat} {closed : List Nat} (hs : s.Orderly tasks closed)
    (hagenda : task ∉ s.agenda) : (s.withdraw task).Orderly tasks (task :: closed) := by
  have hstirs := s.withdraw_stirs task
  -- Nobody is called up before the permits are given back.
  have hsame : (s.withdraw task).agenda = s.agenda ∧ (s.withdraw task).alerts = s.alerts := by
    simp [withdraw, recordFarewells_eq]
  exact {
    task_lt := by
      intro strand hmem
      rcases withdraw_strand_mem hmem with ⟨htask, -, before, hbefore, hb⟩ | ⟨-, hbefore⟩
      · rw [htask, ← hb]
        exact hs.task_lt before hbefore
      · exact hs.task_lt strand hbefore
    over_of_closed := by
      intro strand hmem hclosed
      rcases withdraw_strand_mem hmem with ⟨-, hover, -⟩ | ⟨htask, hbefore⟩
      · exact hover
      · exact hs.over_of_closed strand hbefore ((List.mem_cons.1 hclosed).resolve_left htask)
    agenda_nodup := by
      rw [hsame.1]
      exact hs.agenda_nodup
    agenda_lt := by
      rw [hsame.1]
      exact hs.agenda_lt
    agenda_open := by
      rw [hsame.1]
      intro other hother hclosed
      rcases List.mem_cons.1 hclosed with rfl | hclosed
      · exact hagenda hother
      · exact hs.agenda_open other hother hclosed
    agenda_active := by
      rw [hsame.1, hstirs.active]
      exact hs.agenda_active
    alerts_nodup := by
      rw [hsame.2]
      exact hs.alerts_nodup
    alerts_strand := fun i hi => withdraw_alerts_strand hs (hsame.2 ▸ hi) }

theorem withdraw_attended {task : Nat} {looked : Nat → Prop} (ha : s.Attended looked)
    (hlooked : ∀ i, looked i → ∃ strand, s.strands[i]? = some strand ∧ strand.task = task) :
    (s.withdraw task).Attended fun _ => False := by
  have hstirs := s.withdraw_stirs task
  intro i strand hi
  rcases withdraw_strand hi with ⟨-, hover, -⟩ | ⟨htask, hbefore⟩
  · exact .inr (.inl (.of_isOver hover))
  · rcases ha i strand hbefore with h | h | h
    · obtain ⟨other, hother, hothertask⟩ := hlooked i h
      rw [hbefore] at hother
      cases hother
      exact absurd hothertask htask
    · rw [hstirs.now]
      exact .inr (.inl h)
    · exact .inr (.inr (hstirs.heard h))

/-- What is kept when permits are given back is kept when any number of them is. -/
theorem releaseAll_induction {P : State → Prop} (h : ∀ s, P s → P s.release) (n : Nat) (hs : P s) :
    P (s.releaseAll n) := by
  induction n generalizing s with
  | zero => exact hs
  | succ n ih => exact ih (h s hs)

theorem giveUp_stirs (s : State) (task : Nat) : Stirs s (s.giveUp task) := by
  rw [giveUp_eq]
  refine releaseAll_induction (P := fun t => Stirs s t) ?_ _ (s.withdraw_stirs task)
  intro t ht
  exact ht.trans t.release_stirs

/-- What a report leaves behind. -/
structure Settled (tasks : Nat) (closed : List Nat) (task : Nat) (s t : State) : Prop where
  now : t.now = s.now
  active : t.active = s.active
  agenda : ∀ other ∈ s.agenda, other ∈ t.agenda
  orderly : t.Orderly tasks closed
  attended : t.Attended fun _ => False
  others : ∀ other, other ≠ task →
    (t.strandsOf other).map Strand.standing = (s.strandsOf other).map Strand.standing

theorem report_settled {tasks task : Nat} {closed : List Nat} {looked : Nat → Prop} (outcome : Outcome)
    (hs : s.Orderly tasks closed) (hagenda : task ∉ s.agenda) (ha : s.Attended looked)
    (hlooked : ∀ i, looked i → ∃ strand, s.strands[i]? = some strand ∧ strand.task = task) :
    Settled tasks (task :: closed) task s (s.report task outcome) := by
  have hreleased : (s.giveUp task).Orderly tasks (task :: closed) ∧
      ((s.giveUp task).Attended fun _ => False) ∧
      (s.giveUp task).standings = (s.withdraw task).standings := by
    rw [giveUp_eq]
    -- The permits are given back one by one, and no strand is over by that.
    refine releaseAll_induction (P := fun t => t.Orderly tasks (task :: closed) ∧
      (t.Attended fun _ => False) ∧ t.standings = (s.withdraw task).standings) ?_ _ ?_
    · rintro t ⟨horderly, hattended, hstandings⟩
      exact ⟨horderly.release, hattended.release, t.release_standings.trans hstandings⟩
    · exact ⟨withdraw_orderly hs hagenda, withdraw_attended ha hlooked, rfl⟩
  obtain ⟨horderly, hattended, hstandings⟩ := hreleased
  have hall := s.giveUp_stirs task
  exact {
    now := hall.now
    active := hall.active
    agenda := hall.agenda
    orderly := horderly.of_eq rfl rfl rfl rfl
    attended := hattended
    others := by
      intro other hne
      change ((s.giveUp task).strandsOf other).map Strand.standing = _
      rw [strandsOf_standings, hstandings, ← strandsOf_standings, s.withdraw_strandsOf hne] }

theorem report_reported (s : State) (task : Nat) (outcome : Outcome) :
    (s.report task outcome).reported = task :: s.reported := by
  rw [← (s.giveUp_stirs task).reported]
  rfl

end Report

/-! ## Between turns -/

/-- The invariant of the states between turns, up to some strands whose workers are just being called
up. -/
structure Between (setup : Setup) (looked : Nat → Prop) (s : State) : Prop where
  orderly : s.Orderly setup.graph.tasks.length s.reported
  attended : s.Attended looked
  idle : s.active = none
  decided : ∀ task < setup.graph.tasks.length,
    task ∈ s.reported ∨ task ∈ s.agenda ∨ verdict? (s.strandsOf task) = none
  reported_nodup : s.reported.Nodup
  reported_lt : ∀ task ∈ s.reported, task < setup.graph.tasks.length

/-- The invariant of the states at the end of a turn, before the worker leaves. -/
structure Leaving (setup : Setup) (task : Nat) (s : State) : Prop where
  orderly : s.Orderly setup.graph.tasks.length s.reported
  attended : s.Attended fun _ => False
  active : s.active = some task
  quiet : s.again = true ∨
    ∀ i ∈ s.alerts, ∀ strand, s.strands[i]? = some strand → strand.task = task →
      strand.phase.isOver = true
  lt : task < setup.graph.tasks.length
  decided : ∀ other < setup.graph.tasks.length,
    other ∈ s.reported ∨ other ∈ s.agenda ∨ verdict? (s.strandsOf other) = none
  reported_nodup : s.reported.Nodup
  reported_lt : ∀ other ∈ s.reported, other < setup.graph.tasks.length

theorem isOver_of_mem {s : State} {strand : Strand} (hover : s.isOver strand.task = true)
    (hmem : strand ∈ s.strands) : strand.phase.isOver = true := by
  refine List.all_eq_true.1 hover strand ?_
  simp [strandsOf, hmem]

theorem mem_endTurn_agenda {s : State} (task : Nat) {other : Nat} (h : other ∈ s.agenda) :
    other ∈ (s.endTurn task).agenda := by
  unfold State.endTurn
  dsimp only
  split
  · exact List.mem_append_left _ h
  · exact h

theorem endTurn_back {s : State} {task : Nat} (hagain : s.again = true) (hleft : s.isOver task = false) :
    task ∈ (s.endTurn task).agenda := by
  simp [State.endTurn, hagain, hleft]

/-- What is true of all workers on the agenda, and of the one that leaves if it comes back. -/
theorem endTurn_agenda_forall {s : State} {task : Nat} {P : Nat → Prop}
    (hagenda : ∀ other ∈ s.agenda, P other) (htask : s.isOver task = false → P task) :
    ∀ other ∈ (s.endTurn task).agenda, P other := by
  intro other hother
  unfold State.endTurn at hother
  dsimp only at hother
  split at hother
  · rename_i hback
    rcases List.mem_append.1 hother with hother | hother
    · exact hagenda other hother
    · obtain rfl := List.mem_singleton.1 hother
      simp only [Bool.and_eq_true, Bool.not_eq_true'] at hback
      exact htask hback.2
  · exact hagenda other hother

namespace Leaving

variable {setup : Setup} {task : Nat} {s : State}

theorem open_of_left (hs : s.Leaving setup task) (hleft : s.isOver task = false) : task ∉ s.reported := by
  obtain ⟨strand, hstrand, hactive⟩ : ∃ strand ∈ s.strandsOf task, strand.phase.isOver = false := by
    simpa [State.isOver] using hleft
  obtain ⟨hstrand, htask⟩ := List.mem_filter.1 hstrand
  rw [← show strand.task = task by simpa using htask]
  exact hs.orderly.open_of_active hstrand hactive

/-- A worker that leaves comes back if a strand of its own asks to be looked at. -/
theorem endTurn_orderly (hs : s.Leaving setup task) :
    (s.endTurn task).Orderly setup.graph.tasks.length s.reported where
  task_lt := hs.orderly.task_lt
  over_of_closed := hs.orderly.over_of_closed
  alerts_nodup := hs.orderly.alerts_nodup
  agenda_nodup := by
    unfold State.endTurn
    dsimp only
    split
    · exact nodup_append_singleton hs.orderly.agenda_nodup fun h =>
        hs.orderly.agenda_active task h hs.active
    · exact hs.orderly.agenda_nodup
  agenda_lt := endTurn_agenda_forall hs.orderly.agenda_lt fun _ => hs.lt
  agenda_open := endTurn_agenda_forall hs.orderly.agenda_open hs.open_of_left
  agenda_active := fun _ _ h => by cases h
  alerts_strand := by
    intro i hi
    obtain ⟨strand, hstrand, hlarge, hover, hsummoned⟩ := hs.orderly.alerts_strand i hi
    refine ⟨strand, hstrand, hlarge, hover, fun hleft => .inl ?_⟩
    rcases hsummoned hleft with h | h
    · exact mem_endTurn_agenda task h
    · -- The strand is one of the worker that leaves.
      obtain rfl : task = strand.task := Option.some.inj (hs.active.symm.trans h)
      have hisOver : s.isOver strand.task = false := by
        by_contra hall
        rw [isOver_of_mem (by simpa using hall) (List.mem_of_getElem? hstrand)] at hleft
        cases hleft
      rcases hs.quiet with hagain | hquiet
      · exact endTurn_back hagain hisOver
      · rw [hquiet i hi strand hstrand rfl] at hleft
        cases hleft

theorem endTurn_attended (hs : s.Leaving setup task) : (s.endTurn task).Attended fun _ => False := by
  intro i strand hi
  change s.strands[i]? = some strand at hi
  rcases hs.attended i strand hi with h | h | h | h | ⟨hsmall, h | ⟨hactive, hagain⟩⟩
  · exact .inl h
  · exact .inr (.inl h)
  · exact .inr (.inr (.inl h))
  · exact .inr (.inr (.inr (.inl h)))
  · exact .inr (.inr (.inr (.inr ⟨hsmall, .inl (mem_endTurn_agenda task h)⟩)))
  · obtain rfl : task = strand.task := Option.some.inj (hs.active.symm.trans hactive)
    cases hover : s.isOver strand.task with
    | true => exact .inr (.inl (.of_isOver (isOver_of_mem hover (List.mem_of_getElem? hi))))
    | false => exact .inr (.inr (.inr (.inr ⟨hsmall, .inl (endTurn_back hagain hover)⟩)))

theorem endTurn (hs : s.Leaving setup task) : (s.endTurn task).Between setup fun _ => False where
  orderly := hs.endTurn_orderly
  attended := hs.endTurn_attended
  idle := rfl
  decided := by
    intro other hother
    rcases hs.decided other hother with h | h | h
    · exact .inl h
    · exact .inr (.inl (mem_endTurn_agenda task h))
    · exact .inr (.inr h)
  reported_nodup := hs.reported_nodup
  reported_lt := hs.reported_lt

end Leaving

/-- A turn begins: the worker is not on the agenda any more, and has to look at its strands. -/
theorem Between.beginTurn {setup : Setup} {s : State} {task : Nat} {rest : List Nat}
    (hs : s.Between setup fun _ => False) (hagenda : s.agenda = task :: rest) :
    let u := { s with agenda := rest }.beginTurn task
    u.Orderly setup.graph.tasks.length s.reported ∧
    u.Attended fun i => u.isLarge task = false ∧ i ∈ numbersOf task 0 u.strands := by
  have hnodup := hs.orderly.agenda_nodup
  rw [hagenda, List.nodup_cons] at hnodup
  have hrest : ∀ other ∈ rest, other ∈ s.agenda := fun other h => hagenda ▸ List.mem_cons_of_mem _ h
  refine ⟨?_, ?_⟩
  · exact {
      task_lt := hs.orderly.task_lt
      over_of_closed := hs.orderly.over_of_closed
      alerts_nodup := hs.orderly.alerts_nodup
      agenda_nodup := hnodup.2
      agenda_lt := fun other h => hs.orderly.agenda_lt other (hrest other h)
      agenda_open := fun other h => hs.orderly.agenda_open other (hrest other h)
      agenda_active := by
        rintro other h heq
        cases heq
        exact hnodup.1 h
      alerts_strand := by
        intro i hi
        obtain ⟨strand, hstrand, hlarge, hover, hsummoned⟩ := hs.orderly.alerts_strand i hi
        refine ⟨strand, hstrand, hlarge, hover, fun hleft => ?_⟩
        -- The worker that was on the agenda has the turn now.
        rcases hsummoned hleft with h | h
        · rw [hagenda] at h
          rcases List.mem_cons.1 h with h | h
          · exact .inr (congrArg some h.symm)
          · exact .inl h
        · rw [hs.idle] at h
          cases h }
  · intro i strand hi
    rcases hs.attended i strand hi with h | h | h | h | ⟨hsmall, h | ⟨hactive, _⟩⟩
    · exact absurd h id
    · exact .inr (.inl h)
    · exact .inr (.inr (.inl h))
    · exact .inr (.inr (.inr (.inl h)))
    · rw [hagenda] at h
      rcases List.mem_cons.1 h with rfl | h
      · -- A worker of a small group looks at all its strands.
        exact .inl ⟨hsmall, mem_numbersOf_zero.2 ⟨strand, hi, rfl⟩⟩
      · exact .inr (.inr (.inr (.inr ⟨hsmall, .inl h⟩)))
    · rw [hs.idle] at hactive
      cases hactive

section Settle

variable {setup : Setup} {s u v : State} {task : Nat} {rest : List Nat}

theorem Seen.reported_eq (hu : u = { s with agenda := rest }.beginTurn task)
    (hv : Seen setup.graph.tasks.length s.reported task u v) : v.reported = s.reported := by
  rw [hv.kept.reported, hu]
  rfl

theorem Seen.active_eq (hu : u = { s with agenda := rest }.beginTurn task)
    (hv : Seen setup.graph.tasks.length s.reported task u v) : v.active = some task := by
  rw [hv.kept.active, hu]
  rfl

/-- While the worker of a task looks at its strands, nothing is decided about the other tasks. -/
theorem Between.others_decided (hs : s.Between setup fun _ => False) (hagenda : s.agenda = task :: rest)
    (hu : u = { s with agenda := rest }.beginTurn task)
    (hv : Seen setup.graph.tasks.length s.reported task u v) {other : Nat} (hne : other ≠ task)
    (hlt : other < setup.graph.tasks.length) :
    other ∈ s.reported ∨ other ∈ v.agenda ∨ verdict? (v.strandsOf other) = none := by
  rcases hs.decided other hlt with h | h | h
  · exact .inl h
  · rw [hagenda] at h
    refine .inr (.inl (hv.kept.agenda other ?_))
    rw [hu]
    exact (List.mem_cons.1 h).resolve_left hne
  · refine .inr (.inr (verdict?_congr_none (hv.kept.others other hne) ?_))
    rw [hu]
    exact h

/-- A worker whose strands do not decide its task leaves it open. -/
theorem Between.leave_open (hs : s.Between setup fun _ => False) (hagenda : s.agenda = task :: rest)
    (hu : u = { s with agenda := rest }.beginTurn task)
    (hv : Seen setup.graph.tasks.length s.reported task u v)
    (hverdict : verdict? (v.strandsOf task) = none) : v.Leaving setup task where
  orderly := by
    rw [hv.reported_eq hu]
    exact hv.orderly
  attended := hv.attended.mono fun i h => by
    have hsome := h.1
    rw [hverdict] at hsome
    cases hsome
  active := hv.active_eq hu
  quiet := by
    rcases hv.quiet with h | h | h
    · exact .inl h
    · rw [hverdict] at h
      cases h
    · exact .inr fun i hi strand hstrand htask => absurd htask (h i hi strand hstrand)
  lt := hs.orderly.agenda_lt task (hagenda ▸ List.mem_cons_self)
  decided := by
    intro other hlt
    by_cases hne : other = task
    · exact .inr (.inr (hne ▸ hverdict))
    · rw [hv.reported_eq hu]
      exact hs.others_decided hagenda hu hv hne hlt
  reported_nodup := hv.reported_eq hu ▸ hs.reported_nodup
  reported_lt := hv.reported_eq hu ▸ hs.reported_lt

/-- A worker whose strands decide its task reports it. -/
theorem Between.leave_reported (hs : s.Between setup fun _ => False) (hagenda : s.agenda = task :: rest)
    (hu : u = { s with agenda := rest }.beginTurn task)
    (hv : Seen setup.graph.tasks.length s.reported task u v) (outcome : Outcome) :
    (v.report task outcome).Leaving setup task := by
  have hmem : task ∈ s.agenda := hagenda ▸ List.mem_cons_self
  have hactive := hv.active_eq hu
  have hsettled := report_settled outcome hv.orderly (fun h => hv.orderly.agenda_active task h hactive)
    hv.attended fun i h => h.2
  have hclosed : (v.report task outcome).reported = task :: s.reported := by
    rw [report_reported, hv.reported_eq hu]
  exact {
    orderly := by
      rw [hclosed]
      exact hsettled.orderly
    attended := hsettled.attended
    active := hsettled.active.trans hactive
    quiet := .inr fun i hi strand hstrand htask =>
      hsettled.orderly.over_of_closed strand (List.mem_of_getElem? hstrand) (htask ▸ List.mem_cons_self)
    lt := hs.orderly.agenda_lt task hmem
    decided := by
      intro other hlt
      rw [hclosed]
      by_cases hne : other = task
      · exact .inl (hne ▸ List.mem_cons_self)
      · rcases hs.others_decided hagenda hu hv hne hlt with h | h | h
        · exact .inl (List.mem_cons_of_mem _ h)
        · exact .inr (.inl (hsettled.agenda other h))
        · exact .inr (.inr (verdict?_congr_none (hsettled.others other hne) h))
    reported_nodup := by
      rw [hclosed]
      exact List.nodup_cons.2 ⟨hs.orderly.agenda_open task hmem, hs.reported_nodup⟩
    reported_lt := by
      rw [hclosed]
      intro other hother
      rcases List.mem_cons.1 hother with rfl | hother
      · exact hs.orderly.agenda_lt other hmem
      · exact hs.reported_lt other hother }

theorem Between.settle (hs : s.Between setup fun _ => False) (hagenda : s.agenda = task :: rest)
    (hu : u = { s with agenda := rest }.beginTurn task)
    (hv : Seen setup.graph.tasks.length s.reported task u v) : (v.settle setup task).Leaving setup task := by
  unfold State.settle
  split
  · exact hs.leave_reported hagenda hu hv _
  · rename_i hverdict
    exact hs.leave_open hagenda hu hv hverdict

end Settle

theorem Between.turn {setup : Setup} {s : State} {task : Nat} {rest : List Nat}
    (hs : s.Between setup fun _ => False) (hagenda : s.agenda = task :: rest) :
    ({ s with agenda := rest }.turn setup task).Between setup fun _ => False := by
  obtain ⟨horderly, hattended⟩ := hs.beginTurn hagenda
  have hopen : task ∉ s.reported := hs.orderly.agenda_open task (hagenda ▸ List.mem_cons_self)
  exact (hs.settle hagenda rfl (look_seen setup horderly hopen hattended)).endTurn

theorem Between.turn_now {setup : Setup} {s : State} {task : Nat} {rest : List Nat}
    (hs : s.Between setup fun _ => False) (hagenda : s.agenda = task :: rest) :
    ({ s with agenda := rest }.turn setup task).now = s.now := by
  obtain ⟨horderly, hattended⟩ := hs.beginTurn hagenda
  have hopen : task ∉ s.reported := hs.orderly.agenda_open task (hagenda ▸ List.mem_cons_self)
  have hseen := look_seen setup horderly hopen hattended
  have hsettle : ∀ u : State, (u.settle setup task).now = u.now := by
    intro u
    unfold State.settle
    split
    · exact u.report_now _ _
    · rfl
  exact (hsettle _).trans hseen.kept.now

/-! ## Calling up workers -/

namespace Between

variable {setup : Setup} {looked : Nat → Prop} {s t : State}

/-- States between turns in which the same has happened, and as many workers are called up. -/
theorem of_stirs (hs : s.Between setup looked) (hstirs : Stirs s t) (hstrands : t.strands = s.strands)
    (horderly : t.Orderly setup.graph.tasks.length s.reported) {looked' : Nat → Prop}
    (hattended : t.Attended looked') : t.Between setup looked' where
  orderly := hstirs.reported.symm ▸ horderly
  attended := hattended
  idle := hstirs.active.trans hs.idle
  decided task hlt := by
    rw [hstirs.reported, strandsOf, hstrands]
    rcases hs.decided task hlt with h | h | h
    · exact .inl h
    · exact .inr (.inl (hstirs.agenda task h))
    · exact .inr (.inr h)
  reported_nodup := hstirs.reported.symm ▸ hs.reported_nodup
  reported_lt := hstirs.reported.symm ▸ hs.reported_lt

/-- A worker who is called up will look at the strand. -/
theorem wake {i : Nat} (hs : s.Between setup fun j => j = i ∨ looked j) :
    (s.wake i).Between setup looked := by
  have hstirs := s.wake_stirs i
  have hstrands := (s.wake_alike i).strands
  refine hs.of_stirs hstirs hstrands (hs.orderly.wake i) ?_
  intro j strand hj
  have hj' : s.strands[j]? = some strand := hstrands ▸ hj
  rcases hs.attended j strand hj' with (rfl | h) | h | h
  · cases hover : strand.phase.isOver with
    | true => exact .inr (.inl (.of_isOver hover))
    | false => exact .inr (.inr (wake_heard hj' hover))
  · exact .inl h
  · rw [hstirs.now]
    exact .inr (.inl h)
  · exact .inr (.inr (hstirs.heard h))

theorem foldl_wake {is : List Nat} (hs : s.Between setup (· ∈ is)) :
    (is.foldl State.wake s).Between setup fun _ => False := by
  induction is generalizing s with
  | nil => exact { hs with attended := hs.attended.mono fun i h => absurd h List.not_mem_nil }
  | cons i is ih =>
    refine ih (wake ?_)
    exact { hs with attended := hs.attended.mono fun j h => List.mem_cons.1 h }

theorem pause (hs : s.Between setup fun _ => False) : s.pause.Between setup fun _ => False := by
  refine foldl_wake ?_
  exact {
    orderly := hs.orderly.of_eq rfl rfl rfl rfl
    idle := hs.idle
    decided := hs.decided
    reported_nodup := hs.reported_nodup
    reported_lt := hs.reported_lt
    attended := by
      intro i strand hi
      rcases hs.attended i strand hi with h | h | h | h
      · exact absurd h id
      · exact .inr (.inl h)
      · exact .inl h
      · exact .inr (.inr (.inr h)) }

theorem refresh (hs : s.Between setup fun _ => False) : s.refresh.Between setup fun _ => False := by
  unfold State.refresh
  split
  · exact hs.pause
  · exact hs

theorem nextTurn? (hs : s.Between setup fun _ => False) (h : s.nextTurn? setup = some t) :
    t.Between setup fun _ => False := by
  obtain ⟨r, task, rest, rfl, hagenda, rfl⟩ := nextTurn?_eq_some h
  exact hs.refresh.turn hagenda

theorem turnsUpTo (n : Nat) (hs : s.Between setup fun _ => False) :
    (s.turnsUpTo setup n).Between setup fun _ => False := by
  induction n generalizing s with
  | zero => exact hs
  | succ n ih =>
    simp only [State.turnsUpTo]
    split
    · exact hs
    · rename_i h
      exact ih (hs.nextTurn? h)

theorem rest (hs : s.Between setup fun _ => False) : (s.rest setup).Between setup fun _ => False :=
  hs.turnsUpTo _

/-- Time stands still while workers have turns. -/
theorem turnsUpTo_now (n : Nat) (hs : s.Between setup fun _ => False) :
    (s.turnsUpTo setup n).now = s.now := by
  induction n generalizing s with
  | zero => rfl
  | succ n ih =>
    simp only [State.turnsUpTo]
    split
    · rfl
    · rename_i t h
      have hnow : t.now = s.now := by
        obtain ⟨r, task, rest, hr, hagenda, rfl⟩ := nextTurn?_eq_some h
        have hbetween : r.Between setup fun _ => False := hr ▸ hs.refresh
        rw [hbetween.turn_now hagenda, hr, s.refresh_alike.now]
      exact (ih (hs.nextTurn? h)).trans hnow

theorem rest_now (hs : s.Between setup fun _ => False) : (s.rest setup).now = s.now :=
  hs.turnsUpTo_now _

end Between

theorem mem_endingAt (base : Nat) {time : Nat} {strands : List Strand} {j : Nat} {strand : Strand}
    {ticket : Nat} {link : Leaf} {rest : List Leaf} {ends : Nat} {ending : Ending}
    (hj : strands[j]? = some strand) (hp : strand.phase = .calling ticket link rest ends ending)
    (hends : ends ≤ time) : (ticket, base + j) ∈ endingAt time base strands := by
  induction strands generalizing base j with
  | nil => simp at hj
  | cons s strands ih =>
    cases j with
    | zero =>
      obtain rfl : s = strand := by simpa using hj
      simp [endingAt, hp, hends]
    | succ j =>
      have hmem := ih (base + 1) (by simpa using hj)
      rw [Nat.add_assoc, Nat.add_comm 1] at hmem
      unfold endingAt
      split
      · split
        · exact List.mem_cons_of_mem _ hmem
        · exact hmem
      · exact hmem

theorem Between.elapse {setup : Setup} {s : State} (time : Nat) (hs : s.Between setup fun _ => False) :
    (s.elapse time).Between setup fun _ => False := by
  refine foldl_wake ?_
  exact {
    orderly := hs.orderly.of_eq rfl rfl rfl rfl
    idle := hs.idle
    decided := hs.decided
    reported_nodup := hs.reported_nodup
    reported_lt := hs.reported_lt
    attended := by
      intro i strand hi
      rcases hs.attended i strand hi with h | h | h
      · exact absurd h id
      · cases hp : strand.phase with
        | calling ticket link rest ends ending =>
          by_cases hends : ends ≤ time
          · -- The call is over by then, and its worker is called up.
            have hmem := mem_endingAt 0 hi hp hends
            rw [Nat.zero_add] at hmem
            exact .inl (List.mem_map.2 ⟨(ticket, i), List.mem_mergeSort.2 hmem, rfl⟩)
          · exact .inr (.inl (by simpa [hp, Phase.Settled] using hends))
        | waiting => exact .inr (.inl trivial)
        | _ => exact .inr (.inl (by simpa [hp, Phase.Settled] using h))
      · exact .inr (.inr h) }

end State

/-! ## The start -/

theorem strandsFrom_task {base : Nat} {tasks : List Task} :
    ∀ strand ∈ strandsFrom base tasks, base ≤ strand.task ∧ strand.task < base + tasks.length := by
  induction tasks generalizing base with
  | nil => simp [strandsFrom]
  | cons t tasks ih =>
    intro strand hmem
    rw [List.length_cons]
    rcases List.mem_append.1 hmem with hmem | hmem
    · obtain ⟨chain, _, rfl⟩ := List.mem_map.1 hmem
      simp only [Strand.start]
      omega
    · have hrest := ih strand hmem
      omega

namespace Setup

theorem start_task_lt (setup : Setup) :
    ∀ strand ∈ setup.start.strands, strand.task < setup.graph.tasks.length := by
  intro strand hmem
  have htask := (strandsFrom_task strand hmem).2
  omega

/-- At the start the strands of large groups ask to be looked at. -/
theorem mem_start_alerts (setup : Setup) {i : Nat} :
    i ∈ setup.start.alerts ↔ ∃ strand, setup.start.strands[i]? = some strand ∧
      setup.start.isLarge strand.task = true := by
  have hlarge : ∀ strand ∈ setup.start.strands,
      ((List.range setup.graph.tasks.length).filter setup.start.isLarge).contains strand.task =
        setup.start.isLarge strand.task := by
    intro strand hmem
    rw [Bool.eq_iff_iff]
    simp [setup.start_task_lt strand hmem]
  constructor
  · intro hi
    obtain ⟨⟨strand, j⟩, hmem, hj⟩ := List.mem_filterMap.1 hi
    have hstrand : setup.start.strands[j]? = some strand := List.mem_zipIdx_iff_getElem?.1 hmem
    have hsame := hlarge strand (List.mem_of_getElem? hstrand)
    simp only [Option.ite_none_right_eq_some, Option.some.injEq] at hj
    obtain ⟨hcontains, rfl⟩ := hj
    exact ⟨strand, hstrand, hsame.symm.trans hcontains⟩
  · rintro ⟨strand, hstrand, h⟩
    refine List.mem_filterMap.2 ⟨(strand, i), List.mem_zipIdx_iff_getElem?.2 hstrand, ?_⟩
    have hsame := hlarge strand (List.mem_of_getElem? hstrand)
    exact if_pos (hsame.trans h)

theorem start_alerts_nodup (setup : Setup) : setup.start.alerts.Nodup := by
  have hsub : ∀ (f : Strand × Nat → Option Nat) (_ : ∀ x, f x = some x.2 ∨ f x = none)
      (l : List (Strand × Nat)), List.Sublist (l.filterMap f) (l.map Prod.snd) := by
    intro f hf l
    induction l with
    | nil => exact .slnil
    | cons x l ih =>
      rw [List.filterMap_cons, List.map_cons]
      rcases hf x with hx | hx
      · rw [hx]
        exact ih.cons_cons x.2
      · rw [hx]
        exact ih.cons x.2
  refine (hsub _ (fun x => ?_) setup.start.strands.zipIdx).nodup ?_
  · dsimp only
    split
    · exact .inl rfl
    · exact .inr rfl
  rw [List.zipIdx_map_snd]
  exact List.nodup_range'

theorem start_between (setup : Setup) : setup.start.Between setup fun _ => False := by
  have hready : ∀ strand ∈ setup.start.strands, strand.phase.isOver = false := by
    intro strand hmem
    obtain ⟨link, rest, hp⟩ := setup.start_ready strand hmem
    rw [hp]
    rfl
  have hagenda : ∀ {task}, task < setup.graph.tasks.length → task ∈ setup.start.agenda :=
    List.mem_range.2
  exact {
    idle := rfl
    decided := fun task hlt => .inr (.inl (hagenda hlt))
    reported_nodup := List.nodup_nil
    reported_lt := by simp [start, State.reported]
    attended := by
      intro i strand hi
      have hcalled := hagenda (setup.start_task_lt strand (List.mem_of_getElem? hi))
      refine .inr (.inr (.inr ?_))
      cases hlarge : setup.start.isLarge strand.task with
      | true => exact .inl ⟨rfl, setup.mem_start_alerts.2 ⟨strand, hi, hlarge⟩⟩
      | false => exact .inr ⟨rfl, .inl hcalled⟩
    orderly := {
      task_lt := setup.start_task_lt
      over_of_closed := fun strand _ hclosed => absurd hclosed List.not_mem_nil
      agenda_nodup := List.nodup_range
      agenda_lt := fun task h => List.mem_range.1 h
      agenda_open := fun task _ => List.not_mem_nil
      agenda_active := fun task _ h => by cases h
      alerts_nodup := setup.start_alerts_nodup
      alerts_strand := by
        intro i hi
        obtain ⟨strand, hstrand, hlarge⟩ := setup.mem_start_alerts.1 hi
        have hmem : strand ∈ setup.start.strands := List.mem_of_getElem? hstrand
        refine ⟨strand, hstrand, hlarge, fun h => ?_, fun _ => .inl (hagenda (setup.start_task_lt _ hmem))⟩
        rw [hready strand hmem] at h
        cases h } }

theorem rest_between (setup : Setup) (stop : Option Nat) :
    (setup.rest stop).Between setup fun _ => False := by
  refine Setup.rest_induction (fun _ => setup.start_between) setup.start_between.rest ?_
  intro s time hs _ _
  exact (hs.elapse time).rest

end Setup
end Run
end Inquiry
