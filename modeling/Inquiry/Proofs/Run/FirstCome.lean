import Inquiry.Proofs.Run.Conservation
import Inquiry.Proofs.Run.Line
import Inquiry.Proofs.Run.Sequential
import Inquiry.Proofs.Task.Mirror

/-!
# Proofs.Run.FirstCome — first come, first served

A leaf that waits for a permit is served before every leaf that comes up behind it. Once a permit is set
aside for it, its call starts at the same time, unless its task is reported first.

* `State.Ordered`: what is recorded later happens no earlier.
* `State.Honoured`: a permit that is set aside is used at the same time, or given back.
* `State.Excused`: a leaf is given up only when its task is reported, and not with a result.
* `Setup.serves_first_come`: leaves that wait are served in the order in which they come up.
-/

namespace Inquiry
namespace Run

/-! ## The order of time -/

/-- What is recorded later happens no earlier, and nothing is recorded before its time. -/
structure State.Ordered (s : State) : Prop where
  pairwise : s.log.Pairwise fun later e => e.at_ ≤ later.at_
  past : ∀ e ∈ s.log, e.at_ ≤ s.now

namespace State.Ordered

variable {s t : State}

theorem extend (hs : s.Ordered) {allowed : Event → Prop} (h : s.Extends allowed t) (hnow : s.now ≤ t.now) :
    t.Ordered := by
  obtain ⟨events, -, hlog⟩ := h
  have hnew : ∀ e ∈ events.map (Stamped.mk s.now), e.at_ = s.now := by
    intro e he
    obtain ⟨event, -, rfl⟩ := List.mem_map.1 he
    rfl
  refine ⟨?_, ?_⟩
  · rw [hlog]
    refine List.pairwise_append.2 ⟨?_, hs.pairwise, fun later hlater e he => ?_⟩
    · exact List.pairwise_map.2 (List.pairwise_of_forall fun _ _ => Nat.le_refl _)
    · rw [hnew later hlater]
      exact hs.past e he
  · intro e he
    rw [hlog] at he
    rcases List.mem_append.1 he with he | he
    · exact Nat.le_trans (Nat.le_of_eq (hnew e he)) hnow
    · exact Nat.le_trans (hs.past e he) hnow

end State.Ordered

theorem Course.ordered {setup : Setup} {s t : State} (h : Course setup s t) (hs : s.Ordered) : t.Ordered := by
  induction h with
  | refl => exact hs
  | tail _ hmove ih => exact ih.extend hmove.log_extends hmove.now_le

namespace Setup

variable (setup : Setup)

theorem start_ordered : setup.start.Ordered := ⟨.nil, by simp [start]⟩

/-- A run that is stopped at a time has not come further than that. -/
theorem rest_now_le (time : Nat) : (setup.rest (some time)).now ≤ time := by
  rcases Nat.eq_zero_or_pos time with rfl | hpos
  · exact Nat.le_refl 0
  · exact Nat.le_of_lt (setup.rest_now_lt hpos)

/-- What holds of every state in which a run can be stopped, and stays true when it is cancelled there, holds
of the last state of every run. -/
theorem finalState_induction {P : State → Prop} (interruption : Interruption)
    (hrest : ∀ stop, P (setup.rest stop))
    (hcancel : ∀ time, interruption.cancelAt = some time → P ((setup.rest (some time)).cancel setup time)) :
    P (setup.finalState interruption) := by
  unfold finalState
  split
  · exact hrest _
  · rename_i time htime
    split
    · exact hrest _
    · exact hcancel time htime

theorem finalState_ordered (interruption : Interruption) : (setup.finalState interruption).Ordered := by
  have hrest := fun stop => (setup.course_rest stop).ordered setup.start_ordered
  refine setup.finalState_induction interruption hrest fun time _ => ?_
  refine State.cancel_induction ?_ fun t task ht => ht.extend (t.extends_report task _)
    (Nat.le_of_eq (t.report_now task _).symm)
  exact ⟨(hrest (some time)).pairwise, fun e he =>
    Nat.le_trans ((hrest (some time)).past e he) (setup.rest_now_le time)⟩

end Setup

/-! ## Permits that are set aside are used -/

/-- By a record the wait of a leaf is over at a time: its call starts, or it is given up. -/
def WaitOver (events : List Stamped) (leaf : Leaf) (time : Nat) : Prop :=
  (∃ context, ⟨time, .began leaf context⟩ ∈ events) ∨ ⟨time, .withdrawn leaf⟩ ∈ events

theorem WaitOver.mono {events events' : List Stamped} {leaf : Leaf} {time : Nat}
    (h : WaitOver events leaf time) (hsub : events ⊆ events') : WaitOver events' leaf time :=
  h.imp (fun ⟨context, hbegan⟩ => ⟨context, hsub hbegan⟩) fun hwithdrawn => hsub hwithdrawn

namespace State

/-- Every permit that was set aside has been used at the same time, or given back. -/
def AllUsed (s : State) : Prop := ∀ time leaf, ⟨time, .granted leaf⟩ ∈ s.log → WaitOver s.log leaf time

/-- Every permit that was set aside has been used or given back, or it was set aside just now. -/
def Honoured (s : State) : Prop :=
  ∀ time leaf, ⟨time, .granted leaf⟩ ∈ s.log → WaitOver s.log leaf time ∨ (time = s.now ∧ s.Ahead leaf)

theorem Honoured.allUsed {s : State} (hs : s.Honoured) (h : ∀ leaf, ¬ s.Ahead leaf) : s.AllUsed :=
  fun time leaf hgranted => (hs time leaf hgranted).resolve_right fun hahead => h leaf hahead.2

namespace Honoured

variable {s t : State}

/-- Who is no longer ahead has made its call, or has been given up. -/
theorem extend (hs : s.Honoured) (events : List Event) (hnow : t.now = s.now)
    (hlog : t.log = events.map (Stamped.mk s.now) ++ s.log)
    (hahead : ∀ leaf, s.Ahead leaf →
      t.Ahead leaf ∨ (∃ context, .began leaf context ∈ events) ∨ .withdrawn leaf ∈ events)
    (hgranted : ∀ leaf, .granted leaf ∈ events → t.Ahead leaf) : t.Honoured := by
  have hnew : ∀ {event}, event ∈ events → ⟨s.now, event⟩ ∈ t.log := by
    intro event hevent
    rw [hlog]
    exact List.mem_append_left _ (List.mem_map_of_mem hevent)
  intro time leaf hmem
  rw [hlog] at hmem
  rcases List.mem_append.1 hmem with hmem | hmem
  · obtain ⟨event, hevent, heq⟩ := List.mem_map.1 hmem
    cases heq
    exact .inr ⟨hnow.symm, hgranted leaf hevent⟩
  · rcases hs time leaf hmem with hover | ⟨rfl, hleaf⟩
    · refine .inl (hover.mono ?_)
      rw [hlog]
      exact List.subset_append_right _ _
    · rcases hahead leaf hleaf with h | ⟨context, h⟩ | h
      · exact .inr ⟨hnow.symm, h⟩
      · exact .inl (.inl ⟨context, hnew h⟩)
      · exact .inl (.inr (hnew h))

/-- A strand that has no permit before its call is replaced. -/
theorem set (hs : s.Honoured) (events : List Event) {i : Nat} {a b : Strand} (hi : s.strands[i]? = some a)
    (ht : t.strands = s.strands.set i b) (hnow : t.now = s.now)
    (hlog : t.log = events.map (Stamped.mk s.now) ++ s.log) (hgranted : ∀ leaf, .granted leaf ∉ events)
    (ha : ∀ leaf rest, a.phase ≠ .granted leaf rest ∧ a.phase ≠ .holding leaf rest) : t.Honoured := by
  refine hs.extend events hnow hlog (fun leaf hleaf => .inl ?_) fun leaf h => absurd h (hgranted leaf)
  refine (exists_set hi ht hleaf).resolve_left ?_
  rintro ⟨rest, h | h⟩
  · exact (ha leaf rest).1 h
  · exact (ha leaf rest).2 h

theorem alike (hs : s.Honoured) (h : Alike s t) : t.Honoured :=
  hs.extend [] h.now h.log
    (fun leaf hleaf => .inl (by rwa [Ahead, h.strands])) (by simp)

theorem release (hs : s.Honoured) : s.release.Honoured := by
  rcases s.release_cases with ⟨i, strand, ticket, link, rest, hi, hp, heq⟩ | ⟨-, heq⟩
  · rw [heq]
    refine alike ?_ (wake_alike _ i)
    refine hs.extend [.granted link] rfl rfl (fun leaf hleaf => .inl ?_) fun leaf hleaf => ?_
    · refine (exists_set hi rfl hleaf).resolve_left ?_
      rintro ⟨rest', h | h⟩ <;> rw [hp] at h <;> cases h
    · cases List.mem_singleton.1 hleaf
      refine ⟨{ strand with phase := .granted link rest }, List.mem_of_getElem? (i := i) ?_, rest, .inl rfl⟩
      exact List.getElem?_set_self (List.getElem?_eq_some_iff.1 hi).1
  · rw [heq]
    exact hs.extend [] rfl rfl (fun _ => .inl) (by simp)

theorem withdraw (hs : s.Honoured) (task : Nat) : (s.withdraw task).Honoured := by
  refine hs.extend _ (s.withdraw_now task) (s.withdraw_log task) ?_ ?_
  · rintro leaf ⟨strand, hmem, rest, hp⟩
    by_cases htask : strand.task = task
    · refine .inr (.inr (List.mem_reverse.2 (List.mem_filterMap.2 ⟨strand, ?_, ?_⟩)))
      · exact List.mem_filter.2 ⟨hmem, by simpa using htask⟩
      · rcases hp with hp | hp <;> rw [hp] <;> rfl
    · refine .inl ⟨strand, List.mem_map.2 ⟨strand, hmem, ?_⟩, rest, hp⟩
      simp [htask]
  · intro leaf hleaf
    obtain ⟨strand, -, hstrand⟩ := List.mem_filterMap.1 (List.mem_reverse.1 hleaf)
    cases hp : strand.phase <;> rw [hp] at hstrand <;> cases hstrand

theorem report (hs : s.Honoured) (task : Nat) (outcome : Outcome) : (s.report task outcome).Honoured := by
  have hgiveUp : (s.giveUp task).Honoured := by
    rw [giveUp_eq]
    exact releaseAll_induction (P := Honoured) (fun t ht => ht.release) _ (hs.withdraw task)
  exact hgiveUp.extend [.reported task outcome] rfl rfl (fun _ => .inl) (by simp)

end Honoured
end State

/-- At one time, every permit that is set aside is used or given back, or is set aside still. -/
theorem Move.honoured {setup : Setup} {s t : State} (h : Move setup s t) (hnow : t.now = s.now)
    (hs : s.Honoured) : t.Honoured := by
  cases h with
  | @queue i strand link rest hi hp =>
    exact hs.set [.queued link] hi rfl rfl rfl (by simp) (by simp [hp])
  | take hi hp => exact hs.set [] hi rfl rfl rfl (by simp) (by simp [hp])
  | @see i strand link rest hi hp =>
    refine hs.extend [] rfl rfl (fun leaf hleaf => .inl ?_) (by simp)
    rcases State.exists_set (t := s.setPhase i strand (.holding link rest)) hi rfl hleaf with ⟨rest', h | h⟩ | hother
    · rw [hp] at h
      cases h
      refine ⟨{ strand with phase := .holding link rest }, List.mem_of_getElem? (i := i) ?_, rest, .inr rfl⟩
      exact List.getElem?_set_self (List.getElem?_eq_some_iff.1 hi).1
    · rw [hp] at h
      cases h
    · exact hother
  | @launch i strand link rest n hi hp =>
    refine hs.extend [.began link strand.context] rfl rfl (fun leaf hleaf => ?_) (by simp)
    rcases State.exists_set (t := s.launch setup i strand link rest n) hi rfl hleaf with ⟨rest', h | h⟩ | hother
    · rw [hp] at h
      cases h
    · rw [hp] at h
      cases h
      exact .inr (.inl ⟨_, List.mem_singleton_self _⟩)
    · exact .inl hother
  | @conclude i strand ticket link rest ends ending hi hp =>
    refine State.Honoured.release (hs.set [ending.event link] hi rfl rfl rfl ?_ (by simp [hp]))
    intro leaf
    cases ending <;> simp [Ending.event]
  | decide => exact hs.report _ _
  | elapse =>
    refine hs.extend [] hnow rfl (fun _ => .inl) (by simp)
  | schedule h => exact hs.alike h

/-- A course that takes no time keeps permits from being set aside for nothing. -/
theorem Course.honoured {setup : Setup} {s t : State} (h : Course setup s t) (hnow : t.now = s.now)
    (hs : s.Honoured) : t.Honoured :=
  h.instant_induction hnow hs fun _ _ _ hmove hsame hu => hmove.honoured hsame hu

namespace State

/-- A record in which every permit has been used is as good at any time. -/
theorem AllUsed.honoured {s t : State} (hs : s.AllUsed) (hlog : t.log = s.log) : t.Honoured := by
  intro time leaf hgranted
  rw [hlog] at hgranted ⊢
  exact .inl (hs time leaf hgranted)

/-- A strand that is settled has no permit before its call. -/
theorem not_ahead_of_settled {s : State} (h : ∀ strand ∈ s.strands, strand.phase.Settled s.now) (leaf : Leaf) :
    ¬ s.Ahead leaf := by
  rintro ⟨strand, hmem, rest, hp⟩
  have hsettled := h strand hmem
  rcases hp with hp | hp <;> rw [hp] at hsettled <;> cases hsettled

end State

namespace Setup

variable (setup : Setup)

theorem rest_allUsed (stop : Option Nat) : (setup.rest stop).AllUsed := by
  by_cases hzero : stop = some 0
  · intro time leaf hgranted
    rw [rest, if_pos hzero] at hgranted
    cases hgranted
  -- Between two times at rest nobody is ahead, so that what was set aside has been used.
  have hused : ∀ {s : State}, s.Between setup (fun _ => False) → s.Honoured → (s.rest setup).Quiet setup →
      (s.rest setup).AllUsed := fun hbetween hs hquiet =>
    ((Course.rest _).honoured hbetween.rest_now hs).allUsed (State.not_ahead_of_settled hquiet.settled)
  refine setup.quiet_induction hzero ?_ fun s time _ hquiet _ hs => ?_
  · have hstart : setup.start.AllUsed := fun _ _ h => absurd h List.not_mem_nil
    exact hused setup.start_between (hstart.honoured rfl)
      (State.rest_quiet setup.start_between fun i hi => absurd hi List.not_mem_nil)
  · exact hused (hquiet.between.elapse time) (hs.honoured (s.elapse_alike time).log) (hquiet.elapse time)

theorem finalState_allUsed (interruption : Interruption) : (setup.finalState interruption).AllUsed := by
  refine setup.finalState_induction interruption setup.rest_allUsed fun time _ => ?_
  have hhonoured : ((setup.rest (some time)).cancel setup time).Honoured :=
    State.cancel_induction ((setup.rest_allUsed (some time)).honoured rfl) fun _ task ht => ht.report task _
  -- When a run is cancelled, nothing is left under way.
  refine hhonoured.allUsed (State.not_ahead_of_settled fun strand hmem => .of_isOver ?_)
  exact setup.finalState_over (some time) strand hmem

end Setup

/-! ## Who is given up -/

/-- The chain of a strand is one of its task. -/
theorem strandsFrom_chain (base : Nat) (tasks : List Task) :
    List.Forall₂ (fun chain strand => ∃ k t, strand.task = base + k ∧ tasks[k]? = some t ∧ chain ∈ t.node.chains)
      (tasks.flatMap (·.node.chains)) (strandsFrom base tasks) := by
  induction tasks generalizing base with
  | nil => exact .nil
  | cons t tasks ih =>
    rw [List.flatMap_cons, strandsFrom]
    refine List.rel_append ?_ ((ih (base + 1)).imp ?_)
    · exact List.forall₂_map_right_iff.2 (List.forall₂_same.2 fun chain hchain => ⟨0, t, rfl, rfl, hchain⟩)
    · rintro chain strand ⟨k, t', htask, ht', hchain⟩
      exact ⟨k + 1, t', by omega, by simpa using ht', hchain⟩

/-- Why a leaf is given up at a time: its task is reported without a result then, for a reason. -/
def Setup.GivenUp (setup : Setup) (reason : Nat → Node → TaskError → Prop) (events : List Stamped)
    (leaf : Leaf) (time : Nat) : Prop :=
  ∃ task t e, setup.graph.tasks[task]? = some t ∧ (∃ chain ∈ t.node.chains, leaf ∈ chain.toList) ∧
    ⟨time, .reported task (.error e)⟩ ∈ events ∧ reason time t.node e

theorem Setup.GivenUp.mono {setup : Setup} {reason : Nat → Node → TaskError → Prop}
    {events events' : List Stamped} {leaf : Leaf} {time : Nat} (h : setup.GivenUp reason events leaf time)
    (hsub : events ⊆ events') : setup.GivenUp reason events' leaf time := by
  obtain ⟨task, t, e, ht, hleaf, hreport, hreason⟩ := h
  exact ⟨task, t, e, ht, hleaf, hsub hreport, hreason⟩

namespace State

variable {s : State} {setup : Setup}

/-- Every leaf that is given up is so for a reason. -/
def Excused (setup : Setup) (reason : Nat → Node → TaskError → Prop) (s : State) : Prop :=
  ∀ time leaf, ⟨time, .withdrawn leaf⟩ ∈ s.log → setup.GivenUp reason s.log leaf time

/-- A link that a strand has not finished is in a chain of its task. -/
theorem Chronicled.chain_of_task (hc : s.Chronicled setup.graph.chains)
    (htasks : s.strands.map Strand.task = setup.start.strands.map Strand.task) {strand : Strand}
    (hmem : strand ∈ s.strands) {leaf : Leaf} (hleaf : leaf ∈ strand.phase.links) :
    ∃ t, setup.graph.tasks[strand.task]? = some t ∧ ∃ chain ∈ t.node.chains, leaf ∈ chain.toList := by
  obtain ⟨i, hi⟩ := List.mem_iff_getElem?.1 hmem
  obtain ⟨chain, hchain, hsuffix⟩ := hc.links_suffix hi
  have hat := congrArg (·[i]?) htasks
  simp only [List.getElem?_map, hi, Option.map_some] at hat
  obtain ⟨first, hfirst, htask⟩ := Option.map_eq_some_iff.1 hat.symm
  obtain ⟨chain', hchain', k, t, hk, ht, hnode⟩ :=
    forall₂_getElem? (strandsFrom_chain 0 setup.graph.tasks) hfirst
  obtain rfl : chain = chain' := Option.some.inj (hchain.symm.trans hchain')
  rw [Nat.zero_add] at hk
  exact ⟨t, by rwa [← htask, hk], chain, hnode, hsuffix.subset hleaf⟩

/-- With the report of a task its strands are given up, and nobody else is. -/
theorem withdrawn_of_report {task time : Nat} {outcome : Outcome} {leaf : Leaf}
    (h : ⟨time, .withdrawn leaf⟩ ∈ (s.report task outcome).log) :
    ⟨time, .withdrawn leaf⟩ ∈ s.log ∨ (time = s.now ∧ ∃ strand ∈ s.strandsOf task,
      leaf ∈ strand.phase.links ∧ strand.phase.isOver = false) := by
  have hgiveUp : ⟨time, .withdrawn leaf⟩ ∈ (s.giveUp task).log := by
    refine (List.mem_cons.1 h).resolve_left fun heq => ?_
    cases heq
  rw [giveUp_eq] at hgiveUp
  obtain ⟨events, hgranted, hlog⟩ :=
    extends_releaseAll ((s.strandsOf task).countP (·.phase.hasPermit)) (s.withdraw task)
  rw [hlog, s.withdraw_log task] at hgiveUp
  rcases List.mem_append.1 hgiveUp with hnew | hold
  · obtain ⟨event, hevent, heq⟩ := List.mem_map.1 hnew
    obtain ⟨link, rfl⟩ := hgranted event hevent
    cases heq
  · refine (List.mem_append.1 hold).symm.imp_right fun hnew => ?_
    obtain ⟨event, hevent, heq⟩ := List.mem_map.1 hnew
    obtain ⟨strand, hmem, hstrand⟩ := List.mem_filterMap.1 (List.mem_reverse.1 hevent)
    cases heq
    refine ⟨rfl, strand, hmem, ?_⟩
    cases hp : strand.phase <;> rw [hp] at hstrand <;> cases hstrand
    all_goals exact ⟨List.mem_cons_self, rfl⟩

namespace Excused

variable {reason : Nat → Node → TaskError → Prop}

/-- Something is recorded with which nobody is given up. -/
theorem extend (hs : s.Excused setup reason) {t : State} (h : s.Extends (∀ leaf, · ≠ .withdrawn leaf) t) :
    t.Excused setup reason := by
  obtain ⟨events, hevents, hlog⟩ := h
  intro time leaf hmem
  have hsub : s.log ⊆ t.log := hlog ▸ List.subset_append_right _ _
  rw [hlog] at hmem
  rcases List.mem_append.1 hmem with hnew | hold
  · obtain ⟨event, hevent, heq⟩ := List.mem_map.1 hnew
    cases heq
    exact absurd rfl (hevents _ hevent leaf)
  · exact (hs time leaf hold).mono hsub

/-- A task is reported, for a reason if not all of its strands are over. -/
theorem report (hs : s.Excused setup reason) (hc : s.Chronicled setup.graph.chains)
    (htasks : s.strands.map Strand.task = setup.start.strands.map Strand.task) (task : Nat)
    (outcome : Outcome)
    (hreason : ∀ t, setup.graph.tasks[task]? = some t →
      (∃ strand ∈ s.strandsOf task, strand.phase.isOver = false) →
      ∃ e, outcome = .error e ∧ reason s.now t.node e) : (s.report task outcome).Excused setup reason := by
  have hsub : s.log ⊆ (s.report task outcome).log := by
    obtain ⟨events, -, hlog⟩ := s.extends_report task outcome
    rw [hlog]
    exact List.subset_append_right _ _
  intro time leaf hmem
  rcases withdrawn_of_report hmem with hold | ⟨rfl, strand, hstrand, hleaf, hopen⟩
  · exact (hs time leaf hold).mono hsub
  · obtain ⟨hin, htask⟩ := List.mem_filter.1 hstrand
    obtain rfl : strand.task = task := by simpa using htask
    obtain ⟨t, ht, hchain⟩ := hc.chain_of_task htasks hin hleaf
    obtain ⟨e, rfl, hholds⟩ := hreason t ht ⟨strand, hstrand, hopen⟩
    refine ⟨strand.task, t, e, ht, hchain, ?_, hholds⟩
    rw [← s.giveUp_now strand.task]
    exact List.mem_cons_self

end Excused
end State

/-- A reason to give up a task: one of its chains fails, or the run is cancelled. -/
def Setup.Reason (setup : Setup) (cancelAt : Option Nat) (time : Nat) (node : Node) (e : TaskError) : Prop :=
  (∃ chain ∈ node.chains, setup.backend.chainValue setup.limits.leafTimeout chain = .error e) ∨
  e = .cancelled ∧ cancelAt = some time

theorem Course.excused {setup : Setup} (hd : Distinct setup.graph.chains) (cancelAt : Option Nat) {s : State}
    (h : Course setup setup.start s) : s.Excused setup (setup.Reason cancelAt) := by
  induction h with
  | refl => exact fun _ _ h => absurd h List.not_mem_nil
  | @tail s t hcourse hmove ih =>
    cases hmove with
    | queue => exact ih.extend (s.extends_record (by simp))
    | launch => exact ih.extend (s.extends_record (by simp))
    | @conclude i strand _ link rest _ ending =>
      have hended : s.Extends (∀ leaf, · ≠ .withdrawn leaf) (s.record (ending.event link)) :=
        s.extends_record (by cases ending <;> simp [Ending.event])
      refine ih.extend (hended.trans rfl ((s.extends_conclude setup i strand link rest ending).mono ?_))
      rintro event ⟨granted, rfl⟩
      simp
    | @decide task verdict hverdict =>
      refine ih.report (Course.chronicled hcourse hd setup.start_chronicled) (Course.map_task hcourse) task _ ?_
      rintro t ht ⟨strand, hmem, hopen⟩
      -- A strand is under way, and so the task is not decided by its results.
      rcases verdict?_values (Course.onTheirWay hcourse ht) hverdict with ⟨chain, hchain, e, hvalue, rfl⟩ |
        ⟨hall, -⟩
      · exact ⟨e, rfl, .inl ⟨chain, hchain, hvalue⟩⟩
      · rw [hall strand hmem] at hopen
        cases hopen
    | schedule h => exact ih.extend ⟨[], by simp, h.log⟩
    | _ => exact ih.extend (.refl s)

namespace Setup

theorem finalState_excused (setup : Setup) (hd : Distinct setup.graph.chains) (interruption : Interruption) :
    (setup.finalState interruption).Excused setup (setup.Reason interruption.cancelAt) := by
  have hrest := fun stop => (setup.course_rest stop).excused hd interruption.cancelAt
  refine setup.finalState_induction interruption hrest fun time htime => ?_
  let P (s : State) : Prop := s.now = time ∧ s.Chronicled setup.graph.chains ∧
    s.strands.map Strand.task = setup.start.strands.map Strand.task ∧
    s.Excused setup (setup.Reason interruption.cancelAt)
  have hall : P ((setup.rest (some time)).cancel setup time) := by
    have hcourse := setup.course_rest (some time)
    have hc := hcourse.chronicled hd setup.start_chronicled
    refine State.cancel_induction ⟨rfl, ⟨hc.length, hc.known, hc.tells⟩, hcourse.map_task, hrest _⟩ ?_
    rintro s task ⟨hnow, hc, htasks, hs⟩
    refine ⟨(s.report_now task _).trans hnow, hc.report hd task _, ?_, hs.report hc htasks task _ ?_⟩
    · exact ((s.report_pushed task _).passes setup s.now).map_task.trans htasks
    · intro t _ _
      exact ⟨.cancelled, rfl, .inr ⟨rfl, hnow ▸ htime⟩⟩
  exact hall.2.2.2

end Setup

/-! ## First come, first served -/

/-- In a record leaves that wait for a permit are served in the order in which they come up. -/
structure Journal.FirstComeFirstServed (interruption : Interruption) (j : Journal) : Prop where
  /-- While a leaf waits, no permit is set aside for a leaf that comes up behind it, be it that it waits too
  or that the call in front of it in its chain has ended, and the call of that leaf does not start. -/
  inLine : ∀ before queued between served after first leaf,
    j.events = before ++ queued :: (between ++ served :: after) → queued.event = .queued first →
    (∃ e ∈ between, e.event.BringsUp j.setup.graph.chains leaf) → served.event.Serves leaf →
      ∃ e ∈ between, e.event.EndsWait first
  /-- Nor does anybody who asks for a permit find a free one. -/
  noneFree : ∀ s, j.setup.Reaches s → ∀ ticket leaf, s.Waiting ticket leaf → s.free = 0
  /-- The call of the later starts no sooner than that of the other, unless the other is given up. -/
  noSooner : ∀ before queued between time leaf context after first,
    j.events = before ++ queued :: (between ++ ⟨time, .began leaf context⟩ :: after) →
    queued.event = .queued first → (∃ e ∈ between, e.event.BringsUp j.setup.graph.chains leaf) →
      ∃ time' ≤ time, WaitOver j.events first time'
  /-- When a permit is set aside for a leaf, its call starts at the same time, unless it is given up. -/
  atOnce : ∀ time leaf, ⟨time, .granted leaf⟩ ∈ j.events → WaitOver j.events leaf time
  /-- A leaf is given up only when its task is reported, because a chain of the task fails or because the run
  is cancelled. -/
  givenUp : ∀ time leaf, ⟨time, .withdrawn leaf⟩ ∈ j.events →
    j.setup.GivenUp (j.setup.Reason interruption.cancelAt) j.events leaf time
  /-- Nobody waits for ever, unless the run is given up. -/
  served : interruption.abandonAt = none → ∀ time leaf, ⟨time, .queued leaf⟩ ∈ j.events →
    ∃ time' ≥ time, WaitOver j.events leaf time'

namespace Setup

variable (setup : Setup)

/-- In the whole record of a run, who has started to wait is served or given up. -/
theorem finalState_ends (cancelAt : Option Nat) (hd : Distinct setup.graph.chains) {time : Nat} {leaf : Leaf}
    {later earlier : List Stamped}
    (hlog : (setup.finalState { cancelAt }).log = later ++ ⟨time, .queued leaf⟩ :: earlier) :
    ∃ e ∈ later, e.event.EndsWait leaf := by
  by_contra hnone
  have hpast : (setup.finalState { cancelAt }).past =
      later.map Stamped.event ++ .queued leaf :: earlier.map Stamped.event := by
    rw [State.past, hlog, List.map_append, List.map_cons]
  have hwaits : Waits leaf (setup.finalState { cancelAt }).past := by
    rw [hpast]
    refine .of_queued fun event hevent hends => ?_
    obtain ⟨e, he, rfl⟩ := List.mem_map.1 hevent
    exact hnone ⟨e, he, hends⟩
  obtain ⟨ticket, strand, hmem, rest, hp⟩ := (setup.finalState_lined { cancelAt } hd).waits leaf hwaits
  have hover := setup.finalState_over cancelAt strand hmem
  rw [hp] at hover
  cases hover

/-- When the wait of a leaf ends, its call starts or it is given up, at that time. -/
theorem waitOver_of_ends (interruption : Interruption) {e : Stamped}
    (he : e ∈ (setup.finalState interruption).log) {leaf : Leaf} (hends : e.event.EndsWait leaf) :
    WaitOver (setup.finalState interruption).log leaf e.at_ := by
  obtain ⟨time, event⟩ := e
  cases event with
  | granted link =>
    obtain rfl : link = leaf := hends
    exact setup.finalState_allUsed interruption time link he
  | withdrawn link =>
    obtain rfl : link = leaf := hends
    exact .inr he
  | _ => exact absurd hends id

theorem run_waitOver (interruption : Interruption) {leaf : Leaf} {time : Nat}
    (h : WaitOver (setup.finalState interruption).log leaf time) :
    WaitOver (setup.run interruption).events leaf time :=
  h.mono fun _ he => List.mem_reverse.2 he

/-- A state keeps its record with the last event first. -/
theorem log_of_events {interruption : Interruption} {before between after : List Stamped} {queued served : Stamped}
    (h : (setup.run interruption).events = before ++ queued :: (between ++ served :: after)) :
    (setup.finalState interruption).log =
      after.reverse ++ served :: (between.reverse ++ queued :: before.reverse) := by
  have hreverse : (setup.finalState interruption).log = (setup.run interruption).events.reverse :=
    (List.reverse_reverse _).symm
  rw [hreverse, h]
  simp

/-- While a leaf waits, nobody is served who comes up behind it. -/
theorem run_inLine (interruption : Interruption) (hd : Distinct setup.graph.chains)
    {before between after : List Stamped} {queued served : Stamped} {first leaf : Leaf}
    (h : (setup.run interruption).events = before ++ queued :: (between ++ served :: after))
    (hqueued : queued.event = .queued first) (hup : ∃ e ∈ between, e.event.BringsUp setup.graph.chains leaf)
    (hserves : served.event.Serves leaf) : ∃ e ∈ between, e.event.EndsWait first := by
  have hserved := (setup.finalState_lined interruption hd).served
  rw [State.past, setup.log_of_events h, List.map_append, List.map_cons, List.map_append, List.map_cons,
    hqueued] at hserved
  obtain ⟨e, he, hbrings⟩ := hup
  obtain ⟨event, hevent, hends⟩ := hserved.of_append.ends hserves
    ⟨e.event, List.mem_map_of_mem (List.mem_reverse.2 he), hbrings⟩
  obtain ⟨e', he', rfl⟩ := List.mem_map.1 hevent
  exact ⟨e', List.mem_reverse.1 he', hends⟩

/-- Who is served behind a leaf that has waited is served no sooner than the wait of that one ends. -/
theorem run_noSooner (interruption : Interruption) (hd : Distinct setup.graph.chains)
    {before between after : List Stamped} {queued served : Stamped} {first leaf : Leaf}
    (h : (setup.run interruption).events = before ++ queued :: (between ++ served :: after))
    (hqueued : queued.event = .queued first) (hup : ∃ e ∈ between, e.event.BringsUp setup.graph.chains leaf)
    (hserves : served.event.Serves leaf) :
    ∃ time ≤ served.at_, WaitOver (setup.run interruption).events first time := by
  obtain ⟨e, he, hends⟩ := setup.run_inLine interruption hd h hqueued hup hserves
  have hsplit := setup.log_of_events h
  have hmem : e ∈ (setup.finalState interruption).log := by
    rw [hsplit]
    simp [he]
  have hpairwise := (setup.finalState_ordered interruption).pairwise
  rw [hsplit] at hpairwise
  have hle := (List.pairwise_cons.1 (List.pairwise_append.1 hpairwise).2.1).1 e (by simp [he])
  exact ⟨e.at_, hle, setup.run_waitOver interruption (setup.waitOver_of_ends interruption hmem hends)⟩

/-- In a run that is not given up every wait comes to its end. -/
theorem run_served (cancelAt : Option Nat) (hd : Distinct setup.graph.chains) {time : Nat} {leaf : Leaf}
    (hqueued : ⟨time, .queued leaf⟩ ∈ (setup.run { cancelAt }).events) :
    ∃ time' ≥ time, WaitOver (setup.run { cancelAt }).events leaf time' := by
  obtain ⟨later, earlier, hsplit⟩ := List.append_of_mem (List.mem_reverse.1 hqueued)
  obtain ⟨e, he, hends⟩ := setup.finalState_ends cancelAt hd hsplit
  have hmem : e ∈ (setup.finalState { cancelAt }).log := by
    rw [hsplit]
    exact List.mem_append_left _ he
  have hpairwise := (setup.finalState_ordered { cancelAt }).pairwise
  rw [hsplit] at hpairwise
  have hle := (List.pairwise_append.1 hpairwise).2.2 e he _ List.mem_cons_self
  exact ⟨e.at_, hle, setup.run_waitOver _ (setup.waitOver_of_ends _ hmem hends)⟩

theorem run_firstCome (interruption : Interruption) (hd : Distinct setup.graph.chains) :
    (setup.run interruption).FirstComeFirstServed interruption where
  inLine _ _ _ _ _ _ _ h hqueued hup hserves := setup.run_inLine interruption hd h hqueued hup hserves
  noneFree := by
    rintro s hs ticket leaf ⟨strand, hmem, rest, hp⟩
    exact hs.balanced.busy strand hmem (by rw [hp]; exact Option.some_ne_none ticket)
  noSooner _ _ _ _ _ _ _ _ h hqueued hup := setup.run_noSooner interruption hd h hqueued hup rfl
  atOnce time leaf hgranted :=
    setup.run_waitOver interruption (setup.finalState_allUsed interruption time leaf (List.mem_reverse.1 hgranted))
  givenUp time leaf hwithdrawn := by
    have hgiven := setup.finalState_excused hd interruption time leaf (List.mem_reverse.1 hwithdrawn)
    exact hgiven.mono fun e he => List.mem_reverse.2 he
  served habandon time leaf hqueued := by
    obtain ⟨cancelAt, abandonAt⟩ := interruption
    obtain rfl : abandonAt = none := habandon
    exact setup.run_served cancelAt hd hqueued

end Setup

/-- However a run of a compiled configuration is interrupted, and whatever the backend does, leaves that wait
for a permit are served in the order in which they come up: no call starts ahead of a leaf that waits
already, not even that of the next link of a chain whose call has just ended. -/
theorem Setup.serves_first_come {config : Json.Value} {graph : Graph}
    (hgraph : Graph.compile config = .ok graph) (backend : Backend) (limits : Limits)
    (interruption : Interruption) :
    (Setup.run ⟨graph, backend, limits⟩ interruption).FirstComeFirstServed interruption :=
  Setup.run_firstCome ⟨graph, backend, limits⟩ interruption (.of_compile hgraph)

/-- Where there is one permit for a lone analysis, a group and a follow-up, they are served in turn. -/
theorem Setup.serves_first_come_mixed : ∃ lineage,
    Graph.compile Mirror.mixed = .ok ⟨Mirror.countTasks ++ Mirror.seriesTasks, lineage⟩ ∧
    (Setup.run ⟨⟨Mirror.countTasks ++ Mirror.seriesTasks, lineage⟩,
      fun leaf _ => ⟨10, .result (.ofRecords leaf.spec.parameters [])⟩, { inFlight := 1 }⟩
      { cancelAt := some 15 }).FirstComeFirstServed { cancelAt := some 15 } := by
  obtain ⟨lineage, hgraph⟩ := Mirror.compile_mixed
  exact ⟨lineage, hgraph, Setup.serves_first_come hgraph _ _ _⟩

end Run
end Inquiry
