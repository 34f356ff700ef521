import Inquiry.Proofs.Run.Moment
import Inquiry.Proofs.Run.Order

/-!
# Proofs.Run.FailFast — a small group fails with the first of its chains

A small group is reported in the turn in which its first chain fails, and no call of it that fails is ever
left behind by the time. So the report comes at the first time at which one of its calls fails, and tells of
the first chain that fails then.

* `State.FailsFirst`: a failure is the first of a group, and silences it.
* `State.Prompt`: what holds between turns; `State.Prompt.turn`: every turn keeps it.
* `Setup.rest_prompt`: it holds whenever a run comes to rest.
* `Journal.FailsFast` is what becomes of a small group; `Setup.run_failsFast`: it does in every run.
-/

namespace Inquiry
namespace Run

/-! ## The first failure of a group -/

/-- A failure is the first in the record of some chains: none of their calls fails earlier, none of a chain
in front fails at the same time, and after it no call of them starts or is answered. -/
structure State.FailsFirst (setup : Setup) (chains : List Chain) (time : Nat) (e : TaskError) (s : State) :
    Prop where
  earliest : ∀ chain ∈ chains, ∀ leaf later e', s.FailsIn setup chain leaf later e' → time ≤ later
  first : ∃ (front : List Chain) (chain : Chain) (back : List Chain) (leaf : Leaf) (ending : Ending)
      (before after : List Stamped),
    chains = front ++ chain :: back ∧ s.FailsIn setup chain leaf time e ∧
    (∀ other ∈ front, ∀ leaf e', ¬ s.FailsIn setup other leaf time e') ∧
    ending.value setup.limits leaf = .error e ∧ s.log = after ++ ⟨time, ending.event leaf⟩ :: before ∧
    ∀ x ∈ after, ∀ chain ∈ chains, ∀ leaf ∈ chain.toList, x.event.calls? = some leaf → x.event = .cutOff leaf

namespace State

variable {setup : Setup} {s v : State} {task : Nat} {t : Task}

/-- The strands of a task that are over stay as they are, and no call of them starts or ends. -/
theorem silent_of_over (hd : Distinct setup.graph.chains) (hcourse : Course setup setup.start s)
    (h : Course setup s v) (ht : setup.graph.tasks[task]? = some t)
    (hover : ∀ strand ∈ s.strandsOf task, strand.phase.isOver = true) :
    (∀ strand ∈ v.strandsOf task, strand ∈ s.strandsOf task) ∧
    ∃ new, v.log = new ++ s.log ∧
      ∀ e ∈ new, ∀ chain ∈ t.node.chains, e.event.concerns chain.toList = false := by
  have hc := hcourse.chronicled hd setup.start_chronicled
  have hmem : ∀ {i strand}, s.strands[i]? = some strand → strand.task = task → strand ∈ s.strandsOf task :=
    fun hi htask => List.mem_filter.2 ⟨List.mem_of_getElem? hi, by simpa using htask⟩
  refine ⟨fun strand hstrand => ?_, ?_⟩
  · obtain ⟨hstrand, htask⟩ := List.mem_filter.1 hstrand
    obtain ⟨i, hi⟩ := List.mem_iff_getElem?.1 hstrand
    obtain ⟨a, ha, htask'⟩ := exists_strand_congr h.map_task.symm ⟨strand, hi, by simpa using htask⟩
    obtain ⟨chain, hchain, -⟩ := hc.chain_at ha
    have hsame := (h.silent hd hc hchain ha (hover a (hmem ha htask'))).1
    rw [hi] at hsame
    cases hsame
    exact hmem ha htask'
  · obtain ⟨new, hlog, -⟩ := h.log
    refine ⟨new, hlog, fun e he chain hchain => ?_⟩
    obtain ⟨i, strand, hchain, hi, hstrand⟩ := hcourse.exists_strand ht hchain
    obtain ⟨-, new', hlog', hnew'⟩ := h.silent hd hc hchain hi (hover strand hstrand)
    obtain rfl : new = new' := List.append_cancel_right (hlog.symm.trans hlog')
    exact hnew' e he

/-- A failure that was the first remains so when the group has been silenced. -/
theorem FailsFirst.append {chains : List Chain} {time : Nat} {e : TaskError} {new : List Stamped}
    (h : s.FailsFirst setup chains time e) (hlog : v.log = new ++ s.log)
    (hnew : ∀ x ∈ new, ∀ chain ∈ chains, x.event.concerns chain.toList = false) :
    v.FailsFirst setup chains time e := by
  have hsame : ∀ chain ∈ chains, v.FailsIn setup chain = s.FailsIn setup chain :=
    fun chain hchain => FailsIn.congr hlog fun x hx => hnew x hx chain hchain
  refine ⟨fun chain hchain => ?_, ?_⟩
  · rw [hsame chain hchain]
    exact h.earliest chain hchain
  · obtain ⟨front, chain, back, leaf, ending, before, after, hchains, hfails, hfront, hvalue, hsplit, hafter⟩ :=
      h.first
    refine ⟨front, chain, back, leaf, ending, before, new ++ after, hchains, ?_, fun other hother => ?_, hvalue,
      by rw [hlog, hsplit, List.append_assoc], fun x hx other hother leaf hleaf hcalls => ?_⟩
    · rwa [hsame chain (by simp [hchains])]
    · rw [hsame other (by simp [hchains, hother])]
      exact hfront other hother
    · rcases List.mem_append.1 hx with hx | hx
      · have hconcerns : x.event.concerns other.toList = true := Event.concerns_iff.2 ⟨leaf, hleaf, hcalls⟩
        rw [hnew x hx other hother] at hconcerns
        cases hconcerns
      · exact hafter x hx other hother leaf hleaf hcalls

/-! ## Between turns -/

/-- As long as a small group is not reported, none of its chains has failed. -/
def Calm (setup : Setup) (s : State) : Prop :=
  ∀ task t, setup.graph.tasks[task]? = some t → t.node.chains.length ≤ smallSize → task ∉ s.reported →
    ∀ strand ∈ s.strandsOf task, strand.error? = none

/-- As long as a small group is not reported, no call of it was to fail before now. -/
def Fresh (setup : Setup) (s : State) : Prop :=
  ∀ task t, setup.graph.tasks[task]? = some t → t.node.chains.length ≤ smallSize → task ∉ s.reported →
    ∀ chain ∈ t.node.chains, ∀ leaf time e, s.FailsIn setup chain leaf time e → s.now ≤ time

/-- A group is reported when all its chains are finished, or with its first failure. -/
def WellReported (setup : Setup) (task time : Nat) (outcome : Outcome) (t : Task) (s : State) : Prop :=
  (∀ strand ∈ s.strandsOf task, strand.phase = .finished) ∨
    ∃ e, outcome = .error e ∧ s.FailsFirst setup t.node.chains time e

theorem WellReported.congr {time : Nat} {outcome : Outcome} (h : s.WellReported setup task time outcome t)
    (hstrands : v.strands = s.strands) (hlog : v.log = s.log) : v.WellReported setup task time outcome t := by
  rcases h with hfinished | ⟨e, houtcome, hfirst⟩
  · refine .inl ?_
    rwa [strandsOf, hstrands]
  · exact .inr ⟨e, houtcome, hfirst.append (show v.log = [] ++ s.log from hlog) (by simp)⟩

/-- What holds between turns, as far as small groups are concerned. -/
structure Prompt (setup : Setup) (s : State) : Prop where
  course : Course setup setup.start s
  between : s.Between setup fun _ => False
  calm : s.Calm setup
  fresh : s.Fresh setup
  reports : ∀ time task outcome, ⟨time, .reported task outcome⟩ ∈ s.log →
    ∀ t, setup.graph.tasks[task]? = some t → t.node.chains.length ≤ smallSize →
      s.WellReported setup task time outcome t

/-- Calls that start later fail later. -/
theorem FailsIn.old_or_later {chain : Chain} {leaf : Leaf} {time : Nat} {e : TaskError}
    (h : v.FailsIn setup chain leaf time e) (hcourse : Course setup s v) :
    s.FailsIn setup chain leaf time e ∨ s.now ≤ time := by
  obtain ⟨hleaf, start, context, hmem, hcall, rfl⟩ := h
  obtain ⟨new, hlog, hnew⟩ := hcourse.log
  rw [hlog] at hmem
  rcases List.mem_append.1 hmem with hmem | hmem
  · exact .inr (Nat.le_trans (hnew _ hmem).1 (Nat.le_add_right _ _))
  · exact .inl ⟨hleaf, start, context, hmem, hcall, rfl⟩

namespace Prompt

/-- Nothing changes about a report once it has been made. -/
theorem kept (hs : s.Prompt setup) (hd : Distinct setup.graph.chains) (h : Course setup s v) {time : Nat}
    {outcome : Outcome} (hmem : ⟨time, .reported task outcome⟩ ∈ s.log)
    (ht : setup.graph.tasks[task]? = some t) (hsmall : t.node.chains.length ≤ smallSize) :
    v.WellReported setup task time outcome t := by
  have hover : ∀ strand ∈ s.strandsOf task, strand.phase.isOver = true := by
    intro strand hstrand
    obtain ⟨hstrand, htask⟩ := List.mem_filter.1 hstrand
    refine hs.between.orderly.over_of_closed strand hstrand ?_
    rw [show strand.task = task by simpa using htask]
    exact mem_reported.2 ⟨time, outcome, hmem⟩
  obtain ⟨hstrands, new, hlog, hnew⟩ := silent_of_over hd hs.course h ht hover
  rcases hs.reports time task outcome hmem t ht hsmall with hfinished | ⟨e, houtcome, hfirst⟩
  · exact .inl fun strand hstrand => hfinished strand (hstrands strand hstrand)
  · exact .inr ⟨e, houtcome, hfirst.append hlog hnew⟩

/-- As long as time stands still, the calls that fail are due now or later. -/
theorem due (hs : s.Prompt setup) (h : Course setup s v) (hnow : v.now = s.now)
    (ht : setup.graph.tasks[task]? = some t) (hsmall : t.node.chains.length ≤ smallSize)
    (hopen : task ∉ s.reported) :
    ∀ chain ∈ t.node.chains, ∀ leaf time e, v.FailsIn setup chain leaf time e → v.now ≤ time := by
  intro chain hchain leaf time e hfails
  rw [hnow]
  rcases hfails.old_or_later h with hold | hlater
  · exact hs.fresh task t ht hsmall hopen chain hchain leaf time e hold
  · exact hlater

end Prompt

/-! ## Turns -/

/-- Where nothing has been reported, the reports are those of before. -/
theorem mem_log_of_reported {time : Nat} {outcome : Outcome} (hcourse : Course setup s v)
    (hreported : v.reported = s.reported) (hmem : ⟨time, .reported task outcome⟩ ∈ v.log) :
    ⟨time, .reported task outcome⟩ ∈ s.log := by
  obtain ⟨new, hlog, -⟩ := hcourse.log
  have hnone : new.filterMap (·.event.reportedTask?) = [] := by
    rw [reported_eq, reported_eq, hlog, List.filterMap_append] at hreported
    exact List.append_left_eq_self.1 hreported
  rw [hlog] at hmem
  refine (List.mem_append.1 hmem).resolve_left fun hnew => ?_
  have hevent : task ∈ new.filterMap (·.event.reportedTask?) := List.mem_filterMap.2 ⟨_, hnew, rfl⟩
  rw [hnone] at hevent
  cases hevent

theorem calls?_of_isAside {event : Event} (h : event.isAside = true) {leaf : Leaf}
    (hleaf : event.calls? = some leaf) : event = .cutOff leaf := by
  cases event <;> simp_all [Event.isAside, Event.calls?]

/-- The report of a group in which a chain has just failed is of its first failure. -/
theorem report_failsFirst {chains front back : List Chain} {chain : Chain} {e : TaskError}
    (hchains : chains = front ++ chain :: back) (hfailed : v.JustFailed setup chain e)
    (hfront : ∀ other ∈ front, ∀ leaf e', ¬ v.FailsIn setup other leaf v.now e')
    (hdue : ∀ chain ∈ chains, ∀ leaf time e, v.FailsIn setup chain leaf time e → v.now ≤ time) :
    (v.report task (.error e)).FailsFirst setup chains v.now e := by
  obtain ⟨leaf, time, ending, before, after, hfails, htime, hvalue, hlog, hafter⟩ := hfailed
  obtain rfl : time = v.now :=
    Nat.le_antisymm htime (hdue chain (by simp [hchains]) leaf time e hfails)
  obtain ⟨events, hevents, hgiveUp⟩ := v.extends_giveUp task
  have hext : v.Extends (·.began? = none) (v.report task (.error e)) :=
    ((v.extends_giveUp task).mono fun _ => Event.began?_of_isAside).trans (v.giveUp_now task)
      (extends_record _ rfl)
  have hsame : ∀ other, (v.report task (.error e)).FailsIn setup other = v.FailsIn setup other := by
    intro other
    funext leaf time e
    simp only [FailsIn, hext.failsAt_iff]
  refine ⟨fun other hother => ?_, front, chain, back, leaf, ending, before,
    ⟨v.now, .reported task (.error e)⟩ :: (events.map (Stamped.mk v.now) ++ after), hchains, ?_,
    fun other hother => ?_, hvalue, ?_, fun x hx other hother leaf' hleaf' hcalls => ?_⟩
  · rw [hsame]
    exact hdue other hother
  · rwa [hsame]
  · rw [hsame]
    exact hfront other hother
  · change ⟨(v.giveUp task).now, .reported task (.error e)⟩ :: (v.giveUp task).log = _
    rw [hgiveUp, hlog, v.giveUp_now, List.cons_append, List.append_assoc]
  · rcases List.mem_cons.1 hx with rfl | hx
    · cases hcalls
    · rcases List.mem_append.1 hx with hx | hx
      · obtain ⟨event, hevent, rfl⟩ := List.mem_map.1 hx
        exact calls?_of_isAside (hevents event hevent) hcalls
      · rw [hafter x hx] at hcalls
        cases hcalls

/-- Strands that allow no decision of a small group have not failed. -/
theorem error?_of_verdict? {strands : List Strand} (hsmall : strands.length ≤ smallSize)
    (h : verdict? strands = none) : ∀ strand ∈ strands, strand.error? = none := by
  intro strand hmem
  cases hp : strand.phase with
  | failed e =>
    have hsome := verdict?_isSome_of_failure hsmall hmem hp
    rw [h] at hsome
    cases hsome
  | crashed message =>
    have hsome := verdict?_isSome_of_crash hmem hp
    rw [h] at hsome
    cases hsome
  | _ => simp [Strand.error?, hp]

theorem error?_of_standing {a b : Strand} (h : b.standing = a.standing) (ha : a.error? = none) :
    b.error? = none := by
  have hcrash : b.crash? = a.crash? := congrArg Standing.crash? h
  have hfailure : b.failure? = a.failure? := congrArg Standing.failure? h
  cases hp : b.phase <;> cases hq : a.phase <;>
    simp_all [Strand.error?, Strand.crash?, Strand.failure?]

/-- What a worker leaves behind when it has looked at its strands. -/
structure Viewed (setup : Setup) (task : Nat) (s w : State) : Prop where
  course : Course setup s w
  now : w.now = s.now
  reported : w.reported = s.reported
  unreported : task ∉ s.reported
  /-- The chains of other groups have not failed. -/
  others : ∀ other t, setup.graph.tasks[other]? = some t → t.node.chains.length ≤ smallSize →
    other ≠ task → other ∉ s.reported → ∀ strand ∈ w.strandsOf other, strand.error? = none
  /-- If a chain of its own has failed, the first decides. -/
  own : ∀ t, setup.graph.tasks[task]? = some t → t.node.chains.length ≤ smallSize →
    (∀ strand ∈ w.strandsOf task, strand.error? = none) ∨
    ∃ e front chain back, t.node.chains = front ++ chain :: back ∧
      verdict? (w.strandsOf task) = some (.error e) ∧ w.JustFailed setup chain e ∧
      ∀ other ∈ front, ∀ leaf e', ¬ w.FailsIn setup other leaf w.now e'

theorem Prompt.look (hs : s.Prompt setup) (hd : Distinct setup.graph.chains) {rest : List Nat}
    (hagenda : s.agenda = task :: rest) {u : State} (hu : u = { s with agenda := rest }.beginTurn task) :
    Viewed setup task s (u.look setup task) := by
  have halike : Alike s u := hu ▸ ⟨rfl, rfl, rfl, rfl, rfl⟩
  have hreported : u.reported = s.reported := hu ▸ rfl
  have hopen : task ∉ s.reported := hs.between.orderly.agenda_open task (hagenda ▸ List.mem_cons_self)
  have hbegin := hs.between.beginTurn hagenda
  rw [← hu] at hbegin
  obtain ⟨horderly, hattended⟩ := hbegin
  have hseen := look_seen setup horderly hopen hattended
  have hlook : Course setup u (u.look setup task) := Course.look u task
  have hcourse : Course setup s (u.look setup task) := (Course.alike halike).trans hlook
  refine ⟨hcourse, hseen.kept.now.trans halike.now, hseen.kept.reported.trans hreported, hopen, ?_, ?_⟩
  · intro other t ht hsmall hne hother strand hmem
    have hstanding : strand.standing ∈ (u.strandsOf other).map Strand.standing :=
      hseen.kept.others other hne ▸ List.mem_map_of_mem hmem
    obtain ⟨before, hbefore, heq⟩ := List.mem_map.1 hstanding
    rw [strandsOf, halike.strands] at hbefore
    exact error?_of_standing heq.symm (hs.calm other t ht hsmall hother before hbefore)
  · intro t ht hsmall
    have hstart : Course setup setup.start u := hs.course.trans (Course.alike halike)
    have hlarge : u.isLarge task = false := by
      have hlength := (hstart.onTheirWay ht).length_eq
      simpa [isLarge, ← hlength] using hsmall
    have hround : u.look setup task = u.round setup (numbersOf task 0 u.strands) := by
      rw [State.look, if_neg (by simp [hlarge])]
    refine round_verdict hstart hd ht horderly hlarge ?_ hround fun strand hmem hdropped => hopen ?_
    · have hcalm := hs.calm task t ht hsmall hopen
      rwa [strandsOf, halike.strands]
    · obtain ⟨hmem, htask⟩ := List.mem_filter.1 hmem
      have hdone := Course.dropped_reported (hs.course.trans hcourse) setup.start_dropped_reported strand hmem
        hdropped
      rwa [hseen.kept.reported, hreported, show strand.task = task by simpa using htask] at hdone

namespace Viewed

variable {w : State}

/-- A worker that leaves its group open has seen no chain fail. -/
theorem calm (hw : Viewed setup task s w) (hs : s.Prompt setup) : (w.settle setup task).Calm setup := by
  intro other t ht hsmall hopen strand hmem
  unfold State.settle at hopen hmem
  cases hverdict : verdict? (w.strandsOf task) with
  | none =>
    simp only [hverdict] at hopen hmem
    -- A verdict would have been reached if a chain of the task itself had failed.
    by_cases hne : other = task
    · subst hne
      have hlength := (Course.onTheirWay (hs.course.trans hw.course) ht).length_eq
      exact error?_of_verdict? (hlength ▸ hsmall) hverdict strand hmem
    · exact hw.others other t ht hsmall hne (hw.reported ▸ hopen) strand hmem
  | some verdict =>
    simp only [hverdict] at hopen hmem
    rw [report_reported, hw.reported, List.mem_cons, not_or] at hopen
    obtain ⟨hmem, htask⟩ := List.mem_filter.1 hmem
    obtain ⟨i, hi⟩ := List.mem_iff_getElem?.1 hmem
    have hpushed := w.report_pushed task (outcomeOf setup task verdict)
    obtain ⟨before, hbefore, hbetween⟩ := forall₂_getElem? hpushed hi
    refine Strand.error?_pushed hbetween (hw.others other t ht hsmall hopen.1 hopen.2 before ?_)
    exact List.mem_filter.2 ⟨List.mem_of_getElem? hbefore, Strand.task_pushed hbetween ▸ htask⟩

/-- A worker that reports its group does so with the first failure, if there is one. -/
theorem reports (hw : Viewed setup task s w) (hs : s.Prompt setup) (hd : Distinct setup.graph.chains) :
    ∀ time other outcome, ⟨time, .reported other outcome⟩ ∈ (w.settle setup task).log →
      ∀ t, setup.graph.tasks[other]? = some t → t.node.chains.length ≤ smallSize →
        (w.settle setup task).WellReported setup other time outcome t := by
  intro time other outcome hmem t ht hsmall
  have hsettle : Course setup w (w.settle setup task) := Course.settle w task
  have hcourse : Course setup s (w.settle setup task) := hw.course.trans hsettle
  have hold : ⟨time, .reported other outcome⟩ ∈ w.log →
      (w.settle setup task).WellReported setup other time outcome t :=
    fun h => hs.kept hd hcourse (mem_log_of_reported hw.course hw.reported h) ht hsmall
  unfold State.settle at hmem hsettle hold ⊢
  cases hverdict : verdict? (w.strandsOf task) with
  | none =>
    simp only [hverdict] at hmem hold ⊢
    exact hold hmem
  | some verdict =>
    simp only [hverdict] at hmem hsettle hold ⊢
    obtain ⟨events, hevents, hlog⟩ := w.extends_giveUp task
    rcases List.mem_cons.1 hmem with hnew | hmem
    · -- The report that is made now is that of the task whose turn it is.
      injection hnew with htime hevent
      injection hevent with htask houtcome
      rw [w.giveUp_now] at htime
      subst htime htask houtcome
      rcases hw.own t ht hsmall with hnone | ⟨e, front, chain, back, hchains, he, hfailed, hfront⟩
      · rcases verdict?_cases hverdict with
          ⟨strand, hstrand, message, hp, -⟩ | ⟨strand, hstrand, e, hp, -⟩ | ⟨hall, -⟩
        · have hcrash := hnone strand hstrand
          simp [Strand.error?, hp] at hcrash
        · have hfailure := hnone strand hstrand
          simp [Strand.error?, hp] at hfailure
        · -- All chains have finished, and stay so.
          have hkept := (silent_of_over hd (hs.course.trans hw.course) hsettle ht fun strand hstrand => by
            rw [hall strand hstrand]
            rfl).1
          exact .inl fun strand hstrand => hall strand (hkept strand hstrand)
      · obtain rfl : verdict = .error e := Option.some.inj (hverdict.symm.trans he)
        refine .inr ⟨e, rfl, report_failsFirst hchains hfailed hfront ?_⟩
        exact hs.due hw.course hw.now ht hsmall hw.unreported
    · -- Giving up is not reported, so the report is an older one.
      rw [hlog] at hmem
      rcases List.mem_append.1 hmem with hmem | hmem
      · obtain ⟨event, hevent, hsame⟩ := List.mem_map.1 hmem
        cases hsame
        cases hevents _ hevent
      · exact hold hmem

end Viewed

namespace Prompt

theorem turn (hs : s.Prompt setup) (hd : Distinct setup.graph.chains) {rest : List Nat}
    (hagenda : s.agenda = task :: rest) : ({ s with agenda := rest }.turn setup task).Prompt setup := by
  have hw := hs.look hd hagenda rfl
  have hcourse : Course setup s ({ s with agenda := rest }.turn setup task) := by
    have halike : Alike s { s with agenda := rest } := ⟨rfl, rfl, rfl, rfl, rfl⟩
    exact (Course.alike halike).trans (Course.turn _ task)
  refine ⟨hs.course.trans hcourse, hs.between.turn hagenda, hw.calm hs, ?_, fun time other outcome hmem t ht
    hsmall => (hw.reports hs hd time other outcome hmem t ht hsmall).congr rfl rfl⟩
  intro other t ht hsmall hopen
  refine hs.due hcourse (hs.between.turn_now hagenda) ht hsmall fun h => hopen ?_
  obtain ⟨new, hlog, -⟩ := hcourse.log
  rw [reported_eq, hlog, List.filterMap_append]
  rw [reported_eq] at h
  exact List.mem_append_right _ h

/-- States in which the same has happened. -/
theorem of_alike (hs : s.Prompt setup) (halike : Alike s v) (hv : v.Between setup fun _ => False) :
    v.Prompt setup := by
  have hreported : v.reported = s.reported := by rw [reported_eq, reported_eq, halike.log]
  refine ⟨hs.course.trans (Course.alike halike), hv, ?_, ?_, ?_⟩
  · intro task t ht hsmall hopen
    rw [strandsOf, halike.strands]
    exact hs.calm task t ht hsmall (hreported ▸ hopen)
  · intro task t ht hsmall hopen
    exact hs.due (Course.alike halike) halike.now ht hsmall (hreported ▸ hopen)
  · intro time task outcome hmem t ht hsmall
    rw [halike.log] at hmem
    exact (hs.reports time task outcome hmem t ht hsmall).congr halike.strands halike.log

theorem turnsUpTo (n : Nat) (hs : s.Prompt setup) (hd : Distinct setup.graph.chains) :
    (s.turnsUpTo setup n).Prompt setup := by
  induction n generalizing s with
  | zero => exact hs
  | succ n ih =>
    simp only [State.turnsUpTo]
    cases hnext : s.nextTurn? setup with
    | none => exact hs
    | some u =>
      obtain ⟨r, task, rest, rfl, hagenda, rfl⟩ := nextTurn?_eq_some hnext
      exact ih ((hs.of_alike s.refresh_alike hs.between.refresh).turn hd hagenda)

theorem rest (hs : s.Prompt setup) (hd : Distinct setup.graph.chains) : (s.rest setup).Prompt setup :=
  hs.turnsUpTo _ hd

/-- The calls of an open group that fail are in flight, and time does not pass them by. -/
theorem elapse {time : Nat} (hs : s.Prompt setup) (hd : Distinct setup.graph.chains)
    (hnext : nextEnd? s.strands = some time) : (s.elapse time).Prompt setup := by
  have hforeseen := Course.foreseen hs.course hd setup.start_chronicled setup.start_foreseen
  have hcourse : Course setup s (s.elapse time) :=
    Course.elapse (Course.timely hs.course setup.start_timely) hnext
  have halike := s.elapse_alike time
  have hreported : (s.elapse time).reported = s.reported := by rw [reported_eq, reported_eq, halike.log]
  refine ⟨hs.course.trans hcourse, hs.between.elapse time, ?_, ?_, ?_⟩
  · intro task t ht hsmall hopen
    rw [strandsOf, halike.strands]
    exact hs.calm task t ht hsmall (hreported ▸ hopen)
  · intro task t ht hsmall hopen chain hchain leaf due e hfails
    rw [hreported] at hopen
    have hsame : s.FailsIn setup chain leaf due e := by
      obtain ⟨hleaf, hfails⟩ := hfails
      exact ⟨hleaf, by rwa [FailsAt, ← show (s.elapse time).log = s.log from halike.log]⟩
    obtain ⟨i, strand, hchain, hi, hmem⟩ := Course.exists_strand hs.course ht hchain
    have hforetold := hforeseen i chain strand hchain hi
    rw [halike.now]
    -- A call that fails is in flight, for its chain has not failed and its task is open.
    cases hp : strand.phase with
    | calling ticket link rest ends ending =>
      have hdue := ((hforetold.calling hp leaf due e).1 hsame).2.1
      rw [hdue]
      exact (nextEnd?_eq_some hnext).2 strand (List.mem_of_getElem? hi) ticket link rest ends ending hp
    | dropped =>
      have hdone := Course.dropped_reported hs.course setup.start_dropped_reported strand
        (List.mem_of_getElem? hi) hp
      rw [show strand.task = task by simpa using (List.mem_filter.1 hmem).2] at hdone
      exact absurd hdone hopen
    | _ =>
      have hcalm := hs.calm task t ht hsmall hopen strand hmem
      exact absurd hsame (hforetold.none (by rw [hp]; rfl) (by simp [hp]) hcalm leaf due e)
  · intro other task outcome hmem t ht hsmall
    rw [halike.log] at hmem
    exact (hs.reports other task outcome hmem t ht hsmall).congr halike.strands halike.log

end Prompt
end State

namespace Setup

theorem start_prompt (setup : Setup) : setup.start.Prompt setup where
  course := .refl
  between := setup.start_between
  calm task t ht hsmall hopen strand hmem := by
    obtain ⟨link, rest, hp⟩ := setup.start_ready strand (List.mem_filter.1 hmem).1
    simp [Strand.error?, hp]
  fresh task t ht hsmall hopen chain hchain leaf time e hfails := Nat.zero_le _
  reports time task outcome hmem := absurd hmem List.not_mem_nil

theorem rest_prompt (setup : Setup) (hd : Distinct setup.graph.chains) (stop : Option Nat) :
    (setup.rest stop).Prompt setup := by
  refine setup.rest_induction (fun _ => setup.start_prompt) (setup.start_prompt.rest hd) ?_
  intro s time hs hnext _
  exact (hs.elapse hd hnext).rest hd

end Setup

/-! ## Whole runs -/

/-- By the record, the call of a leaf fails at a time, or would if it were not cut off before. -/
def Journal.FailsAt (j : Journal) (leaf : Leaf) (time : Nat) (e : TaskError) : Prop :=
  ∃ start context, ⟨start, .began leaf context⟩ ∈ j.events ∧
    j.setup.backend.call j.setup.limits.leafTimeout leaf context = .error e ∧
    time = start + (j.setup.backend leaf context).duration j.setup.limits

/-- A task with some chains fails as soon as the first of them does. -/
structure Journal.FailsFast (j : Journal) (task : Nat) (chains : List Chain) (time : Nat) (e : TaskError) :
    Prop where
  /-- The task is reported once, with the failure. -/
  report : j.reports.filter (·.task == task) = [⟨task, time, .error e⟩]
  /-- No call fails earlier. -/
  earliest : ∀ chain ∈ chains, ∀ leaf ∈ chain.toList, ∀ later e', j.FailsAt leaf later e' → time ≤ later
  /-- The failure is that of the first chain of which a call fails then. After it no call of the task
  starts or is answered, and those in flight are cut off. -/
  first : ∃ front chain back leaf, chains = front ++ chain :: back ∧ leaf ∈ chain.toList ∧
    j.FailsAt leaf time e ∧ (∀ other ∈ front, ∀ leaf ∈ other.toList, ∀ e', ¬ j.FailsAt leaf time e') ∧
    ∃ (ending : Ending) (before after : List Stamped), ending.value j.setup.limits leaf = .error e ∧
      j.events = before ++ ⟨time, ending.event leaf⟩ :: after ∧
      ∀ x ∈ after, ∀ chain ∈ chains, ∀ leaf ∈ chain.toList,
        x.event.calls? = some leaf → x.event = .cutOff leaf
  /-- At the end of that time the report has been made. -/
  record : (j.setup.endOf time).log.reverse = j.events.filter (·.at_ ≤ time)
  /-- The task has no permit then, and waits for none. -/
  released : ∀ strand ∈ (j.setup.endOf time).strandsOf task, strand.phase.isOver = true
  /-- If another task waits for a permit then, all are used by calls in flight. -/
  used : ∀ strand ∈ (j.setup.endOf time).strands, strand.phase.ticket? ≠ none →
    (j.setup.endOf time).inFlight = j.setup.limits.permits

namespace Setup

theorem run_failsAt (setup : Setup) {leaf : Leaf} {time : Nat} {e : TaskError} :
    (setup.run {}).FailsAt leaf time e ↔ (setup.rest none).FailsAt setup leaf time e := by
  have hmem : ∀ x, x ∈ (setup.run {}).events ↔ x ∈ (setup.rest none).log := fun x => List.mem_reverse
  simp only [Journal.FailsAt, State.FailsAt, hmem]
  rfl

/-- A group of at most `smallSize` chains fails as soon as the first of them does. -/
theorem run_failsFast (setup : Setup) (hd : Distinct setup.graph.chains) {task : Nat} {t : Task}
    (ht : setup.graph.tasks[task]? = some t) (hsmall : t.node.chains.length ≤ smallSize)
    (hfails : ∃ chain ∈ t.node.chains, ∃ leaf ∈ chain.toList, ∃ time e, (setup.run {}).FailsAt leaf time e) :
    ∃ time e, (setup.run {}).FailsFast task t.node.chains time e := by
  have hprompt := setup.rest_prompt hd none
  obtain ⟨⟨task', time, outcome⟩, hreport⟩ := setup.run_report (List.getElem?_eq_some_iff.1 ht).1
  have hmem := List.mem_filter.1 (hreport ▸ List.mem_singleton_self _)
  obtain rfl : task' = task := by simpa using hmem.2
  have hlog : ⟨time, .reported task' outcome⟩ ∈ (setup.rest none).log :=
    List.mem_reverse.1 (Journal.mem_reports hmem.1)
  rcases hprompt.reports time task' outcome hlog t ht hsmall with hfinished | ⟨e, rfl, hearliest, hfirst⟩
  · -- A chain of which a call fails does not finish.
    obtain ⟨chain, hchain, leaf, hleaf, later, e, hfails⟩ := hfails
    obtain ⟨i, strand, hchain, hi, hmem⟩ := Course.exists_strand hprompt.course ht hchain
    have hforeseen := Course.foreseen hprompt.course hd setup.start_chronicled setup.start_foreseen
    have hp := hfinished strand hmem
    have hnone := (hforeseen i chain strand hchain hi).none (by rw [hp]; rfl) (by simp [hp])
      (by simp [Strand.error?, hp])
    exact absurd ⟨hleaf, setup.run_failsAt.1 hfails⟩ (hnone leaf later e)
  · -- What is known of the state at rest is read off its record.
    obtain ⟨front, chain, back, leaf, ending, before, after, hchains, hfails, hfront, hvalue, hsplit, hafter⟩ :=
      hfirst
    have hrecord := setup.endOf_log time
    refine ⟨time, e, hreport, ?_, ?_, ?_, ?_, ?_⟩
    · exact fun chain hchain leaf hleaf later e' hlater =>
        hearliest chain hchain leaf later e' ⟨hleaf, setup.run_failsAt.1 hlater⟩
    · refine ⟨front, chain, back, leaf, hchains, hfails.1, setup.run_failsAt.2 hfails.2,
        fun other hother leaf hleaf e' hfails =>
          hfront other hother leaf e' ⟨hleaf, setup.run_failsAt.1 hfails⟩,
        ending, before.reverse, after.reverse, hvalue, ?_, fun x hx => hafter x (List.mem_reverse.1 hx)⟩
      change (setup.rest none).log.reverse = _
      rw [hsplit]
      simp
    · change (setup.endOf time).log.reverse = (setup.rest none).log.reverse.filter (·.at_ ≤ time)
      rw [hrecord, List.filter_reverse]
    · intro strand hmem
      obtain ⟨hmem, htask⟩ := List.mem_filter.1 hmem
      refine (setup.endOf_quiet time).between.orderly.over_of_closed strand hmem ?_
      rw [show strand.task = task' by simpa using htask]
      have hbefore : ⟨time, .reported task' (.error e)⟩ ∈ (setup.endOf time).log := by
        rw [hrecord]
        exact List.mem_filter.2 ⟨hlog, by simp⟩
      exact State.mem_reported.2 ⟨_, _, hbefore⟩
    · intro strand hmem hwaits
      exact (setup.endOf_quiet time).busy ((setup.course_rest _).balanced setup.start_balanced) hmem hwaits

end Setup
end Run
end Inquiry
