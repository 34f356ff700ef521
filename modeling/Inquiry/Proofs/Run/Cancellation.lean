import Mathlib.Data.List.Nodup
import Inquiry.Proofs.Run.Moment

/-!
# Proofs.Run.Cancellation — a run that is cancelled

A run that is cancelled goes as the whole run goes up to then. At that time every task that is left is
reported as cancelled, and nothing else happens.

* `State.cancelling_cancel`: what is recorded when a run is cancelled.
* `Setup.run_splits`: the cancelled run and the whole run have the same events before the time.
* `Setup.cancel_cuts`: what that means for calls and reports.
-/

namespace Inquiry
namespace Run

/-! ## Readings of a record -/

/-- The report that an event is. -/
def Stamped.report? (stamped : Stamped) : Option Report :=
  match stamped.event with
  | .reported task outcome => some ⟨task, stamped.at_, outcome⟩
  | _ => none

theorem Stamped.report?_at {e : Stamped} {report : Report} (h : e.report? = some report) :
    report.at_ = e.at_ := by
  unfold report? at h
  split at h
  · cases h
    rfl
  · cases h

/-- The time of an event if it is the answer for a leaf. -/
def Stamped.answerTime? (leaf : Leaf) (stamped : Stamped) : Option Nat :=
  match stamped.event with
  | .answered answered _ => if answered.id = leaf.id then some stamped.at_ else none
  | _ => none

/-- The call that starts with an event, given when calls are answered. -/
def Stamped.call? (answeredAt? : Leaf → Option Nat) (stamped : Stamped) : Option Call :=
  match stamped.event with
  | .began leaf context => some ⟨leaf, context, stamped.at_, answeredAt? leaf⟩
  | _ => none

namespace Journal

theorem reports_eq (j : Journal) : j.reports = j.events.filterMap Stamped.report? := rfl

theorem answeredAt?_eq (j : Journal) (leaf : Leaf) :
    j.answeredAt? leaf = j.events.findSome? (Stamped.answerTime? leaf) := rfl

theorem calls_eq (j : Journal) : j.calls = j.events.filterMap (Stamped.call? j.answeredAt?) := rfl

end Journal

/-! ## What is recorded when a run is cancelled -/

/-- The report of a task that is cancelled. -/
def Report.cancelled (time task : Nat) : Report := ⟨task, time, .error .cancelled⟩

/-- Whether an event may be recorded when a run is cancelled: no call starts or is answered with it. -/
def Event.OfCancel (event : Event) : Prop :=
  event.isAside = true ∨ ∃ task, event = .reported task (.error .cancelled)

/-- One state's record goes on from another's as it does when tasks are cancelled. -/
structure State.Cancelling (s t : State) (tasks : List Nat) : Prop where
  now : t.now = s.now
  events : s.Extends Event.OfCancel t
  reports : t.log.reverse.filterMap Stamped.report? =
    s.log.reverse.filterMap Stamped.report? ++ tasks.map (Report.cancelled s.now)

namespace State

theorem cancelling_report (s : State) (task : Nat) :
    s.Cancelling (s.report task (.error .cancelled)) [task] := by
  have hgiveUp := s.extends_giveUp task
  refine ⟨s.report_now task _, ?_, ?_⟩
  · exact (hgiveUp.mono fun _ => .inl).trans (s.giveUp_now task) (extends_record _ (.inr ⟨task, rfl⟩))
  · obtain ⟨events, haside, hlog⟩ := hgiveUp
    have hnone : (events.map (Stamped.mk s.now)).filterMap Stamped.report? = [] := by
      rw [List.filterMap_map, List.filterMap_eq_nil_iff]
      intro event hevent
      have hisAside := haside event hevent
      cases event <;> first | rfl | cases hisAside
    have hreport : (s.report task (.error .cancelled)).log =
        ⟨s.now, .reported task (.error .cancelled)⟩ :: (s.giveUp task).log := by
      rw [← s.giveUp_now task]
      rfl
    rw [hreport, hlog, List.reverse_cons, List.reverse_append, List.filterMap_append,
      List.filterMap_append, List.filterMap_reverse (l := events.map _), hnone]
    simp [Stamped.report?, Report.cancelled]

theorem cancelling_foldl (tasks : List Nat) (s : State) :
    s.Cancelling (tasks.foldl (fun s task => s.report task (.error .cancelled)) s) tasks := by
  induction tasks generalizing s with
  | nil => exact ⟨rfl, .refl s, by simp⟩
  | cons task tasks ih =>
    have hreport := s.cancelling_report task
    have hrest := ih (s.report task (.error .cancelled))
    refine ⟨hrest.now.trans hreport.now, hreport.events.trans hreport.now hrest.events, ?_⟩
    rw [List.foldl_cons, hrest.reports, hreport.reports, hreport.now, List.append_assoc]
    rfl

theorem cancelling_cancel (s : State) (setup : Setup) (time : Nat) :
    State.Cancelling { s with now := time } (s.cancel setup time) (s.unreported setup) :=
  cancelling_foldl _ _

end State

theorem Event.OfCancel.stamped {event : Event} (h : event.OfCancel) (time : Nat) :
    (∀ leaf, Stamped.answerTime? leaf ⟨time, event⟩ = none) ∧
      ∀ answeredAt?, Stamped.call? answeredAt? ⟨time, event⟩ = none := by
  rcases h with haside | ⟨task, rfl⟩
  · cases event <;> first | exact ⟨fun _ => rfl, fun _ => rfl⟩ | cases haside
  · exact ⟨fun _ => rfl, fun _ => rfl⟩

/-! ## The cancelled run and the whole run -/

/-- Two runs, one of which is cancelled at a time: the events `before` that time are those of both, `after`
are those of the whole run from then on, and `cut` are those of cancelling it. -/
structure Setup.Splits (setup : Setup) (time : Nat) (before after cut : List Stamped) : Prop where
  cancelled : (setup.run { cancelAt := some time }).events = before ++ cut
  whole : (setup.run {}).events = before ++ after
  before_lt : ∀ e ∈ before, e.at_ < time
  le_after : ∀ e ∈ after, time ≤ e.at_
  cut_at : ∀ e ∈ cut, e.at_ = time ∧ e.event.OfCancel
  cut_reports : cut.filterMap Stamped.report? =
    ((List.range setup.graph.tasks.length).filter fun task =>
      !((before.filterMap Stamped.report?).map Report.task).contains task).map (Report.cancelled time)

theorem Setup.run_splits (setup : Setup) (time : Nat) : ∃ before after cut, setup.Splits time before after cut := by
  let s := setup.rest (some time)
  obtain ⟨later, hlater, hle⟩ := setup.rest_log_append time
  have hcancel := s.cancelling_cancel setup time
  obtain ⟨events, hevents, hlog⟩ := hcancel.events
  refine ⟨s.log.reverse, later.reverse, (events.map (Stamped.mk time)).reverse, ?_⟩
  have hcut : (s.cancel setup time).log.reverse = s.log.reverse ++ (events.map (Stamped.mk time)).reverse := by
    rw [hlog, List.reverse_append]
  exact {
    cancelled := hcut
    whole := by
      rw [← List.reverse_append, ← hlater]
      rfl
    before_lt := fun e he => setup.rest_log_lt (List.mem_reverse.1 he)
    le_after := fun e he => hle e (List.mem_reverse.1 he)
    cut_at := by
      intro e he
      obtain ⟨event, hevent, rfl⟩ := List.mem_map.1 (List.mem_reverse.1 he)
      exact ⟨rfl, hevents event hevent⟩
    cut_reports := by
      have hreported : ((s.log.reverse.filterMap Stamped.report?).map Report.task) = s.reported.reverse :=
        Journal.reports_task setup s
      have hreports := hcancel.reports
      rw [hcut, List.filterMap_append] at hreports
      rw [List.append_cancel_left hreports, hreported, State.unreported]
      simp }

/-! ## Calls and reports -/

/-- Two records with the same events before a time. From then on the one goes on, and in the other one no call
starts and none is answered. -/
structure Journal.Forks (whole short : Journal) (time : Nat) (before after cut : List Stamped) : Prop where
  whole : whole.events = before ++ after
  short : short.events = before ++ cut
  before_lt : ∀ e ∈ before, e.at_ < time
  le_after : ∀ e ∈ after, time ≤ e.at_
  idle : ∀ e ∈ cut, (∀ leaf, Stamped.answerTime? leaf e = none) ∧ ∀ answeredAt?, e.call? answeredAt? = none

namespace Journal.Forks

variable {whole short : Journal} {time : Nat} {before after cut : List Stamped}

theorem answeredAt? (h : whole.Forks short time before after cut) (leaf : Leaf) :
    short.answeredAt? leaf = (whole.answeredAt? leaf).filter (· < time) := by
  have hcut : cut.findSome? (Stamped.answerTime? leaf) = none :=
    List.findSome?_eq_none_iff.2 fun e he => (h.idle e he).1 leaf
  have htime : ∀ {events : List Stamped} {answered : Nat},
      events.findSome? (Stamped.answerTime? leaf) = some answered → ∃ e ∈ events, e.at_ = answered := by
    intro events answered hfound
    obtain ⟨e, he, hanswered⟩ := List.exists_of_findSome?_eq_some hfound
    refine ⟨e, he, ?_⟩
    unfold Stamped.answerTime? at hanswered
    split at hanswered
    · split at hanswered
      · exact Option.some.inj hanswered
      · cases hanswered
    · cases hanswered
  rw [Journal.answeredAt?_eq, Journal.answeredAt?_eq, h.short, h.whole, List.findSome?_append,
    List.findSome?_append, hcut, Option.or_none]
  -- An answer before the time is found first in either record; a later one is found in the whole one only.
  cases hbefore : before.findSome? (Stamped.answerTime? leaf) with
  | some answered =>
    obtain ⟨e, he, rfl⟩ := htime hbefore
    simp [Option.filter, h.before_lt e he]
  | none =>
    cases hafter : after.findSome? (Stamped.answerTime? leaf) with
    | none => rfl
    | some answered =>
      obtain ⟨e, he, rfl⟩ := htime hafter
      simp [Option.filter, h.le_after e he]

theorem call?_start {answeredAt? : Leaf → Option Nat} {e : Stamped} {call : Call}
    (h : e.call? answeredAt? = some call) : call.start = e.at_ := by
  unfold Stamped.call? at h
  split at h
  · cases h
    rfl
  · cases h

theorem calls (h : whole.Forks short time before after cut) :
    short.calls = (whole.calls.filter (·.start < time)).map fun call =>
      { call with answered := call.answered.filter (· < time) } := by
  have hcut : cut.filterMap (Stamped.call? short.answeredAt?) = [] :=
    List.filterMap_eq_nil_iff.2 fun e he => (h.idle e he).2 _
  have hbefore : (before.filterMap (Stamped.call? whole.answeredAt?)).filter (·.start < time) =
      before.filterMap (Stamped.call? whole.answeredAt?) := by
    refine List.filter_eq_self.2 fun call hcall => ?_
    obtain ⟨e, he, hstart⟩ := List.mem_filterMap.1 hcall
    rw [call?_start hstart]
    simpa using h.before_lt e he
  have hafter : (after.filterMap (Stamped.call? whole.answeredAt?)).filter (·.start < time) = [] := by
    refine List.filter_eq_nil_iff.2 fun call hcall => ?_
    obtain ⟨e, he, hstart⟩ := List.mem_filterMap.1 hcall
    rw [call?_start hstart]
    simpa using h.le_after e he
  rw [Journal.calls_eq, Journal.calls_eq, h.short, h.whole, List.filterMap_append, hcut,
    List.filterMap_append, List.filter_append, hbefore, hafter, List.append_nil, List.append_nil,
    List.map_filterMap]
  refine List.filterMap_congr fun e _ => ?_
  unfold Stamped.call?
  split
  · simp [h.answeredAt?]
  · rfl

end Journal.Forks

namespace Setup.Splits

variable {setup : Setup} {time : Nat} {before after cut : List Stamped}

theorem forks (h : setup.Splits time before after cut) :
    (setup.run {}).Forks (setup.run { cancelAt := some time }) time before after cut where
  whole := h.whole
  short := h.cancelled
  before_lt := h.before_lt
  le_after := h.le_after
  idle e he := (h.cut_at e he).2.stamped e.at_

theorem calls (h : setup.Splits time before after cut) :
    (setup.run { cancelAt := some time }).calls =
      ((setup.run {}).calls.filter (·.start < time)).map fun call =>
        { call with answered := call.answered.filter (· < time) } := h.forks.calls

theorem reports (h : setup.Splits time before after cut) :
    (setup.run { cancelAt := some time }).reports = before.filterMap Stamped.report? ++
      ((List.range setup.graph.tasks.length).filter fun task =>
        !((before.filterMap Stamped.report?).map Report.task).contains task).map (Report.cancelled time) := by
  rw [Journal.reports_eq, h.cancelled, List.filterMap_append, h.cut_reports]

theorem run_reports_nodup (setup : Setup) : ((setup.run {}).reports.map Report.task).Nodup :=
  (setup.run_reports_perm none).nodup_iff.2 List.nodup_range

end Setup.Splits

end Run
end Inquiry
