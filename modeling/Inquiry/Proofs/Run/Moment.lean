import Inquiry.Proofs.Run.Finish

/-!
# Proofs.Run.Moment — a run up to a time

A run that is stopped goes as the whole run goes up to then. When all that happens at a time has happened,
no permit is left with a chain that makes no call, and if anybody waits, every permit is in use.

* `Setup.rest_log`: the record of a run up to a time is the part of the whole record before it.
* `Setup.endOf`: the state of a run when all that happens up to a time has happened.
* `State.Quiet.busy`: where a leaf waits, as many calls are in flight as are allowed.
-/

namespace Inquiry
namespace Run

/-! ## The record up to a time -/

theorem Course.moments {setup : Setup} (stop : Option Nat) (n : Nat) {s : State} (hs : s.Timely) :
    Course setup s (s.moments setup stop n) := by
  induction n generalizing s with
  | zero => exact .refl
  | succ n ih =>
    simp only [State.moments]
    split
    · exact .refl
    · rename_i time hnext
      split
      · exact .refl
      · have hstep : Course setup s ((s.elapse time).rest setup) :=
          (Course.elapse hs hnext).trans (Course.rest _)
        exact hstep.trans (ih (Course.timely hstep hs))

/-- What the whole run records beyond a run that is stopped happens at that time or later. -/
theorem State.moments_log (setup : Setup) (stop n : Nat) {s : State} (hs : s.Timely) :
    ∃ later, (s.moments setup none n).log = later ++ (s.moments setup (some stop) n).log ∧
      ∀ e ∈ later, stop ≤ e.at_ := by
  induction n generalizing s with
  | zero => exact ⟨[], rfl, by simp⟩
  | succ n ih =>
    simp only [moments]
    cases hnext : nextEnd? s.strands with
    | none => exact ⟨[], rfl, by simp⟩
    | some time =>
      have hrest : Course setup (s.elapse time) ((s.elapse time).rest setup) := Course.rest _
      have htimely : ((s.elapse time).rest setup).Timely :=
        Course.timely ((Course.elapse hs hnext).trans hrest) hs
      by_cases hstop : stop ≤ time
      · obtain ⟨later, hlog, hlater⟩ := Course.log (hrest.trans (Course.moments none n htimely))
        have halike := s.elapse_alike time
        refine ⟨later, ?_, fun e he => ?_⟩
        · simpa [hstop, halike.log] using hlog
        · have hnow := (hlater e he).1
          rw [halike.now] at hnow
          exact Nat.le_trans hstop hnow
      · obtain ⟨later, hlog, hlater⟩ := ih htimely
        exact ⟨later, by simpa [hstop] using hlog, hlater⟩

namespace Setup

theorem rest_now_lt (setup : Setup) {stop : Nat} (hstop : 0 < stop) : (setup.rest (some stop)).now < stop := by
  let P (s : State) : Prop := s.Between setup (fun _ => False) ∧ s.now < stop
  have hboth : P (setup.rest (some stop)) := by
    refine setup.rest_induction (fun hzero => ?_) ?_ ?_
    · exact absurd (Option.some.inj hzero) (Nat.pos_iff_ne_zero.1 hstop)
    · refine ⟨setup.start_between.rest, ?_⟩
      rw [setup.start_between.rest_now]
      exact hstop
    · rintro s time ⟨hs, -⟩ _ hbefore
      refine ⟨(hs.elapse time).rest, ?_⟩
      rw [(hs.elapse time).rest_now, (s.elapse_alike time).now]
      simpa using hbefore
  exact hboth.2

/-- What a run that is stopped records happens before that. -/
theorem rest_log_lt (setup : Setup) {stop : Nat} {e : Stamped} (he : e ∈ (setup.rest (some stop)).log) :
    e.at_ < stop := by
  rcases Nat.eq_zero_or_pos stop with rfl | hstop
  · cases he
  · obtain ⟨new, hstart, hnew⟩ := (setup.course_rest (some stop)).log
    rw [show setup.start.log = [] from rfl, List.append_nil] at hstart
    rw [hstart] at he
    exact Nat.lt_of_le_of_lt (hnew e he).2 (setup.rest_now_lt hstop)

/-- The whole run goes on from where a run is stopped. -/
theorem rest_log_append (setup : Setup) (stop : Nat) :
    ∃ later, (setup.rest none).log = later ++ (setup.rest (some stop)).log ∧ ∀ e ∈ later, stop ≤ e.at_ := by
  rcases Nat.eq_zero_or_pos stop with rfl | hstop
  · exact ⟨_, (List.append_nil _).symm, fun e _ => Nat.zero_le _⟩
  · obtain ⟨later, hlog, hlater⟩ := State.moments_log setup stop setup.start.work
      (Course.timely (Course.rest setup.start) setup.start_timely)
    exact ⟨later, by simpa [Setup.rest, Nat.pos_iff_ne_zero.1 hstop] using hlog, hlater⟩

/-- The record of a run up to a time is the part of the whole record before it. -/
theorem rest_log (setup : Setup) (stop : Nat) :
    (setup.rest (some stop)).log = (setup.rest none).log.filter (·.at_ < stop) := by
  obtain ⟨later, hwhole, hlater⟩ := setup.rest_log_append stop
  have hnone : later.filter (·.at_ < stop) = [] := by
    refine List.filter_eq_nil_iff.2 fun e he => ?_
    simpa using hlater e he
  rw [hwhole, List.filter_append, hnone, List.nil_append, List.filter_eq_self.2]
  intro e he
  simpa using setup.rest_log_lt he

/-- The state of a run when all that happens up to a time has happened. -/
def endOf (setup : Setup) (time : Nat) : State := setup.rest (some (time + 1))

theorem endOf_log (setup : Setup) (time : Nat) :
    (setup.endOf time).log = (setup.rest none).log.filter (·.at_ ≤ time) := by
  rw [endOf, setup.rest_log (time + 1)]
  exact List.filter_congr fun e _ => decide_eq_decide.2 Nat.lt_succ_iff

theorem endOf_now_le (setup : Setup) (time : Nat) : (setup.endOf time).now ≤ time :=
  Nat.lt_succ_iff.1 (setup.rest_now_lt (Nat.succ_pos time))

theorem endOf_quiet (setup : Setup) (time : Nat) : (setup.endOf time).Quiet setup :=
  setup.rest_quiet (by simp)

end Setup

/-! ## Permits at rest -/

/-- Where a leaf waits for a permit, every permit is used by a call in flight. -/
theorem State.Quiet.busy {setup : Setup} {s : State} (hs : s.Quiet setup)
    (hbalanced : s.Balanced setup.limits.permits 0) {strand : Strand} (hmem : strand ∈ s.strands)
    (hwaits : strand.phase.ticket? ≠ none) : s.inFlight = setup.limits.permits := by
  have hsame : s.held = s.inFlight := by
    refine List.countP_congr fun other hother => ?_
    have hsettled := hs.settled other hother
    cases hp : other.phase <;> simp_all [Phase.Settled, Phase.isOver, Phase.hasPermit, Phase.isCalling]
  have hfree := hbalanced.busy strand hmem hwaits
  have hsum := hbalanced.sum
  omega

end Run
end Inquiry
