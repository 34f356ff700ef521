import Inquiry.Proofs.Run.Quiet

/-!
# Proofs.Run.Finish — every task is reported once

In every moment of a run some work is used up, so that the run ends with no call in flight. Then no permit
is taken, no strand waits for one, and every task is decided.

* `Course.dropped_reported`: a strand is given up only when its task is reported.
* `Setup.rest_reported`: in the end every task is reported.
* `Setup.finalState_reported`: a run that goes to its end, or is cancelled, reports every task exactly once.
-/

namespace Inquiry
namespace Run

/-! ## Strands that are given up -/

namespace State

/-- What is true of every strand, whether it waits for a permit or has been given one, stays true when a
permit is given back. -/
theorem release_forall {P : Strand → Prop} {s : State}
    (h : ∀ strand ticket link rest, strand.phase = .waiting ticket link rest → P strand →
      P { strand with phase := .granted link rest })
    (hs : ∀ strand ∈ s.strands, P strand) : ∀ strand ∈ s.release.strands, P strand := by
  rcases s.release_cases with ⟨i, strand, ticket, link, rest, hi, hp, heq⟩ | ⟨_, heq⟩
  · rw [heq, ((s.hand i strand link rest).wake_alike i).strands]
    intro other hother
    rcases List.mem_or_eq_of_mem_set hother with hother | rfl
    · exact hs other hother
    · exact h strand ticket link rest hp (hs strand (List.mem_of_getElem? hi))
  · rw [heq]
    exact hs

/-- Strands are given up when their task is reported. -/
def DroppedReported (s : State) : Prop :=
  ∀ strand ∈ s.strands, strand.phase = .dropped → strand.task ∈ s.reported

variable {s t : State}

theorem DroppedReported.set {i : Nat} {strand : Strand} (hs : s.DroppedReported)
    (ht : t.strands = s.strands.set i strand) (hkept : strand.phase ≠ .dropped)
    (hreported : t.reported = s.reported) : t.DroppedReported := by
  intro other hother hdropped
  rw [ht] at hother
  rcases List.mem_or_eq_of_mem_set hother with hother | rfl
  · rw [hreported]
    exact hs other hother hdropped
  · exact absurd hdropped hkept

theorem DroppedReported.release (hs : s.DroppedReported) : s.release.DroppedReported := by
  unfold DroppedReported
  rw [s.release_stirs.reported]
  refine release_forall ?_ hs
  intro strand ticket link rest _ _ hdropped
  cases hdropped

theorem DroppedReported.report {task : Nat} (outcome : Outcome) (hs : s.DroppedReported) :
    (s.report task outcome).DroppedReported := by
  unfold DroppedReported
  rw [report_reported]
  change ∀ strand ∈ (s.giveUp task).strands, _
  rw [giveUp_eq]
  refine releaseAll_induction (P := fun t => ∀ strand ∈ t.strands, strand.phase = .dropped →
    strand.task ∈ task :: s.reported) ?_ _ ?_
  · intro t ht
    refine release_forall ?_ ht
    intro strand ticket link rest _ _ hdropped
    cases hdropped
  · intro strand hmem hdropped
    obtain ⟨i, hi⟩ := List.mem_iff_getElem?.1 hmem
    rcases withdraw_strand hi with ⟨htask, -⟩ | ⟨-, hbefore⟩
    · exact htask ▸ List.mem_cons_self
    · exact List.mem_cons_of_mem _ (hs strand (List.mem_of_getElem? hbefore) hdropped)

end State

theorem Move.dropped_reported {setup : Setup} {s t : State} (h : Move setup s t) (hs : s.DroppedReported) :
    t.DroppedReported := by
  cases h with
  | queue => exact hs.set rfl (by simp) (State.reported_record _ _ (by simp))
  | take => exact hs.set rfl (by simp) rfl
  | see => exact hs.set rfl (by simp) rfl
  | launch => exact hs.set rfl (by simp) (State.reported_record _ _ (by simp))
  | @conclude i strand ticket link rest ends ending =>
    refine State.DroppedReported.release (hs.set rfl ?_ ?_)
    · rcases ending with answer | _
      · rcases answer with r | e | message
        · cases rest <;> simp [Strand.conclude]
        · simp [Strand.conclude]
        · simp [Strand.conclude]
      · simp [Strand.conclude]
    · refine State.reported_record s _ ?_
      cases ending <;> simp [Ending.event]
  | decide => exact hs.report _
  | elapse => exact hs
  | schedule h =>
    intro strand hmem hdropped
    rw [h.strands] at hmem
    rw [State.reported, h.log]
    exact hs strand hmem hdropped

/-- A strand is given up only when its task is reported. -/
theorem Course.dropped_reported {setup : Setup} {s t : State} (h : Course setup s t)
    (hs : s.DroppedReported) : t.DroppedReported := by
  induction h with
  | refl => exact hs
  | tail _ hmove ih => exact hmove.dropped_reported ih

theorem Setup.start_dropped_reported (setup : Setup) : setup.start.DroppedReported := by
  intro strand hmem hphase
  obtain ⟨link, rest, hp⟩ := setup.start_ready strand hmem
  rw [hp] at hphase
  cases hphase

/-! ## The end -/

namespace State

/-- Nobody waits for a permit when no call is in flight, and so everything is over. -/
theorem Quiet.over {setup : Setup} {s : State} (hs : s.Quiet setup)
    (hbalanced : s.Balanced setup.limits.permits 0)
    (hcalling : ∀ strand ∈ s.strands, strand.phase.isCalling = false) :
    ∀ strand ∈ s.strands, strand.phase.isOver = true := by
  have hheld : s.held = 0 := by
    refine List.countP_eq_zero.2 fun strand hmem => ?_
    have hsettled := hs.settled strand hmem
    have hidle := hcalling strand hmem
    cases hp : strand.phase <;>
      simp_all [Phase.Settled, Phase.isOver, Phase.hasPermit, Phase.isCalling]
  intro strand hmem
  have hsettled := hs.settled strand hmem
  cases hp : strand.phase with
  | waiting ticket link rest =>
    have hfree := hbalanced.busy strand hmem (by simp [hp, Phase.ticket?])
    have hsum := hbalanced.sum
    have hsome : 1 ≤ setup.limits.permits := Nat.le_max_right _ _
    omega
  | calling ticket link rest ends ending =>
    have hidle := hcalling strand hmem
    rw [hp] at hidle
    cases hidle
  | _ => simpa [hp, Phase.Settled] using hsettled

/-- When all strands are over, every task is reported. -/
theorem Quiet.reported {setup : Setup} {s : State} (hs : s.Quiet setup) (hdropped : s.DroppedReported)
    (hover : ∀ strand ∈ s.strands, strand.phase.isOver = true) :
    ∀ task < setup.graph.tasks.length, task ∈ s.reported := by
  intro task hlt
  by_contra hopen
  have hsome : (verdict? (s.strandsOf task)).isSome = true := by
    refine verdict?_isSome_of_isOver ?_ ?_
    · intro strand hmem
      exact hover strand (List.mem_filter.1 hmem).1
    · intro strand hmem hphase
      obtain ⟨hmem, htask⟩ := List.mem_filter.1 hmem
      have heq : strand.task = task := by simpa using htask
      exact hopen (heq ▸ hdropped strand hmem hphase)
  rw [hs.undecided hlt hopen] at hsome
  cases hsome

/-- In every moment some work is used up: that of the call that ends then. -/
theorem Quiet.work_lt {setup : Setup} {s : State} {time : Nat} (hs : s.Quiet setup)
    (hnext : nextEnd? s.strands = some time) : ((s.elapse time).rest setup).work < s.work := by
  have hstrands : (s.elapse time).strands = s.strands := (s.elapse_alike time).strands
  have hwork : (s.elapse time).work = s.work := by rw [work, work, hstrands]
  rcases (Course.rest (s.elapse time) : Course setup _ _).eq_or_work_lt with heq | hlt
  · exfalso
    obtain ⟨⟨strand, hmem, ticket, link, rest, ending, hp⟩, -⟩ := nextEnd?_eq_some hnext
    have hsettled := (hs.elapse time).settled strand (by rw [heq, hstrands]; exact hmem)
    have hnow : ((s.elapse time).rest setup).now = time :=
      (hs.between.elapse time).rest_now.trans (s.elapse_alike time).now
    rw [hp, hnow] at hsettled
    exact Nat.lt_irrefl time hsettled
  · exact hwork ▸ hlt

theorem moments_nextEnd? {setup : Setup} (n : Nat) {s : State} (hs : s.Quiet setup) (hn : s.work ≤ n) :
    nextEnd? (s.moments setup none n).strands = none := by
  induction n generalizing s with
  | zero =>
    simp only [moments]
    cases hnext : nextEnd? s.strands with
    | none => rfl
    | some time =>
      have hlt := hs.work_lt hnext
      omega
  | succ n ih =>
    simp only [moments]
    cases hnext : nextEnd? s.strands with
    | none => exact hnext
    | some time =>
      have hlt := hs.work_lt hnext
      exact ih (hs.elapse time) (by omega)

end State

namespace Setup

/-- A run goes on until no call is in flight. -/
theorem rest_calling (setup : Setup) :
    ∀ strand ∈ (setup.rest none).strands, strand.phase.isCalling = false := by
  have hfirst : (setup.start.rest setup).Quiet setup :=
    State.rest_quiet setup.start_between fun i hi => absurd hi List.not_mem_nil
  exact nextEnd?_eq_none (State.moments_nextEnd? _ hfirst (Course.rest setup.start).work_le)

/-- In the end every task is reported. -/
theorem rest_reported (setup : Setup) :
    ∀ task < setup.graph.tasks.length, task ∈ (setup.rest none).reported := by
  have hquiet : (setup.rest none).Quiet setup := setup.rest_quiet (by simp)
  have hcourse := setup.course_rest none
  exact hquiet.reported (hcourse.dropped_reported setup.start_dropped_reported)
    (hquiet.over (hcourse.balanced setup.start_balanced) setup.rest_calling)

end Setup

/-! ## Reports -/

theorem Journal.reports_task (setup : Setup) (s : State) :
    (Journal.mk setup s.log.reverse).reports.map Report.task = s.reported.reverse := by
  rw [State.reported_eq, Journal.reports, List.map_filterMap, List.filterMap_reverse]
  refine congrArg (fun f => (s.log.filterMap f).reverse) (funext fun stamped => ?_)
  cases stamped.event <;> rfl

theorem State.cancel_reported (s : State) (setup : Setup) (time : Nat) :
    (s.cancel setup time).reported = (s.unreported setup).reverse ++ s.reported := by
  have hfold : ∀ (tasks : List Nat) (u : State),
      (tasks.foldl (fun u task => u.report task (.error .cancelled)) u).reported =
        tasks.reverse ++ u.reported := by
    intro tasks
    induction tasks with
    | nil => exact fun _ => rfl
    | cons task tasks ih =>
      intro u
      rw [List.foldl_cons, ih, State.report_reported]
      simp
  exact hfold _ _

namespace Setup

/-- A run that goes to its end, or is cancelled, reports every task once. -/
theorem finalState_reported (setup : Setup) (cancelAt : Option Nat) :
    ((setup.finalState { cancelAt }).reported).Perm (List.range setup.graph.tasks.length) := by
  have hbetween := fun stop => setup.rest_between stop
  cases cancelAt with
  | none =>
    refine (List.perm_ext_iff_of_nodup (hbetween none).reported_nodup List.nodup_range).2 fun task => ?_
    rw [List.mem_range]
    exact ⟨(hbetween none).reported_lt task, setup.rest_reported task⟩
  | some time =>
    change (((setup.rest (some time)).cancel setup time).reported).Perm _
    rw [State.cancel_reported]
    let s := setup.rest (some time)
    have hnew : ∀ task, task ∈ s.unreported setup ↔ task < setup.graph.tasks.length ∧ task ∉ s.reported := by
      intro task
      simp [State.unreported]
    have hnodup : ((s.unreported setup).reverse ++ s.reported).Nodup := by
      refine List.nodup_append.2 ⟨?_, (hbetween (some time)).reported_nodup, ?_⟩
      · exact (List.reverse_perm _).nodup_iff.2 (List.nodup_range.filter _)
      · rintro task hleft other hreported rfl
        exact ((hnew task).1 (List.mem_reverse.1 hleft)).2 hreported
    refine (List.perm_ext_iff_of_nodup hnodup List.nodup_range).2 fun task => ?_
    rw [List.mem_append, List.mem_reverse, hnew, List.mem_range]
    constructor
    · rintro (⟨hlt, -⟩ | hreported)
      · exact hlt
      · exact (hbetween (some time)).reported_lt task hreported
    · intro hlt
      by_cases hreported : task ∈ s.reported
      · exact .inr hreported
      · exact .inl ⟨hlt, hreported⟩

theorem run_reports_perm (setup : Setup) (cancelAt : Option Nat) :
    ((setup.run { cancelAt }).reports.map Report.task).Perm (List.range setup.graph.tasks.length) := by
  have htasks : (setup.run { cancelAt }).reports.map Report.task =
      (setup.finalState { cancelAt }).reported.reverse := Journal.reports_task setup _
  rw [htasks]
  exact (List.reverse_perm _).trans (setup.finalState_reported cancelAt)

end Setup
end Run
end Inquiry
