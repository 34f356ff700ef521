import Mathlib.Algebra.GroupWithZero.Nat
import Mathlib.Algebra.Order.BigOperators.Group.List
import Mathlib.Algebra.Order.Group.Nat
import Inquiry.Proofs.Run.Causality
import Inquiry.Proofs.Run.Conservation
import Inquiry.Proofs.Run.Sequential
import Inquiry.Run.Script

/-!
# Proofs.Run.Duration — how long a run takes

Before every task is reported some call is in flight, so that no time passes in which nothing is done. What
is left to be done can therefore be told in time: each moment takes away from it what has passed, and
nothing adds to it.

* `Phase.remaining`, `State.remaining`: the time that what is left can still take.
* `Strand.Pass.remaining_le`, `Course.remaining_le`: it never grows.
* `State.remaining_elapse`: time that passes is taken away from it.
* `Setup.EndsWithin`: a run ends in time, and is never idle before its end.
* `Setup.endsWithin`: every run ends within the work that it dispatches.
-/

namespace Inquiry
namespace Run

variable {setup : Setup} {cost : Leaf → Nat}

/-! ## What is left of a chain -/

/-- The time that what is left of a chain can still take, if no call takes longer than its cost. -/
def Phase.remaining (cost : Leaf → Nat) (now : Nat) : Phase → Nat
  | ready link rest => cost link + (rest.map cost).sum
  | waiting _ link rest => cost link + (rest.map cost).sum
  | granted link rest => cost link + (rest.map cost).sum
  | holding link rest => cost link + (rest.map cost).sum
  | calling _ _ rest ends _ => ends - now + (rest.map cost).sum
  | _ => 0

theorem Phase.remaining_mono {now later : Nat} (hnow : now ≤ later) (phase : Phase) :
    phase.remaining cost later ≤ phase.remaining cost now := by
  cases phase with
  | calling ticket link rest ends ending => exact Nat.add_le_add_right (Nat.sub_le_sub_left hnow ends) _
  | _ => exact Nat.le_refl _

/-- A time that no call of a setup exceeds. -/
def Setup.Costs (setup : Setup) (cost : Leaf → Nat) : Prop :=
  ∀ leaf context, (setup.backend leaf context).duration setup.limits ≤ cost leaf

namespace Strand

variable {now : Nat} {a b : Strand}

theorem conclude_remaining (setup : Setup) (cost : Leaf → Nat) (now : Nat) (strand : Strand) (link : Leaf)
    (rest : List Leaf) (ending : Ending) :
    (strand.conclude setup link rest ending).phase.remaining cost now ≤ (rest.map cost).sum := by
  rcases ending with answer | _
  · rcases answer with r | e | message
    · cases rest with
      | nil => exact Nat.le_refl _
      | cons next rest => exact Nat.le_of_eq List.sum_cons.symm
    · exact Nat.zero_le _
    · exact Nat.zero_le _
  · exact Nat.zero_le _

/-- No pass adds to what is left. A call that starts takes no longer than its cost. -/
theorem Pass.remaining_le (hcost : setup.Costs cost) (h : Pass setup now a b) :
    b.phase.remaining cost now ≤ a.phase.remaining cost now := by
  cases h with
  | queue phase => rw [phase]; exact Nat.le_refl _
  | take phase => rw [phase]; exact Nat.le_refl _
  | grant phase => rw [phase]; exact Nat.le_refl _
  | see phase => rw [phase]; exact Nat.le_refl _
  | launch phase =>
    rw [phase]
    simp only [Phase.remaining, Nat.add_sub_cancel_left]
    exact Nat.add_le_add_right (hcost _ _) _
  | conclude phase =>
    rw [phase]
    exact Nat.le_trans (conclude_remaining setup cost now a _ _ _) (Nat.le_add_left _ _)
  | drop => exact Nat.zero_le _

theorem Passes.remaining_le (hcost : setup.Costs cost) (h : Passes setup now a b) :
    b.phase.remaining cost now ≤ a.phase.remaining cost now := by
  induction h with
  | refl => exact Nat.le_refl _
  | tail _ hpass ih => exact Nat.le_trans (hpass.remaining_le hcost) ih

end Strand

/-! ## What is left of a run -/

/-- The time that what is left of a run can still take, one call after the other. -/
def State.remaining (cost : Leaf → Nat) (s : State) : Nat :=
  (s.strands.map fun strand => strand.phase.remaining cost s.now).sum

theorem StrandsPass.remaining_le {now : Nat} {l l' : List Strand} (hcost : setup.Costs cost)
    (h : StrandsPass setup now l l') : (l'.map fun strand => strand.phase.remaining cost now).sum ≤
      (l.map fun strand => strand.phase.remaining cost now).sum := by
  induction h with
  | nil => exact Nat.le_refl _
  | cons hab _ ih =>
    rw [List.map_cons, List.map_cons, List.sum_cons, List.sum_cons]
    exact Nat.add_le_add (hab.remaining_le hcost) ih

/-- Nothing that happens adds to what is left. -/
theorem Course.remaining_le {s t : State} (hcost : setup.Costs cost) (h : Course setup s t) :
    t.remaining cost ≤ s.remaining cost := by
  induction h with
  | refl => exact Nat.le_refl _
  | @tail u t _ hmove ih =>
    have hlater : t.remaining cost ≤ (t.strands.map fun strand => strand.phase.remaining cost u.now).sum :=
      List.sum_le_sum fun strand _ => strand.phase.remaining_mono hmove.now_le
    exact Nat.le_trans hlater (Nat.le_trans (hmove.passes.remaining_le hcost) ih)

/-- The time that passes until a call ends is taken away from what is left. -/
theorem State.remaining_elapse {s : State} {time : Nat} (hs : s.Timely)
    (hnext : nextEnd? s.strands = some time) :
    time + (s.elapse time).remaining cost ≤ s.now + s.remaining cost := by
  obtain ⟨⟨strand, hmem, ticket, link, rest, ending, hp⟩, -⟩ := nextEnd?_eq_some hnext
  have hnow : s.now ≤ time := hs strand hmem _ _ _ _ _ hp
  obtain ⟨front, back, hsplit⟩ := List.append_of_mem hmem
  -- The call that ends then loses all that passes; nothing is added to what is left of the other strands.
  have hmono : ∀ strands : List Strand, (strands.map fun strand => strand.phase.remaining cost time).sum ≤
      (strands.map fun strand => strand.phase.remaining cost s.now).sum := fun strands =>
    List.sum_le_sum fun strand _ => strand.phase.remaining_mono hnow
  have hfront := hmono front
  have hback := hmono back
  have helapse := s.elapse_alike time
  have hcall : ∀ now, strand.phase.remaining cost now = time - now + (rest.map cost).sum := by
    intro now
    rw [hp]
    rfl
  rw [remaining, remaining, helapse.strands, helapse.now, hsplit]
  simp only [List.map_append, List.map_cons, List.sum_append, List.sum_cons, hcall]
  omega

namespace Setup

/-- The time that the calls of all leaves take one after the other. -/
def total (setup : Setup) (cost : Leaf → Nat) : Nat :=
  ((setup.graph.chains.flatMap Chain.toList).map cost).sum

theorem start_remaining (setup : Setup) (cost : Leaf → Nat) : setup.start.remaining cost = setup.total cost := by
  have hstart : ∀ {chains : List Chain} {strands : List Strand},
      List.Forall₂ (fun chain strand => ∃ task, strand = Strand.start task chain) chains strands →
      (strands.map fun strand => strand.phase.remaining cost 0).sum =
        ((chains.flatMap Chain.toList).map cost).sum := by
    intro chains strands h
    induction h with
    | nil => rfl
    | @cons chain strand _ _ hstrand _ ih =>
      obtain ⟨task, rfl⟩ := hstrand
      have hchain : (chain.toList.map cost).sum = (Strand.start task chain).phase.remaining cost 0 := by
        rw [chain.toList_eq_cons, List.map_cons, List.sum_cons]
        rfl
      rw [List.map_cons, List.sum_cons, ih, List.flatMap_cons, List.map_append, List.sum_append, hchain]
  exact hstart (strandsFrom_start 0 setup.graph.tasks)

/-! ## The end of a run -/

/-- What has passed of a run between turns, and what is left of it, fit into the total. -/
structure OnTime (setup : Setup) (cost : Leaf → Nat) (s : State) : Prop where
  between : s.Between setup fun _ => False
  timely : s.Timely
  within : s.now + s.remaining cost ≤ setup.total cost

theorem start_onTime (setup : Setup) (cost : Leaf → Nat) : setup.OnTime cost setup.start where
  between := setup.start_between
  timely := setup.start_timely
  within := by
    rw [start_remaining, show setup.start.now = 0 from rfl, Nat.zero_add]

/-- Turns take no time. -/
theorem OnTime.rest {setup : Setup} {cost : Leaf → Nat} {s : State} (hcost : setup.Costs cost)
    (hs : setup.OnTime cost s) : setup.OnTime cost (s.rest setup) where
  between := hs.between.rest
  timely := Course.timely (Course.rest s) hs.timely
  within := by
    rw [hs.between.rest_now]
    exact Nat.le_trans (Nat.add_le_add_left (Course.remaining_le hcost (Course.rest s)) _) hs.within

theorem OnTime.elapse {setup : Setup} {cost : Leaf → Nat} {s : State} {time : Nat} (hs : setup.OnTime cost s)
    (hnext : nextEnd? s.strands = some time) : setup.OnTime cost (s.elapse time) where
  between := hs.between.elapse time
  timely := (Course.elapse hs.timely hnext : Course setup s _).timely hs.timely
  within := by
    rw [(s.elapse_alike time).now]
    exact Nat.le_trans (State.remaining_elapse hs.timely hnext) hs.within

theorem rest_onTime (setup : Setup) {cost : Leaf → Nat} (hcost : setup.Costs cost) (stop : Option Nat) :
    setup.OnTime cost (setup.rest stop) := by
  refine Setup.rest_induction (fun _ => setup.start_onTime cost) ((setup.start_onTime cost).rest hcost) ?_
  exact fun s time hs hnext _ => (hs.elapse hnext).rest hcost

/-- Before a task is reported some call is in flight. -/
theorem endOf_inFlight (setup : Setup) {time task : Nat} (hlt : task < setup.graph.tasks.length)
    (hopen : task ∉ (setup.endOf time).reported) : 0 < (setup.endOf time).inFlight := by
  have hcourse : Course setup setup.start (setup.endOf time) := setup.course_rest _
  have hquiet := setup.endOf_quiet time
  -- At rest with no call in flight, no strand waits for a permit either, and every task is decided.
  refine Nat.pos_of_ne_zero fun hzero => hopen ?_
  have hcalling : ∀ strand ∈ (setup.endOf time).strands, strand.phase.isCalling = false := fun strand hmem => by
    simpa using List.countP_eq_zero.1 hzero strand hmem
  exact hquiet.reported (hcourse.dropped_reported setup.start_dropped_reported)
    (hquiet.over (hcourse.balanced setup.start_balanced) hcalling) task hlt

/-- What is reported later is not reported yet. -/
theorem endOf_open (setup : Setup) {report : Report} (hreport : report ∈ (setup.run {}).reports) {time : Nat}
    (htime : time < report.at_) : report.task ∉ (setup.endOf time).reported := by
  intro hreported
  obtain ⟨earlier, outcome, he⟩ := State.mem_reported.1 hreported
  rw [setup.endOf_log, List.mem_filter] at he
  have hother : ⟨report.task, earlier, outcome⟩ ∈ (setup.run {}).reports :=
    List.mem_filterMap.2 ⟨_, List.mem_reverse.2 he.1, rfl⟩
  have hsame := List.inj_on_of_nodup_map (Splits.run_reports_nodup setup) hother hreport rfl
  have hearlier : earlier ≤ time := by simpa using he.2
  rw [← hsame] at htime
  exact Nat.lt_irrefl _ (Nat.lt_of_le_of_lt hearlier htime)

/-- A run ends in time, and some call is in flight until then. -/
structure EndsWithin (setup : Setup) (bound : Nat) : Prop where
  /-- Every task is reported, and only once. -/
  reported : ((setup.run {}).reports.map Report.task).Perm (List.range setup.graph.tasks.length)
  inTime : ∀ report ∈ (setup.run {}).reports, report.at_ ≤ bound
  /-- The run comes to its end because nothing is left to do. -/
  ended : (setup.finalState {}).agenda = [] ∧
    ∀ strand ∈ (setup.finalState {}).strands, strand.phase.isOver = true
  /-- At every time before a report some call is in flight. -/
  busy : ∀ report ∈ (setup.run {}).reports, ∀ time < report.at_, 0 < (setup.endOf time).inFlight
  /-- The states at the times of the run are reached by its moves, and have its record up to then. -/
  atTime : ∀ time, Course setup setup.start (setup.endOf time) ∧
    (setup.endOf time).log.reverse = (setup.run {}).events.filter (·.at_ ≤ time)

/-- Where no call takes longer than its cost, the costs of all leaves together bound the run. -/
theorem endsWithin (setup : Setup) {cost : Leaf → Nat} (hcost : setup.Costs cost) :
    setup.EndsWithin (setup.total cost) where
  reported := setup.run_reports_perm none
  inTime report hreport := by
    obtain ⟨new, hlog, hat⟩ := (setup.course_rest none).log
    have he : ⟨report.at_, .reported report.task report.outcome⟩ ∈ new ++ setup.start.log :=
      hlog ▸ List.mem_reverse.1 (Journal.mem_reports hreport)
    rw [show setup.start.log = [] from rfl, List.append_nil] at he
    have hnow := (hat _ he).2
    have hwithin := (setup.rest_onTime hcost none).within
    simp only at hnow
    omega
  ended := ⟨(setup.rest_quiet (by simp)).agenda, setup.finalState_over none⟩
  busy report hreport time htime := by
    refine setup.endOf_inFlight ?_ (setup.endOf_open hreport htime)
    exact List.mem_range.1 ((setup.run_reports_perm none).subset (List.mem_map_of_mem hreport))
  atTime time := ⟨setup.course_rest _, by
    rw [setup.endOf_log, ← List.filter_reverse]
    rfl⟩

end Setup

/-! ## Scripts -/

/-- The time that the call of a leaf takes by a script. -/
def Script.delay (script : Script) (leaf : Leaf) : Nat := min (script.cueFor leaf).delay longestDelay

/-- Whatever is scripted, however few permits there are, and whether chains wait, groups fail, calls crash or
come to their deadlines: a run reports every task, and ends within the time that the calls of all leaves take
one after the other, no longer than its deadline each. Until then some call is in flight. -/
theorem scripted_run_ends (graph : Graph) (script : Script) (limits : Limits) :
    (Setup.mk graph (.ofScript script) limits).EndsWithin
      (((graph.chains.flatMap Chain.toList).map fun leaf => min (script.delay leaf) limits.leafTimeout).sum) :=
  Setup.endsWithin _ fun _ _ => Nat.le_refl _

end Run
end Inquiry
