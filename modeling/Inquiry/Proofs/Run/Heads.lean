import Inquiry.Proofs.Run.Failure
import Inquiry.Proofs.Run.Moment

/-!
# Proofs.Run.Heads — the first calls of chains

Nothing comes of a chain before its first call can be over. When there is a permit for every chain, the
first calls that take time all start at once.

* `Strand.Heading`: a strand is on its way to the end of the first call of its chain.
* `Course.heading`: every strand is, until that call can be over.
* `Setup.head_in_flight`: with permits for all, a first call that takes time is in flight at time zero.
* `Setup.head_fails`: if it is going to fail, it fails after that time.
-/

namespace Inquiry
namespace Run

/-- The time that the first call of a chain takes. -/
def Setup.headTime (setup : Setup) (chain : Chain) : Nat :=
  (setup.backend chain.head none).duration setup.limits

namespace Strand

/-- Until the first call of its chain can be over, a strand is on its way to the end of that call, unless
it is given up. -/
def Heading (setup : Setup) (chain : Chain) (now : Nat) (strand : Strand) : Prop :=
  setup.headTime chain ≤ now ∨
    match strand.phase with
    | .ready link _ => link = chain.head ∧ strand.outputs = []
    | .waiting _ link _ => link = chain.head ∧ strand.outputs = []
    | .granted link _ => link = chain.head ∧ strand.outputs = []
    | .holding link _ => link = chain.head ∧ strand.outputs = []
    | .calling _ link _ ends ending => link = chain.head ∧ setup.headTime chain ≤ ends ∧
        ends ≤ now + setup.headTime chain ∧ ending = (setup.backend chain.head none).ending setup.limits
    | .dropped => True
    | _ => False

namespace Heading

variable {setup : Setup} {chain : Chain} {now : Nat} {a b : Strand}

theorem start (task : Nat) : (Strand.start task chain).Heading setup chain now := .inr ⟨rfl, rfl⟩

theorem mono {later : Nat} (h : a.Heading setup chain now) (hnow : now ≤ later) :
    a.Heading setup chain later := by
  rcases h with hdue | hphase
  · exact .inl (Nat.le_trans hdue hnow)
  · refine .inr ?_
    cases hp : a.phase <;> simp only [hp] at hphase ⊢
    case calling ticket link rest ends ending =>
      obtain ⟨hlink, hlate, hearly, hending⟩ := hphase
      exact ⟨hlink, hlate, Nat.le_trans hearly (Nat.add_le_add_right hnow _), hending⟩
    all_goals exact hphase

theorem pass (h : a.Heading setup chain now) (hpass : Pass setup now a b) : b.Heading setup chain now := by
  rcases h with hdue | hphase
  · exact .inl hdue
  cases hpass with
  | queue hp => exact .inr (by simpa only [hp] using hphase)
  | take hp => exact .inr (by simpa only [hp] using hphase)
  | grant hp => exact .inr (by simpa only [hp] using hphase)
  | see hp => exact .inr (by simpa only [hp] using hphase)
  | launch hp =>
    -- The head is called without context, so that its call takes the time that it takes by itself.
    simp only [hp] at hphase
    obtain ⟨rfl, houtputs⟩ := hphase
    have hcontext : a.context = none := by rw [context, houtputs]; rfl
    refine .inr ?_
    rw [hcontext]
    exact ⟨rfl, Nat.le_add_left _ _, Nat.le_refl _, rfl⟩
  | conclude hp hended =>
    simp only [hp] at hphase
    exact .inl (Nat.le_trans hphase.2.1 hended)
  | drop => exact .inr trivial

theorem passes (h : a.Heading setup chain now) (hpasses : Passes setup now a b) :
    b.Heading setup chain now := by
  induction hpasses with
  | refl => exact h
  | tail _ hpass ih => exact ih.pass hpass

/-- A strand that is over, and not given up, has its first call behind it. -/
theorem of_isOver (h : a.Heading setup chain now) (hover : a.phase.isOver = true) (hkept : a.phase ≠ .dropped) :
    setup.headTime chain ≤ now := by
  rcases h with hdue | hphase
  · exact hdue
  · cases hp : a.phase <;> simp_all [Phase.isOver]

end Heading
end Strand

/-! ## Courses -/

/-- All strands are on their way to the ends of the first calls of their chains. -/
def State.Heading (setup : Setup) (chains : List Chain) (s : State) : Prop :=
  ∀ (i : Nat) (chain : Chain) (strand : Strand), chains[i]? = some chain → s.strands[i]? = some strand →
    strand.Heading setup chain s.now

theorem Move.heading {setup : Setup} {chains : List Chain} {s t : State} (h : Move setup s t)
    (hs : s.Heading setup chains) : t.Heading setup chains := by
  intro i chain b hchain hb
  obtain ⟨a, ha, hpasses⟩ := forall₂_getElem? h.passes hb
  exact ((hs i chain a hchain ha).passes hpasses).mono h.now_le

theorem Course.heading {setup : Setup} {s : State} (h : Course setup setup.start s) :
    s.Heading setup setup.graph.chains := by
  induction h with
  | refl =>
    intro i chain strand hchain hstrand
    obtain ⟨own, hown, task, rfl⟩ := forall₂_getElem? (strandsFrom_start 0 setup.graph.tasks) hstrand
    rw [show setup.graph.chains[i]? = some own from hown] at hchain
    cases hchain
    exact .start task
  | tail _ hmove ih => exact hmove.heading ih

/-! ## At time zero -/

theorem Course.strands_length {setup : Setup} {s : State} (h : Course setup setup.start s) :
    s.strands.length = setup.graph.chains.length := by
  have hstart : setup.start.strands.length = setup.graph.chains.length :=
    (strandsFrom_start 0 setup.graph.tasks).length_eq.symm
  have hlength : s.strands.length = setup.start.strands.length := by
    simpa using congrArg List.length h.map_task
  exact hlength.trans hstart

/-- With a permit for every chain, nobody waits when a run has come to rest. -/
theorem State.Quiet.not_waiting {setup : Setup} {s : State} (hs : s.Quiet setup)
    (hcourse : Course setup setup.start s) (hpermits : setup.graph.chains.length ≤ setup.limits.permits)
    {strand : Strand} (hmem : strand ∈ s.strands) : strand.phase.ticket? = none := by
  by_contra hwaits
  have hbusy := hs.busy (hcourse.balanced setup.start_balanced) hmem hwaits
  have hfewer : s.inFlight < s.strands.length := by
    refine Nat.lt_of_le_of_ne List.countP_le_length fun hall => ?_
    have hcalling := List.countP_eq_length.1 hall strand hmem
    cases hp : strand.phase <;> simp_all [Phase.ticket?, Phase.isCalling]
  rw [hbusy, hcourse.strands_length] at hfewer
  exact Nat.lt_irrefl _ (Nat.lt_of_lt_of_le hfewer hpermits)

/-- With a permit for every chain, the first calls that take time are in flight at the end of time zero,
but for those of tasks that have been reported. -/
theorem Setup.head_in_flight (setup : Setup) (hpermits : setup.graph.chains.length ≤ setup.limits.permits)
    {i : Nat} {chain : Chain} {strand : Strand} (hchain : setup.graph.chains[i]? = some chain)
    (hstrand : (setup.endOf 0).strands[i]? = some strand) (htime : 0 < setup.headTime chain)
    (hopen : strand.task ∉ (setup.endOf 0).reported) :
    ∃ ticket rest, strand.phase = .calling ticket chain.head rest (setup.headTime chain)
      ((setup.backend chain.head none).ending setup.limits) := by
  have hcourse : Course setup setup.start (setup.endOf 0) := setup.course_rest _
  have hquiet := setup.endOf_quiet 0
  have hmem := List.mem_of_getElem? hstrand
  have hsettled := hquiet.settled strand hmem
  have hheading := hcourse.heading i chain strand hchain hstrand
  have hnow : (setup.endOf 0).now = 0 := Nat.le_zero.1 (setup.endOf_now_le 0)
  rw [hnow] at hheading
  -- No first call that takes time is over yet.
  have hearly : ¬ setup.headTime chain ≤ 0 := Nat.not_le_of_lt htime
  cases hp : strand.phase with
  | calling ticket link rest ends ending =>
    rcases hheading with hdue | hphase
    · exact absurd hdue hearly
    · simp only [hp, Nat.zero_add] at hphase
      obtain ⟨rfl, hlate, hbound, rfl⟩ := hphase
      obtain rfl := Nat.le_antisymm hbound hlate
      exact ⟨ticket, rest, rfl⟩
  | waiting ticket link rest =>
    have hserved := hquiet.not_waiting hcourse hpermits hmem
    simp [hp, Phase.ticket?] at hserved
  | dropped =>
    exact absurd (Course.dropped_reported hcourse setup.start_dropped_reported strand hmem hp) hopen
  | ready link rest => simp [hp, Phase.Settled, Phase.isOver] at hsettled
  | granted link rest => simp [hp, Phase.Settled, Phase.isOver] at hsettled
  | holding link rest => simp [hp, Phase.Settled, Phase.isOver] at hsettled
  | _ => exact absurd (hheading.of_isOver (by rw [hp]; rfl) (by simp [hp])) hearly

/-- With a permit for every chain, a first call that is going to fail does so after its own time, as long as
its task is not reported at time zero. -/
theorem Setup.head_fails (setup : Setup) (hd : Distinct setup.graph.chains)
    (hpermits : setup.graph.chains.length ≤ setup.limits.permits) {task : Nat} {t : Task}
    (ht : setup.graph.tasks[task]? = some t) {chain : Chain} (hchain : chain ∈ t.node.chains)
    (htime : 0 < setup.headTime chain) (hopen : task ∉ (setup.endOf 0).reported) {e : TaskError}
    (hfails : setup.backend.call setup.limits.leafTimeout chain.head none = .error e) :
    (setup.rest none).FailsIn setup chain chain.head (setup.headTime chain) e := by
  have hcourse : Course setup setup.start (setup.endOf 0) := setup.course_rest _
  obtain ⟨i, strand, hchain, hstrand, hmem⟩ := hcourse.exists_strand ht hchain
  have htask : strand.task = task := by simpa using (List.mem_filter.1 hmem).2
  obtain ⟨ticket, rest, hp⟩ := setup.head_in_flight hpermits hchain hstrand htime (htask ▸ hopen)
  have hforeseen := Course.foreseen hcourse hd setup.start_chronicled setup.start_foreseen
  have hvalue := (Behaviour.ending_value setup chain.head none).trans hfails
  obtain ⟨hleaf, start, context, hbegan, hrest⟩ :=
    ((hforeseen i chain strand hchain hstrand).calling hp _ _ e).2 ⟨rfl, rfl, hvalue⟩
  rw [setup.endOf_log] at hbegan
  exact ⟨hleaf, start, context, (List.mem_filter.1 hbegan).1, hrest⟩

end Run
end Inquiry
