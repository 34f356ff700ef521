import Inquiry.Proofs.Run.FailFast
import Inquiry.Proofs.Run.Heads
import Inquiry.Proofs.Task.Entry
import Inquiry.Run.Script

/-!
# Proofs.Run.LargeGroup — groups of more chains than are looked at all together

A failure decides a large group only when every chain in front of it is finished, unless a chain has
crashed. So such a group is not reported before the first call of its first chain can be over, however
early another of its calls fails.

* `verdict?_large`: what decides a large group.
* `Setup.headTime_le_of_report`: when it is reported.
* `late` is a run of such a group, of any size, that is reported long after one of its calls has failed.
-/

namespace Inquiry
namespace Run

/-! ## Decisions -/

theorem leadingFailure?_split {strands : List Strand} {e : TaskError} (h : leadingFailure? strands = some e) :
    ∃ front strand back, strands = front ++ strand :: back ∧ strand.phase = .failed e ∧
      ∀ other ∈ front, other.phase = .finished := by
  induction strands with
  | nil => cases h
  | cons first strands ih =>
    rw [leadingFailure?] at h
    split at h
    · rename_i hfinished
      obtain ⟨front, strand, back, rfl, hp, hfront⟩ := ih h
      refine ⟨first :: front, strand, back, rfl, hp, fun other hother => ?_⟩
      rcases List.mem_cons.1 hother with rfl | hother
      · exact Strand.isFinished_iff.1 hfinished
      · exact hfront other hother
    · exact ⟨[], first, strands, rfl, Strand.failure?_eq_some.1 h, by simp⟩

/-- A large group without crashes is decided by a failure behind finished strands only, or because all of
them are finished. -/
theorem verdict?_large {strands : List Strand} {verdict : Verdict} (hlarge : smallSize < strands.length)
    (hcrash : ∀ strand ∈ strands, ∀ message, strand.phase ≠ .crashed message)
    (h : verdict? strands = some verdict) :
    (∃ front strand back e, strands = front ++ strand :: back ∧ strand.phase = .failed e ∧
      verdict = .error e ∧ ∀ other ∈ front, other.phase = .finished) ∨
    ((∀ strand ∈ strands, strand.phase = .finished) ∧ verdict = .ok (strands.map Strand.chainOutput)) := by
  have hnone : strands.findSome? Strand.crash? = none := by
    refine List.findSome?_eq_none_iff.2 fun strand hmem => ?_
    cases hc : strand.crash? with
    | none => rfl
    | some message => exact absurd (Strand.crash?_eq_some.1 hc) (hcrash strand hmem message)
  rw [verdict?, hnone, decidingFailure?, if_neg (Nat.not_le_of_lt hlarge)] at h
  cases hleading : leadingFailure? strands with
  | some e =>
    simp only [hleading] at h
    cases h
    obtain ⟨front, strand, back, hsplit, hp, hfront⟩ := leadingFailure?_split hleading
    exact .inl ⟨front, strand, back, e, hsplit, hp, rfl, hfront⟩
  | none =>
    simp only [hleading] at h
    split at h
    · rename_i hall
      cases h
      exact .inr ⟨fun strand hmem => Strand.isFinished_iff.1 (List.all_eq_true.1 hall strand hmem), rfl⟩
    · cases h

/-- The first strand of a large group without crashes has come to an end when the group is decided. -/
theorem verdict?_large_first {first : Strand} {rest : List Strand} {verdict : Verdict}
    (hlarge : smallSize < (first :: rest).length)
    (hcrash : ∀ strand ∈ first :: rest, ∀ message, strand.phase ≠ .crashed message)
    (h : verdict? (first :: rest) = some verdict) :
    first.phase = .finished ∨ ∃ e, first.phase = .failed e := by
  rcases verdict?_large hlarge hcrash h with ⟨front, strand, back, e, hsplit, hp, -, hfront⟩ | ⟨hall, -⟩
  · cases front with
    | nil =>
      cases hsplit
      exact .inr ⟨e, hp⟩
    | cons other front =>
      cases hsplit
      exact .inl (hfront first List.mem_cons_self)
  · exact .inl (hall first List.mem_cons_self)

/-! ## Reports -/

namespace Setup

variable {setup : Setup} {s : State} {task : Nat} {t : Task}

/-- A strand has crashed only if its chain crashes by itself. -/
theorem OnTheirWay.not_crashed {chains : List Chain} {strands : List Strand}
    (h : setup.OnTheirWay chains strands)
    (hsafe : ∀ chain ∈ chains, ∀ message,
      setup.backend.chainValue setup.limits.leafTimeout chain ≠ .error (.aborted message)) :
    ∀ strand ∈ strands, ∀ message, strand.phase ≠ .crashed message := by
  intro strand hmem message hp
  obtain ⟨chain, hchain, hvalue⟩ := forall₂_mem h hmem
  have hsame := hvalue.resolve_left (by simp [hp])
  rw [show strand.value setup = some (.error (.aborted ("task worker panicked: " ++ message))) by
    simp [Strand.value, hp]] at hsame
  exact hsafe chain hchain _ (Option.some.inj hsame).symm

/-- A large group none of whose chains crashes is not reported before the first call of its first chain can
be over. -/
theorem headTime_le_of_report (hcourse : Course setup setup.start s) (ht : setup.graph.tasks[task]? = some t)
    {chain : Chain} {rest : List Chain} (hchains : t.node.chains = chain :: rest)
    (hlarge : smallSize < t.node.chains.length)
    (hsafe : ∀ chain ∈ t.node.chains, ∀ message,
      setup.backend.chainValue setup.limits.leafTimeout chain ≠ .error (.aborted message))
    {time : Nat} {outcome : Outcome} (hmem : ⟨time, .reported task outcome⟩ ∈ s.log) :
    setup.headTime chain ≤ time := by
  obtain ⟨u, hu, rfl, hallows⟩ := hcourse.report_allowed hmem
  obtain ⟨verdict, hverdict, -⟩ := hallows task outcome rfl
  have honTheirWay := hu.onTheirWay ht
  have hheading := hu.strandsOf_forall₂ hu.heading ht
  have hcrash := honTheirWay.not_crashed hsafe
  rw [honTheirWay.length_eq] at hlarge
  rw [hchains] at hheading
  generalize u.strandsOf task = strands at hheading hcrash hlarge hverdict
  cases hheading with
  | cons hfirst =>
    rcases verdict?_large_first hlarge hcrash hverdict with hp | ⟨e, hp⟩
    · exact hfirst.of_isOver (by rw [hp]; rfl) (by simp [hp])
    · exact hfirst.of_isOver (by rw [hp]; rfl) (by simp [hp])

end Setup

/-! ## A large group that fails late -/

open Config (flat flatChains flatLeaf flatTask)

/-- The names in a group of which the first analysis is slow, and the second fails meanwhile. -/
def lateNames (others : Nat) : List (Option String) :=
  some "slow" :: some "down" :: List.replicate others none

/-- How the calls of such a group go. The analyses without name are answered at once. -/
def lateScript : Script :=
  [("down", ⟨10, .failure (.unavailable "down")⟩), ("slow", ⟨100, .records []⟩)]

/-- A run of such a group, with a permit for each chain. -/
def late (others : Nat) (lineage : Lineage) : Setup :=
  { graph := ⟨[flatTask (lateNames others)], lineage⟩
    backend := .ofScript lateScript
    limits := { inFlight := others + 2 } }

theorem mem_lateNames {others : Nat} {name : Option String} (h : name ∈ lateNames others) :
    name = some "slow" ∨ name = some "down" ∨ name = none := by
  rcases List.mem_cons.1 h with rfl | h
  · exact .inl rfl
  · rcases List.mem_cons.1 h with rfl | h
    · exact .inr (.inl rfl)
    · exact .inr (.inr (List.eq_of_mem_replicate h))

theorem lateNames_named (others : Nat) : Config.Named (lateNames others) := by
  intro name hname
  rcases mem_lateNames hname with rfl | rfl | rfl
  · decide
  · decide
  · rfl

theorem lateNames_length (others : Nat) : (flatChains 0 (lateNames others)).length = others + 2 := by
  rw [Config.flatChains_length]
  simp [lateNames]

namespace Setup

variable {others : Nat} {lineage : Lineage}

/-- The chain of the analysis that fails. -/
theorem late_down : (late others lineage).headTime (.last (flatLeaf 1 (some "down"))) = 10 := rfl

theorem late_call : (late others lineage).backend.call (late others lineage).limits.leafTimeout
    (flatLeaf 1 (some "down")) none = .error (.backend "timeSeries[0][1]" (.unavailable "down")) := rfl

theorem late_safe : ∀ chain ∈ flatChains 0 (lateNames others), ∀ message,
    (late others lineage).backend.chainValue (late others lineage).limits.leafTimeout chain ≠
      .error (.aborted message) := by
  intro chain hchain message hcrash
  obtain ⟨slot, name, hname, rfl⟩ := Config.mem_flatChains hchain
  rcases mem_lateNames hname with rfl | rfl | rfl
  · cases hcrash
  · cases hcrash
  · cases hcrash

/-- The group is not reported before its slow analysis is answered. -/
theorem late_report {s : State} (hcourse : Course (late others lineage) (late others lineage).start s)
    (hlarge : smallSize < others + 2) {time : Nat} {outcome : Outcome}
    (hmem : ⟨time, .reported 0 outcome⟩ ∈ s.log) : 100 ≤ time := by
  have ht : (late others lineage).graph.tasks[0]? = some (flatTask (lateNames others)) := rfl
  exact headTime_le_of_report hcourse ht rfl (by rwa [← lateNames_length others] at hlarge) late_safe hmem

/-- The call of its second chain fails long before. -/
theorem late_failsAt (hd : Distinct (late others lineage).graph.chains) (hlarge : smallSize < others + 2) :
    ((late others lineage).run {}).FailsAt (flatLeaf 1 (some "down")) 10
      (.backend "timeSeries[0][1]" (.unavailable "down")) := by
  let setup := late others lineage
  have ht : setup.graph.tasks[0]? = some (flatTask (lateNames others)) := rfl
  have hchain : Chain.last (flatLeaf 1 (some "down")) ∈ (flatTask (lateNames others)).node.chains :=
    List.mem_cons_of_mem _ List.mem_cons_self
  have hpermits : setup.graph.chains.length ≤ setup.limits.permits := by
    have hlength : setup.graph.chains.length = others + 2 := by
      rw [← lateNames_length others]
      simp [setup, late, Graph.chains, flatTask, Node.chains]
    rw [hlength]
    exact Nat.le_max_left _ _
  have hopen : 0 ∉ (setup.endOf 0).reported := by
    intro hreported
    obtain ⟨time, outcome, hmem⟩ := State.mem_reported.1 hreported
    have hlate := late_report (setup.course_rest _) hlarge hmem
    rw [setup.endOf_log] at hmem
    have hearly : time ≤ 0 := by simpa using (List.mem_filter.1 hmem).2
    exact Nat.not_succ_le_zero 99 (Nat.le_trans hlate hearly)
  have htime : 0 < setup.headTime (.last (flatLeaf 1 (some "down"))) := by
    rw [late_down]
    exact Nat.succ_pos 9
  exact setup.run_failsAt.2 (setup.head_fails hd hpermits ht hchain htime hopen late_call).2

/-- So the group does not fail as soon as a call of it does. -/
theorem late_not_failsFast (hd : Distinct (late others lineage).graph.chains) (hlarge : smallSize < others + 2)
    {time : Nat} {e : TaskError} :
    ¬ ((late others lineage).run {}).FailsFast 0 (flatChains 0 (lateNames others)) time e := by
  intro h
  have hearly : time ≤ 10 := h.earliest (.last (flatLeaf 1 (some "down")))
    (List.mem_cons_of_mem _ List.mem_cons_self) _ List.mem_cons_self _ _ (late_failsAt hd hlarge)
  have hmem : ⟨0, time, .error e⟩ ∈ ((late others lineage).run {}).reports :=
    (List.mem_filter.1 (h.report ▸ List.mem_singleton_self _)).1
  have hlate : 100 ≤ time :=
    late_report ((late others lineage).course_rest none) hlarge (List.mem_reverse.1 (Journal.mem_reports hmem))
  exact absurd (Nat.le_trans hlate hearly) (by decide)

/-- The groups of a size fail as soon as one of their calls does, in every compiled configuration, with every
backend and all limits, exactly if they have no more than `smallSize` chains. -/
theorem groups_fail_fast_iff (n : Nat) :
    (∀ (config : Json.Value) (graph : Graph), Graph.compile config = .ok graph →
      ∀ (backend : Backend) (limits : Limits) (task : Nat) (t : Task),
        graph.tasks[task]? = some t → t.node.chains.length = n →
        (∃ chain ∈ t.node.chains, ∃ leaf ∈ chain.toList, ∃ time e,
          (Setup.run ⟨graph, backend, limits⟩ {}).FailsAt leaf time e) →
        ∃ time e, (Setup.run ⟨graph, backend, limits⟩ {}).FailsFast task t.node.chains time e) ↔
      n ≤ smallSize := by
  constructor
  · intro h
    by_contra hlarge
    -- A group of the size whose second chain fails while its first is in flight.
    obtain ⟨others, rfl⟩ : ∃ others, n = others + 2 :=
      ⟨n - 2, (Nat.sub_add_cancel (Nat.le_trans (by decide) (Nat.le_of_not_le hlarge))).symm⟩
    obtain ⟨lineage, hgraph⟩ := Graph.compile_flat (lateNames_named others)
    have hd : Distinct (late others lineage).graph.chains := .of_compile hgraph
    have hlarge : smallSize < others + 2 := Nat.lt_of_not_le hlarge
    obtain ⟨time, e, hfast⟩ := h _ _ hgraph (.ofScript lateScript) { inFlight := others + 2 } 0
      (flatTask (lateNames others)) rfl (lateNames_length others)
      ⟨_, List.mem_cons_of_mem _ List.mem_cons_self, _, List.mem_cons_self, _, _, late_failsAt hd hlarge⟩
    exact late_not_failsFast hd hlarge hfast
  · rintro hsmall config graph hgraph backend limits task t ht rfl hfails
    exact run_failsFast ⟨graph, backend, limits⟩ (.of_compile hgraph) ht hsmall hfails

/-- Of a group of thirty-one chains the second fails after ten milliseconds, and the group is reported when
the first is answered after a hundred. -/
theorem group_of_thirty_one_fails_late : ∃ lineage,
    Graph.compile (flat (lateNames 29)) = .ok ⟨[flatTask (lateNames 29)], lineage⟩ ∧
    (flatChains 0 (lateNames 29)).length = 31 ∧
    ((late 29 lineage).run {}).FailsAt (flatLeaf 1 (some "down")) 10
      (.backend "timeSeries[0][1]" (.unavailable "down")) ∧
    (∀ report ∈ ((late 29 lineage).run {}).reports, report.task = 0 → 100 ≤ report.at_) ∧
    ∀ time e, ¬ ((late 29 lineage).run {}).FailsFast 0 (flatChains 0 (lateNames 29)) time e := by
  obtain ⟨lineage, hgraph⟩ := Graph.compile_flat (lateNames_named 29)
  have hd : Distinct (late 29 lineage).graph.chains := .of_compile hgraph
  have hlarge : smallSize < 29 + 2 := by decide
  refine ⟨lineage, hgraph, lateNames_length 29, late_failsAt hd hlarge, ?_,
    fun time e => late_not_failsFast hd hlarge⟩
  rintro ⟨task, time, outcome⟩ hreport rfl
  exact late_report ((late 29 lineage).course_rest none) hlarge
    (List.mem_reverse.1 (Journal.mem_reports hreport))

end Setup
end Run
end Inquiry
