import Mathlib.Data.List.Pairwise
import Mathlib.Data.String.Basic
import Inquiry.Proofs.Run.Finish
import Inquiry.Proofs.Task.Grammar
import Inquiry.Proofs.Task.Mirror

/-!
# Proofs.Run.Completion — outcomes in the order of the graph

Tasks are reported in the order in which they are decided, and the outcomes are sorted by kinds and indices.
A compiled configuration lists its tasks in that same order, and so each outcome comes to stand where its task
stands.

* `Task.Before`, `Graph.compile_ordered`: the tasks of a compiled configuration are in order.
* `TaskOutcome.inOrder`: the outcomes of tasks in the order of the tasks; `TaskOutcome.sorted_eq`: sorting brings
  them there from any order.
* `outcomes_follow_graph`: each outcome stands where its task stands, and none is missing or there twice.
* `Setup.complete_outcomes`: the same of one run; `Setup.complete_summary`: its summary counts the outcomes.
-/

namespace Inquiry

open Json (Value)

/-! ## The order of tasks -/

/-- One task comes before another by the words for their kinds, and by their indices where these are the
same. -/
def Task.Before (a b : Task) : Prop := a.kind.key < b.kind.key ∨ a.kind = b.kind ∧ a.index < b.index

namespace Config

theorem compileEntries_ordered {kind : Kind} {index first : Nat} {vs : List Value} {tasks : List Task}
    (h : compileEntries kind index first vs = .ok tasks) :
    tasks.Pairwise Task.Before ∧ ∀ t ∈ tasks, t.kind = kind ∧ index ≤ t.index := by
  induction vs generalizing index first tasks with
  | nil =>
    cases h
    exact ⟨.nil, by simp⟩
  | cons v vs ih =>
    obtain ⟨node, others, -, hothers, rfl⟩ := compileEntries_cons_eq_ok.1 h
    obtain ⟨hordered, hlater⟩ := ih hothers
    refine ⟨List.pairwise_cons.2 ⟨fun t ht => .inr ⟨(hlater t ht).1.symm, (hlater t ht).2⟩, hordered⟩,
      List.forall_mem_cons.2 ⟨⟨rfl, Nat.le_refl _⟩, fun t ht => ?_⟩⟩
    exact ⟨(hlater t ht).1, Nat.le_of_succ_le (hlater t ht).2⟩

theorem compileTasks_ordered {first : Nat} {entries : Keyed Value} {tasks : List Task}
    (hasc : entries.Ascending) (h : compileTasks first entries = .ok tasks) :
    tasks.Pairwise Task.Before ∧ ∀ t ∈ tasks, t.kind.key ∈ entries.map Prod.fst := by
  induction entries generalizing first tasks with
  | nil =>
    cases h
    exact ⟨.nil, by simp⟩
  | cons entry entries ih =>
    obtain ⟨kind, own, others, hkind, -, hown, hothers, rfl⟩ := compileTasks_cons_eq_ok.1 h
    have hkey : entry.1 = kind.key := Kind.ofKey?_eq_some.1 hkind
    obtain ⟨hfirst, hrest⟩ := List.pairwise_cons.1 hasc
    obtain ⟨hordered, hlater⟩ := ih hrest hothers
    obtain ⟨hown, hsame⟩ := compileEntries_ordered hown
    have hkeys : ∀ t ∈ own, t.kind.key = entry.1 := fun t ht => by rw [hkey, (hsame t ht).1]
    refine ⟨List.pairwise_append.2 ⟨hown, hordered, fun a ha b hb => .inl ?_⟩, fun t ht => ?_⟩
    · rw [hkeys a ha]
      exact hfirst _ (hlater b hb)
    · rw [List.map_cons, List.mem_cons]
      exact (List.mem_append.1 ht).imp (hkeys t) (hlater t)

end Config

theorem Graph.compile_ordered {config : Value} {graph : Graph} (h : Graph.compile config = .ok graph) :
    graph.tasks.Pairwise Task.Before := by
  obtain ⟨entries, hentries, -, htasks, -⟩ := Graph.compile_eq_ok.1 h
  obtain rfl := Mirror.entries_eq_membersOf hentries htasks
  exact (Config.compileTasks_ordered (Mirror.ascending_membersOf config) htasks).1

/-! ## The order of outcomes -/

namespace Run
namespace TaskOutcome

/-- The outcome of a task. -/
def of (t : Task) (outcome : Outcome) : TaskOutcome := ⟨t.kind, t.index, t.position, outcome⟩

theorem precedes_trans (a b c : TaskOutcome) (hab : precedes a b = true) (hbc : precedes b c = true) :
    precedes a c = true := by
  simp only [precedes, Bool.or_eq_true, decide_eq_true_eq, Bool.and_eq_true, beq_iff_eq] at *
  rcases hab with hab | ⟨hab, hindex⟩
  · rcases hbc with hbc | ⟨hbc, -⟩
    · exact .inl (String.lt_trans hab hbc)
    · exact .inl (hbc ▸ hab)
  · rcases hbc with hbc | ⟨hbc, hindex'⟩
    · exact .inl (hab ▸ hbc)
    · exact .inr ⟨hab.trans hbc, Nat.le_trans hindex hindex'⟩

theorem precedes_total (a b : TaskOutcome) : (precedes a b || precedes b a) = true := by
  simp only [precedes, Bool.or_eq_true, decide_eq_true_eq, Bool.and_eq_true, beq_iff_eq]
  rcases lt_trichotomy a.kind.key b.kind.key with hlt | heq | hlt
  · exact .inl (.inl hlt)
  · exact (Nat.le_total a.index b.index).imp (fun hle => .inr ⟨heq, hle⟩) fun hle => .inr ⟨heq.symm, hle⟩
  · exact .inr (.inl hlt)

theorem precedes_of_before {a b : Task} (h : a.Before b) (x y : Outcome) :
    precedes (of a x) (of b y) = true ∧ precedes (of b y) (of a x) = false := by
  rcases h with hlt | ⟨heq, hlt⟩
  · simp [precedes, of, hlt, hlt.not_gt, hlt.ne']
  · simp [precedes, of, heq, hlt, Nat.le_of_lt hlt]

/-- The outcomes of tasks, given their reports in the same order. -/
def inOrder (tasks : List Task) (reports : List Report) : List TaskOutcome :=
  List.zipWith (fun t r => of t r.outcome) tasks reports

/-- Where every task has one report and the reports are in the order of the tasks, so are their outcomes. -/
theorem filterMap_ofReport? {graph : Graph} {reports : List Report}
    (h : reports.map Report.task = List.range graph.tasks.length) :
    reports.filterMap (ofReport? graph) = inOrder graph.tasks reports := by
  -- By induction on the tasks that are left, `k` of which have been passed.
  have hfrom : ∀ (tasks : List Task) (reports : List Report) (k : Nat), (∀ i, graph.tasks[k + i]? = tasks[i]?) →
      reports.map Report.task = List.range' k tasks.length →
      reports.filterMap (ofReport? graph) = inOrder tasks reports := by
    intro tasks
    induction tasks with
    | nil =>
      intro reports k _ hreports
      rw [List.map_eq_nil_iff.1 hreports]
      rfl
    | cons t tasks ih =>
      intro reports k htasks hreports
      obtain ⟨report, rest, rfl, htask, hrest⟩ := List.map_eq_cons_iff.1 hreports
      have hown : ofReport? graph report = some (of t report.outcome) := by
        have ht : graph.tasks[k]? = some t := htasks 0
        rw [ofReport?, htask, ht]
        rfl
      have hlater : ∀ i, graph.tasks[k + 1 + i]? = tasks[i]? := fun i => by
        rw [Nat.add_assoc, Nat.add_comm 1, htasks]
        rfl
      rw [List.filterMap_cons_some hown, ih rest (k + 1) hlater hrest]
      rfl
  exact hfrom graph.tasks reports 0 (fun i => by rw [Nat.zero_add]) (h.trans List.range_eq_range')

theorem length_of_tasks {reports : List Report} {n : Nat} (h : reports.map Report.task = List.range n) :
    reports.length = n := by
  rw [← List.length_map Report.task, h, List.length_range]

theorem map_outcome_inOrder {tasks : List Task} {reports : List Report} (h : reports.length = tasks.length) :
    (inOrder tasks reports).map TaskOutcome.outcome = reports.map Report.outcome := by
  refine List.ext_getElem (by simp [inOrder, h]) fun i hi hi' => ?_
  simp only [inOrder, List.getElem_map, List.getElem_zipWith]
  rfl

theorem inOrder_pairwise {tasks : List Task} (h : tasks.Pairwise Task.Before) (reports : List Report) :
    (inOrder tasks reports).Pairwise fun a b => precedes a b = true ∧ precedes b a = false := by
  refine List.pairwise_iff_getElem.2 fun i j hi hj hij => ?_
  simp only [inOrder, List.getElem_zipWith]
  exact precedes_of_before (List.pairwise_iff_getElem.1 h i j _ _ hij) _ _

/-- Outcomes that are sorted are those of the tasks, whatever the order of the reports. -/
theorem sorted_perm {graph : Graph} {reports sorted : List Report} (hperm : sorted.Perm reports)
    (htasks : sorted.map Report.task = List.range graph.tasks.length) :
    ((reports.filterMap (ofReport? graph)).mergeSort precedes).Perm (inOrder graph.tasks sorted) := by
  rw [← filterMap_ofReport? htasks]
  exact (List.mergeSort_perm _ _).trans (hperm.symm.filterMap _)

/-- Where the tasks are in order, sorting brings every outcome to the place of its task. -/
theorem sorted_eq {graph : Graph} (hordered : graph.tasks.Pairwise Task.Before) {reports sorted : List Report}
    (hperm : sorted.Perm reports) (htasks : sorted.map Report.task = List.range graph.tasks.length) :
    (reports.filterMap (ofReport? graph)).mergeSort precedes = inOrder graph.tasks sorted := by
  have hstrict := inOrder_pairwise hordered sorted
  have houtcomes := sorted_perm hperm htasks
  refine houtcomes.eq_of_pairwise ?_ (List.pairwise_mergeSort precedes_trans precedes_total _)
    (hstrict.imp And.left)
  -- No two outcomes come before each other, unless they are the same one.
  let Apart (a b : TaskOutcome) : Prop := ¬(precedes a b = true ∧ precedes b a = true)
  have hsymm : Std.Symm Apart := ⟨fun a b hab hba => hab hba.symm⟩
  have hapart := hstrict.imp (S := Apart) fun h hboth => by simp [h.2] at hboth
  intro a b ha hb hab hba
  by_contra hne
  exact hapart.forall (houtcomes.subset ha) hb hne ⟨hab, hba⟩

/-- Outcomes are those of the tasks of a graph, each at the place of its task: as many as there are tasks, none
of them twice, and each tells what a report tells of the task at its place. -/
structure Follow (graph : Graph) (reports : List Report) (outcomes : List TaskOutcome) : Prop where
  length : outcomes.length = graph.tasks.length
  outcome : ∀ i t, graph.tasks[i]? = some t →
    ∃ report ∈ reports, report.task = i ∧ outcomes[i]? = some ⟨t.kind, t.index, t.position, report.outcome⟩
  once : (outcomes.map fun o => (o.kind, o.index)).Nodup

theorem length_inOrder {tasks : List Task} {reports : List Report} (h : reports.length = tasks.length) :
    (inOrder tasks reports).length = tasks.length := by
  simp [inOrder, h]

/-- Tasks in order differ in their kinds or in their indices. -/
theorem nodup_inOrder {tasks : List Task} (h : tasks.Pairwise Task.Before) (reports : List Report) :
    ((inOrder tasks reports).map fun o => (o.kind, o.index)).Nodup := by
  refine List.pairwise_map.2 ((inOrder_pairwise h reports).imp fun {a b} hab heq => ?_)
  obtain ⟨hkind, hindex⟩ := Prod.mk.inj heq
  -- Two outcomes of one kind and one index would come before each other.
  have hback : precedes b a = true := by simp [precedes, hkind, hindex]
  rw [hab.2] at hback
  cases hback

theorem follow_inOrder {graph : Graph} (hordered : graph.tasks.Pairwise Task.Before)
    {reports sorted : List Report} (hperm : sorted.Perm reports)
    (htasks : sorted.map Report.task = List.range graph.tasks.length) :
    Follow graph reports (inOrder graph.tasks sorted) := by
  have hlength := length_of_tasks htasks
  refine ⟨length_inOrder hlength, fun i t ht => ?_, nodup_inOrder hordered sorted⟩
  obtain ⟨hi, rfl⟩ := List.getElem?_eq_some_iff.1 ht
  have hi' : i < sorted.length := hlength ▸ hi
  have htask : sorted[i].task = i := by
    have hplace : (sorted.map Report.task)[i]? = some i := by rw [htasks, List.getElem?_range hi]
    rw [List.getElem?_map, List.getElem?_eq_getElem hi'] at hplace
    exact Option.some.inj hplace
  refine ⟨sorted[i], hperm.subset (List.getElem_mem hi'), htask, ?_⟩
  rw [inOrder, List.getElem?_zipWith, ht, List.getElem?_eq_getElem hi']
  rfl

end TaskOutcome

/-- Reports of all tasks can be put in the order of the tasks. -/
theorem Report.exists_inOrder {reports : List Report} {n : Nat}
    (h : (reports.map Report.task).Perm (List.range n)) :
    ∃ sorted : List Report, sorted.Perm reports ∧ sorted.map Report.task = List.range n := by
  let byTask (a b : Report) : Bool := a.task ≤ b.task
  have hperm : (reports.mergeSort byTask).Perm reports := List.mergeSort_perm _ _
  have htrans : ∀ a b c, byTask a b = true → byTask b c = true → byTask a c = true := by
    intro a b c hab hbc
    simp only [byTask, decide_eq_true_eq] at *
    omega
  have htotal : ∀ a b, (byTask a b || byTask b a) = true := by
    intro a b
    simp only [byTask, Bool.or_eq_true, decide_eq_true_eq]
    omega
  have hsorted := List.pairwise_mergeSort htrans htotal reports
  exact ⟨_, hperm, ((hperm.map Report.task).trans h).eq_of_pairwise (fun a b _ _ => Nat.le_antisymm)
    (List.pairwise_map.2 (hsorted.imp of_decide_eq_true)) (List.pairwise_lt_range.imp Nat.le_of_lt)⟩

/-- Whatever the order in which the tasks of a compiled configuration are decided, each outcome comes to stand
where its task stands; so it is in every run. -/
theorem outcomes_follow_graph {config : Value} {graph : Graph} (h : Graph.compile config = .ok graph) :
    (∀ reports : List Report, (reports.map Report.task).Perm (List.range graph.length) →
      TaskOutcome.Follow graph reports
        ((reports.filterMap (TaskOutcome.ofReport? graph)).mergeSort TaskOutcome.precedes)) ∧
    ∀ (backend : Backend) (limits : Limits), let setup : Setup := ⟨graph, backend, limits⟩
      TaskOutcome.Follow graph (setup.run {}).reports setup.complete.outcomes := by
  have hordered := Graph.compile_ordered h
  have hany : ∀ reports : List Report, (reports.map Report.task).Perm (List.range graph.length) →
      TaskOutcome.Follow graph reports
        ((reports.filterMap (TaskOutcome.ofReport? graph)).mergeSort TaskOutcome.precedes) := by
    intro reports hreports
    obtain ⟨sorted, hperm, htasks⟩ := Report.exists_inOrder hreports
    rw [TaskOutcome.sorted_eq hordered hperm htasks]
    exact TaskOutcome.follow_inOrder hordered hperm htasks
  refine ⟨hany, ?_⟩
  intro backend limits setup
  -- A run reports every task once, in some order.
  exact hany _ (setup.run_reports_perm none)

/-- The outcomes of three tasks that are reported the last one first. -/
theorem outcomes_follow_graph_mixed : ∃ lineage,
    Graph.compile Mirror.mixed = .ok ⟨Mirror.countTasks ++ Mirror.seriesTasks, lineage⟩ ∧
      let graph : Graph := ⟨Mirror.countTasks ++ Mirror.seriesTasks, lineage⟩
      let reports : List Report := [⟨2, 5, .error .cancelled⟩, ⟨1, 7, .error .cancelled⟩, ⟨0, 9, .error .cancelled⟩]
      (reports.map Report.task).Perm (List.range graph.length) ∧ TaskOutcome.Follow graph reports
        ((reports.filterMap (TaskOutcome.ofReport? graph)).mergeSort TaskOutcome.precedes) := by
  obtain ⟨lineage, hgraph⟩ := Mirror.compile_mixed
  have hreports : [2, 1, 0].Perm (List.range 3) := by decide
  exact ⟨lineage, hgraph, hreports, (outcomes_follow_graph hgraph).1 _ hreports⟩

namespace Setup

/-- Every task has one report, and the outcomes are those that the reports tell. -/
theorem complete_outcomes_perm (setup : Setup) : ∃ reports : List Report,
    reports.Perm (setup.run {}).reports ∧ reports.map Report.task = List.range setup.graph.tasks.length ∧
      setup.complete.outcomes.Perm (TaskOutcome.inOrder setup.graph.tasks reports) := by
  obtain ⟨reports, hperm, htasks⟩ := Report.exists_inOrder (setup.run_reports_perm none)
  exact ⟨reports, hperm, htasks, TaskOutcome.sorted_perm hperm htasks⟩

/-- The outcomes of a run stand where their tasks stand. -/
theorem complete_outcomes (setup : Setup) (hordered : setup.graph.tasks.Pairwise Task.Before) :
    ∃ reports : List Report, reports.Perm (setup.run {}).reports ∧
      reports.map Report.task = List.range setup.graph.tasks.length ∧
      setup.complete.outcomes = TaskOutcome.inOrder setup.graph.tasks reports := by
  obtain ⟨reports, hperm, htasks⟩ := Report.exists_inOrder (setup.run_reports_perm none)
  exact ⟨reports, hperm, htasks, TaskOutcome.sorted_eq hordered hperm htasks⟩

/-- The summary of a run counts its outcomes. -/
theorem complete_summary (setup : Setup) :
    setup.complete.summary.succeeded = setup.complete.outcomes.countP (·.outcome.isOk) ∧
      setup.complete.summary.failed = setup.complete.outcomes.countP (!·.outcome.isOk) := by
  obtain ⟨reports, hperm, htasks, houtcomes⟩ := setup.complete_outcomes_perm
  have hcount : ∀ p : Outcome → Bool, (setup.run {}).reports.countP (fun r => p r.outcome) =
      setup.complete.outcomes.countP fun o => p o.outcome := by
    intro p
    rw [houtcomes.countP_eq, ← hperm.countP_eq]
    have hsame := congrArg (List.countP p) (TaskOutcome.map_outcome_inOrder (TaskOutcome.length_of_tasks htasks))
    rw [List.countP_map, List.countP_map] at hsame
    exact hsame.symm
  exact ⟨hcount Except.isOk, hcount fun outcome => !outcome.isOk⟩

end Setup
end Run
end Inquiry
