import Inquiry.Proofs.Run.Finish
import Inquiry.Proofs.Task.Links

/-!
# Proofs.Run.Sequential — a run comes to what its chains come to one by one

The value of a chain is found by calling its links one after the other, with nothing else going on. No
pass changes what a strand is going to come to, and so a task is reported with the values of its chains,
however many calls are in flight together.

* `Backend.chainValue` is the value of a chain.
* `Strand.value` is what a strand is going to come to; `Strand.Pass.value`: no pass changes it.
* `Setup.Evaluates` are the outcomes that the values of the chains of a task allow.
* `Course.report_allowed`: a task is reported at a time at which its strands allow it.
* `Setup.report_evaluates`: every task is reported with such an outcome.
-/

namespace Inquiry
namespace Run

/-! ## Chains by themselves -/

namespace Backend

/-- What a call comes to by itself, if it may take a certain time. -/
def call (backend : Backend) (timeout : Nat) (leaf : Leaf) (context : Option Result) :
    Except TaskError Result :=
  let b := backend leaf context
  if b.delay ≤ timeout then
    match b.answer with
    | .result r => .ok r
    | .failure e => .error (.backend leaf.position e)
    | .crash message => .error (.aborted ("task worker panicked: " ++ message))
  else .error (.backend leaf.position (.timeout (timeout * 1000)))

/-- The outputs of links that are called one after the other, each in the context of the result in front
of it, up to the first that has none. -/
def evaluate (backend : Backend) (timeout : Nat) (context : Option Result) :
    List Leaf → Except TaskError (List LeafOutput)
  | [] => .ok []
  | leaf :: rest =>
    match backend.call timeout leaf context with
    | .ok r => (evaluate backend timeout (some r) rest).map (LeafOutput.of leaf r :: ·)
    | .error e => .error e

/-- The value of a chain, whose head is called without context. -/
def chainValue (backend : Backend) (timeout : Nat) (chain : Chain) : Except TaskError (List LeafOutput) :=
  backend.evaluate timeout none chain.toList

end Backend

/-- What a call comes to that ends like this. -/
def Ending.value (limits : Limits) (link : Leaf) : Ending → Except TaskError Result
  | .answered (.result r) => .ok r
  | .answered (.failure e) => .error (.backend link.position e)
  | .answered (.crash message) => .error (.aborted ("task worker panicked: " ++ message))
  | .timedOut => .error (.backend link.position (.timeout (limits.leafTimeout * 1000)))

theorem Behaviour.ending_value (setup : Setup) (link : Leaf) (context : Option Result) :
    ((setup.backend link context).ending setup.limits).value setup.limits link =
      setup.backend.call setup.limits.leafTimeout link context := by
  unfold Behaviour.ending Backend.call
  split
  · rename_i h
    rw [if_pos h]
    cases (setup.backend link context).answer <;> rfl
  · rename_i h
    rw [if_neg h]
    rfl

/-! ## What a strand is going to come to -/

namespace Strand

/-- What a strand is going to come to, unless it is given up. -/
def value (setup : Setup) (strand : Strand) : Option (Except TaskError (List LeafOutput)) :=
  let evaluate := setup.backend.evaluate setup.limits.leafTimeout
  match strand.phase with
  | .ready link rest => some ((evaluate strand.context (link :: rest)).map (strand.chainOutput ++ ·))
  | .waiting _ link rest => some ((evaluate strand.context (link :: rest)).map (strand.chainOutput ++ ·))
  | .granted link rest => some ((evaluate strand.context (link :: rest)).map (strand.chainOutput ++ ·))
  | .holding link rest => some ((evaluate strand.context (link :: rest)).map (strand.chainOutput ++ ·))
  | .calling _ link rest _ ending =>
    match ending.value setup.limits link with
    | .ok r => some ((evaluate (some r) rest).map (strand.chainOutput ++ LeafOutput.of link r :: ·))
    | .error e => some (.error e)
  | .finished => some (.ok strand.chainOutput)
  | .failed e => some (.error e)
  | .crashed message => some (.error (.aborted ("task worker panicked: " ++ message)))
  | .dropped => none

theorem conclude_value {setup : Setup} {strand : Strand} {ticket : Nat} {link : Leaf} {rest : List Leaf}
    {ends : Nat} {ending : Ending} (hp : strand.phase = .calling ticket link rest ends ending) :
    (strand.conclude setup link rest ending).value setup = strand.value setup := by
  rcases ending with answer | _
  · rcases answer with r | e | message
    · cases rest with
      | nil =>
        simp [conclude, value, hp, Ending.value, Backend.evaluate, chainOutput, Except.map]
      | cons next rest =>
        simp [conclude, value, hp, Ending.value, context, chainOutput, LeafOutput.of]
    · simp [conclude, value, hp, Ending.value]
    · simp [conclude, value, hp, Ending.value]
  · simp [conclude, value, hp, Ending.value]

theorem launch_value {setup : Setup} {strand : Strand} {ticket ends : Nat} {link : Leaf}
    {rest : List Leaf} (hp : strand.phase = .holding link rest) :
    ({ strand with
        phase := .calling ticket link rest ends
          ((setup.backend link strand.context).ending setup.limits) } : Strand).value setup =
      strand.value setup := by
  simp only [value, hp, Behaviour.ending_value, Backend.evaluate]
  cases setup.backend.call setup.limits.leafTimeout link strand.context with
  | ok r =>
    dsimp only
    generalize setup.backend.evaluate setup.limits.leafTimeout (some r) rest = later
    cases later <;> rfl
  | error e => rfl

/-- No pass changes what a strand is going to come to. -/
theorem Pass.value {setup : Setup} {now : Nat} {a b : Strand} (h : Pass setup now a b) :
    b.phase = .dropped ∨ b.value setup = a.value setup := by
  cases h with
  | drop => exact .inl rfl
  | launch hp => exact .inr (launch_value hp)
  | conclude hp => exact .inr (conclude_value hp)
  | queue hp => exact .inr (by simp only [Strand.value, hp]; rfl)
  | take hp => exact .inr (by simp only [Strand.value, hp]; rfl)
  | grant hp => exact .inr (by simp only [Strand.value, hp]; rfl)
  | see hp => exact .inr (by simp only [Strand.value, hp]; rfl)

/-- A strand on its way: of the same task, and going to come to the same unless it is given up. -/
def Faithful (setup : Setup) (a b : Strand) : Prop :=
  b.task = a.task ∧ (b.phase = .dropped ∨ b.value setup = a.value setup)

theorem Faithful.passes {setup : Setup} {now : Nat} {a b c : Strand} (h : Faithful setup a b)
    (hpasses : Passes setup now b c) : Faithful setup a c := by
  induction hpasses with
  | refl => exact h
  | tail _ hpass ih =>
    refine ⟨hpass.task.trans ih.1, ?_⟩
    rcases ih.2 with hdropped | hvalue
    · have hactive := hpass.active
      rw [hdropped] at hactive
      cases hactive
    · rcases hpass.value with hdropped | hsame
      · exact .inl hdropped
      · exact .inr (hsame.trans hvalue)

end Strand

theorem Course.faithful {setup : Setup} {s t : State} (h : Course setup s t) :
    List.Forall₂ (Strand.Faithful setup) s.strands t.strands := by
  induction h with
  | refl => exact List.forall₂_same.2 fun _ _ => ⟨rfl, .inr rfl⟩
  | tail _ hmove ih =>
    exact forall₂_comp (T := Strand.Faithful setup) (fun _ _ _ hab hbc => hab.passes hbc) ih hmove.passes

/-! ## The chains of a task -/

theorem strandsFrom_filter (base : Nat) {j : Nat} {tasks : List Task} {t : Task} (ht : tasks[j]? = some t) :
    (strandsFrom base tasks).filter (·.task == base + j) =
      t.node.chains.map (Strand.start (base + j)) := by
  induction tasks generalizing base j with
  | nil => simp at ht
  | cons first tasks ih =>
    rw [strandsFrom, List.filter_append]
    cases j with
    | zero =>
      obtain rfl : first = t := by simpa using ht
      have hown : (first.node.chains.map (Strand.start base)).filter (·.task == base + 0) =
          first.node.chains.map (Strand.start base) := by
        refine List.filter_eq_self.2 fun strand hmem => ?_
        obtain ⟨chain, _, rfl⟩ := List.mem_map.1 hmem
        simp [Strand.start]
      have hothers : (strandsFrom (base + 1) tasks).filter (·.task == base + 0) = [] := by
        refine List.filter_eq_nil_iff.2 fun strand hmem => ?_
        have htask := (strandsFrom_task strand hmem).1
        simp
        omega
      rw [hown, hothers, List.append_nil]
      rfl
    | succ j =>
      have hown : (first.node.chains.map (Strand.start base)).filter (·.task == base + (j + 1)) = [] := by
        refine List.filter_eq_nil_iff.2 fun strand hmem => ?_
        obtain ⟨chain, _, rfl⟩ := List.mem_map.1 hmem
        simp [Strand.start]
      have hrest := ih (base + 1) (by simpa using ht)
      rw [Nat.add_assoc, Nat.add_comm 1] at hrest
      rw [hown, List.nil_append, hrest]

theorem forall₂_filter_task {P : Strand → Strand → Prop} {l l' : List Strand} (task : Nat)
    (h : List.Forall₂ (fun a b => b.task = a.task ∧ P a b) l l') :
    List.Forall₂ P (l.filter (·.task == task)) (l'.filter (·.task == task)) := by
  induction h with
  | nil => exact .nil
  | @cons a b _ _ hab _ ih =>
    rw [List.filter_cons, List.filter_cons, hab.1]
    split
    · exact .cons hab.2 ih
    · exact ih

/-- At the start, the value of a strand is that of its chain. -/
theorem Strand.start_value (setup : Setup) (task : Nat) (chain : Chain) :
    (Strand.start task chain).value setup =
      some (setup.backend.chainValue setup.limits.leafTimeout chain) := by
  have hvalue : (Strand.start task chain).value setup =
      some ((setup.backend.evaluate setup.limits.leafTimeout none
        (chain.head :: chain.toList.drop 1)).map ([] ++ ·)) := rfl
  rw [hvalue, ← chain.toList_eq_cons, Backend.chainValue]
  generalize setup.backend.evaluate setup.limits.leafTimeout none chain.toList = outputs
  cases outputs <;> rfl

/-- The outcomes that the values of its chains allow for a task: what the outputs are merged to, or the
failure of a chain. -/
def Setup.Evaluates (setup : Setup) (node : Node) (outcome : Outcome) : Prop :=
  (∃ outputs, node.chains.map (setup.backend.chainValue setup.limits.leafTimeout) = outputs.map .ok ∧
    outcome = Merged.ofOutputs outputs node) ∨
  ∃ chain ∈ node.chains, ∃ e, setup.backend.chainValue setup.limits.leafTimeout chain = .error e ∧
    outcome = .error e

/-- The strands of a task on their way, each going to come to the value of its chain unless it is given
up. -/
abbrev Setup.OnTheirWay (setup : Setup) (chains : List Chain) (strands : List Strand) : Prop :=
  List.Forall₂ (fun chain strand => strand.phase = .dropped ∨
    strand.value setup = some (setup.backend.chainValue setup.limits.leafTimeout chain)) chains strands

theorem values_of_finished {setup : Setup} {chains : List Chain} {strands : List Strand}
    (h : setup.OnTheirWay chains strands) (hall : ∀ strand ∈ strands, strand.phase = .finished) :
    chains.map (setup.backend.chainValue setup.limits.leafTimeout) =
      (strands.map Strand.chainOutput).map .ok := by
  induction h with
  | nil => rfl
  | @cons chain strand _ _ hvalue _ ih =>
    have hfinished := hall strand List.mem_cons_self
    have hsame := hvalue.resolve_left (by simp [hfinished])
    have hvalue' : strand.value setup = some (.ok strand.chainOutput) := by
      simp [Strand.value, hfinished]
    rw [hvalue'] at hsame
    rw [List.map_cons, List.map_cons, List.map_cons, ← Option.some.inj hsame,
      ih fun other hother => hall other (List.mem_cons_of_mem _ hother)]

/-- A strand that has failed tells that its chain does. -/
theorem Setup.OnTheirWay.fails {setup : Setup} {chains : List Chain} {strands : List Strand}
    (h : setup.OnTheirWay chains strands) {strand : Strand} (hmem : strand ∈ strands) {e : TaskError}
    (hkept : strand.phase ≠ .dropped) (hvalue : strand.value setup = some (.error e)) :
    ∃ chain ∈ chains, setup.backend.chainValue setup.limits.leafTimeout chain = .error e := by
  obtain ⟨i, hi⟩ := List.mem_iff_getElem?.1 hmem
  obtain ⟨chain, hchain, hsame⟩ := forall₂_getElem? h hi
  have heq := hvalue.symm.trans (hsame.resolve_left hkept)
  exact ⟨chain, List.mem_of_getElem? hchain, (Option.some.inj heq).symm⟩

/-- What a decision comes from: a chain that fails, or the outputs of all chains. -/
theorem verdict?_values {setup : Setup} {chains : List Chain} {strands : List Strand} {verdict : Verdict}
    (hstrands : setup.OnTheirWay chains strands) (h : verdict? strands = some verdict) :
    (∃ chain ∈ chains, ∃ e, setup.backend.chainValue setup.limits.leafTimeout chain = .error e ∧
      verdict = .error e) ∨
    (∀ strand ∈ strands, strand.phase = .finished) ∧ verdict = .ok (strands.map Strand.chainOutput) := by
  rcases verdict?_cases h with ⟨strand, hmem, message, hp, rfl⟩ | ⟨strand, hmem, e, hp, rfl⟩ | hall
  · obtain ⟨chain, hchain, hvalue⟩ := hstrands.fails hmem
      (e := .aborted ("task worker panicked: " ++ message)) (by simp [hp]) (by simp [Strand.value, hp])
    exact .inl ⟨chain, hchain, _, hvalue, rfl⟩
  · obtain ⟨chain, hchain, hvalue⟩ := hstrands.fails hmem (e := e) (by simp [hp]) (by simp [Strand.value, hp])
    exact .inl ⟨chain, hchain, _, hvalue, rfl⟩
  · exact .inr hall

/-- A decision is an outcome that the values of the chains allow. -/
theorem verdict?_evaluates {setup : Setup} {task : Nat} {t : Task} {strands : List Strand} {verdict : Verdict}
    (ht : setup.graph.tasks[task]? = some t) (hstrands : setup.OnTheirWay t.node.chains strands)
    (h : verdict? strands = some verdict) : setup.Evaluates t.node (outcomeOf setup task verdict) := by
  rcases verdict?_values hstrands h with ⟨chain, hchain, e, hvalue, rfl⟩ | ⟨hall, rfl⟩
  · exact .inr ⟨chain, hchain, e, hvalue, rfl⟩
  · exact .inl ⟨strands.map Strand.chainOutput, values_of_finished hstrands hall, by simp [outcomeOf, ht]⟩

theorem Course.onTheirWay {setup : Setup} {s : State} {task : Nat} {t : Task}
    (h : Course setup setup.start s) (ht : setup.graph.tasks[task]? = some t) :
    setup.OnTheirWay t.node.chains (s.strandsOf task) := by
  have hfilter := forall₂_filter_task task h.faithful
  have hstart := strandsFrom_filter 0 ht
  rw [Nat.zero_add] at hstart
  change List.Forall₂ _ ((strandsFrom 0 setup.graph.tasks).filter (·.task == task)) _ at hfilter
  rw [hstart, List.forall₂_map_left_iff] at hfilter
  exact hfilter.imp fun chain strand hvalue => hvalue.imp_right fun h =>
    h.trans (Strand.start_value setup task chain)

/-! ## Reports -/

/-- If an event is a report, then of what the strands of its task allow. -/
def State.Allows (setup : Setup) (s : State) (event : Event) : Prop :=
  ∀ task outcome, event = .reported task outcome →
    ∃ verdict, verdict? (s.strandsOf task) = some verdict ∧ outcome = outcomeOf setup task verdict

theorem Event.reportedTask?_of_isAside {event : Event} (h : event.isAside = true) :
    event.reportedTask? = none := by
  cases event <;> first | rfl | cases h

theorem State.allows_of_none {setup : Setup} {s : State} {event : Event} (h : event.reportedTask? = none) :
    s.Allows setup event := by
  rintro task outcome rfl
  cases h

/-- A move reports no task but one that its strands allow to be reported. -/
theorem Move.allows {setup : Setup} {s t : State} (h : Move setup s t) : s.Extends (s.Allows setup) t := by
  cases h with
  | queue => exact s.extends_record (State.allows_of_none rfl)
  | take => exact .refl s
  | see => exact .refl s
  | launch => exact s.extends_record (State.allows_of_none rfl)
  | @conclude i strand ticket link rest ends ending =>
    have hended : s.Extends (s.Allows setup) (s.record (ending.event link)) :=
      s.extends_record (State.allows_of_none (by cases ending <;> rfl))
    exact hended.trans rfl ((s.extends_conclude setup i strand link rest ending).mono
      fun _ h => State.allows_of_none (Event.reportedTask?_of_isAside (State.isAside_of_granted h)))
  | @decide task verdict hverdict =>
    have hgiveUp : s.Extends (s.Allows setup) (s.giveUp task) :=
      (s.extends_giveUp task).mono fun _ h => State.allows_of_none (Event.reportedTask?_of_isAside h)
    refine hgiveUp.trans (s.giveUp_now task) (State.extends_record _ ?_)
    intro other outcome hreport
    cases hreport
    exact ⟨verdict, hverdict, rfl⟩
  | elapse => exact ⟨[], by simp, rfl⟩
  | schedule h => exact ⟨[], by simp, h.log⟩

/-- A task is reported at a time at which its strands allow it. -/
theorem Course.report_allowed {setup : Setup} {s : State} (h : Course setup setup.start s) {e : Stamped}
    (he : e ∈ s.log) : ∃ u, Course setup setup.start u ∧ u.now = e.at_ ∧ u.Allows setup e.event := by
  induction h with
  | refl => exact absurd he List.not_mem_nil
  | @tail u t hcourse hmove ih =>
    obtain ⟨events, hevents, hlog⟩ := hmove.allows
    rw [hlog] at he
    rcases List.mem_append.1 he with hnew | hold
    · obtain ⟨event, hevent, rfl⟩ := List.mem_map.1 hnew
      exact ⟨u, hcourse, rfl, hevents event hevent⟩
    · exact ih hold

theorem Journal.mem_reports {j : Journal} {report : Report} (h : report ∈ j.reports) :
    ⟨report.at_, .reported report.task report.outcome⟩ ∈ j.events := by
  obtain ⟨⟨time, event⟩, he, hreport⟩ := List.mem_filterMap.1 h
  cases event with
  | reported task outcome =>
    cases hreport
    exact he
  | _ => cases hreport

namespace Setup

/-- Whether a chain fails by itself. -/
def fails (setup : Setup) (chain : Chain) : Bool :=
  !(setup.backend.chainValue setup.limits.leafTimeout chain).isOk

theorem Evaluates.of_ok {setup : Setup} {node : Node} {outcome : Outcome} {outputs : List (List LeafOutput)}
    (h : setup.Evaluates node outcome)
    (hvalues : node.chains.map (setup.backend.chainValue setup.limits.leafTimeout) = outputs.map .ok) :
    outcome = Merged.ofOutputs outputs node := by
  rcases h with ⟨outputs', hvalues', rfl⟩ | ⟨chain, hchain, e, hvalue, -⟩
  · have hinj : Function.Injective (Except.ok (ε := TaskError) (α := List LeafOutput)) :=
      fun _ _ => Except.ok.inj
    rw [hinj.list_map (hvalues'.symm.trans hvalues)]
  · have hmem := List.mem_map_of_mem (f := setup.backend.chainValue setup.limits.leafTimeout) hchain
    rw [hvalues, hvalue] at hmem
    obtain ⟨output, -, hok⟩ := List.mem_map.1 hmem
    cases hok

theorem Evaluates.of_error {setup : Setup} {node : Node} {outcome : Outcome} {chain : Chain} {e : TaskError}
    (h : setup.Evaluates node outcome) (hchain : chain ∈ node.chains)
    (hvalue : setup.backend.chainValue setup.limits.leafTimeout chain = .error e) :
    ∃ chain ∈ node.chains, ∃ e, setup.backend.chainValue setup.limits.leafTimeout chain = .error e ∧
      outcome = .error e := by
  rcases h with ⟨outputs, hvalues, -⟩ | h
  · have hmem := List.mem_map_of_mem (f := setup.backend.chainValue setup.limits.leafTimeout) hchain
    rw [hvalues, hvalue] at hmem
    obtain ⟨output, -, hok⟩ := List.mem_map.1 hmem
    cases hok
  · exact h

/-- When no more than one chain fails, there is only one outcome. -/
theorem Evaluates.unique {setup : Setup} {node : Node} {outcome outcome' : Outcome}
    (h : setup.Evaluates node outcome) (h' : setup.Evaluates node outcome')
    (hone : node.chains.countP setup.fails ≤ 1) : outcome' = outcome := by
  rcases h with ⟨outputs, hvalues, rfl⟩ | ⟨chain, hchain, e, hvalue, rfl⟩
  · exact h'.of_ok hvalues
  · obtain ⟨chain', hchain', e', hvalue', rfl⟩ := h'.of_error hchain hvalue
    have hmem : ∀ c ∈ node.chains, ∀ e, setup.backend.chainValue setup.limits.leafTimeout c = .error e →
        c ∈ node.chains.filter setup.fails := by
      intro c hc e hce
      exact List.mem_filter.2 ⟨hc, by rw [fails, hce]; rfl⟩
    have hsame : chain' = chain := by
      have hfirst := hmem _ hchain _ hvalue
      have hsecond := hmem _ hchain' _ hvalue'
      rw [List.countP_eq_length_filter] at hone
      match hfailing : node.chains.filter setup.fails with
      | [] =>
        rw [hfailing] at hfirst
        cases hfirst
      | [c] =>
        rw [hfailing, List.mem_singleton] at hfirst hsecond
        rw [hfirst, hsecond]
      | _ :: _ :: _ =>
        rw [hfailing] at hone
        simp at hone
    rw [hsame, hvalue] at hvalue'
    rw [Except.error.inj hvalue']

/-- A run that goes to its end has one report for every task. -/
theorem run_report (setup : Setup) {task : Nat} (hlt : task < setup.graph.tasks.length) :
    ∃ report, (setup.run {}).reports.filter (·.task == task) = [report] := by
  have hcount := (setup.run_reports_perm none).countP_eq (· == task)
  rw [List.countP_map] at hcount
  have hone : (List.range setup.graph.tasks.length).countP (· == task) = 1 := by
    change (List.range setup.graph.tasks.length).count task = 1
    rw [List.count_range, if_pos hlt]
  rw [hone] at hcount
  refine List.length_eq_one_iff.1 ?_
  rw [← List.countP_eq_length_filter]
  exact hcount

/-- Whatever is reported follows from the values of the chains. -/
theorem report_evaluates (setup : Setup) {report : Report} {t : Task}
    (hreport : report ∈ (setup.run {}).reports) (ht : setup.graph.tasks[report.task]? = some t) :
    setup.Evaluates t.node report.outcome := by
  obtain ⟨u, hcourse, -, hallows⟩ :=
    (setup.course_rest none).report_allowed (List.mem_reverse.1 (Journal.mem_reports hreport))
  obtain ⟨verdict, hverdict, houtcome⟩ := hallows report.task report.outcome rfl
  rw [houtcome]
  exact verdict?_evaluates ht (hcourse.onTheirWay ht) hverdict

/-- A run that goes to its end reports every task once, with the outputs of its chains, merged in their
order, if each of them has a value by itself, and else with the failure of one that has none. Neither the
number of calls in flight nor the other tasks change that. -/
theorem run_refines_sequential (setup : Setup) {task : Nat} {t : Task}
    (ht : setup.graph.tasks[task]? = some t) :
    ∃ report, (setup.run {}).reports.filter (·.task == task) = [report] ∧
      (∀ outputs,
        t.node.chains.map (setup.backend.chainValue setup.limits.leafTimeout) = outputs.map .ok →
        report.outcome = Merged.ofOutputs outputs t.node) ∧
      (∀ chain ∈ t.node.chains, ∀ e,
        setup.backend.chainValue setup.limits.leafTimeout chain = .error e →
        ∃ chain ∈ t.node.chains, ∃ e,
          setup.backend.chainValue setup.limits.leafTimeout chain = .error e ∧
          report.outcome = .error e) ∧
      (t.node.chains.countP setup.fails ≤ 1 →
        ∀ graph inFlight task', graph.tasks[task']?.map Task.node = some t.node →
        ∀ report' ∈ (Setup.run ⟨graph, setup.backend, ⟨inFlight, setup.limits.leafTimeout⟩⟩ {}).reports,
          report'.task = task' → report'.outcome = report.outcome) := by
  have hlt : task < setup.graph.tasks.length := (List.getElem?_eq_some_iff.1 ht).1
  obtain ⟨report, hreport⟩ := setup.run_report hlt
  obtain ⟨hmem, htask⟩ : report ∈ (setup.run {}).reports ∧ report.task = task := by
    have hsingle : report ∈ (setup.run {}).reports.filter (·.task == task) := by
      rw [hreport]
      exact List.mem_cons_self
    simpa using List.mem_filter.1 hsingle
  have hevaluates := setup.report_evaluates hmem (t := t) (by rwa [htask])
  refine ⟨report, hreport, fun outputs => hevaluates.of_ok, ?_, ?_⟩
  · intro chain hchain e hvalue
    exact hevaluates.of_error hchain hvalue
  · intro hone graph inFlight task' hnode report' hmem' htask'
    obtain ⟨t', ht', hsame⟩ := Option.map_eq_some_iff.1 hnode
    have hevaluates' := report_evaluates ⟨graph, setup.backend, ⟨inFlight, setup.limits.leafTimeout⟩⟩ hmem'
      (t := t') (by rwa [htask'])
    rw [hsame] at hevaluates'
    exact hevaluates.unique hevaluates' hone

/-- A group of two chains, of which the second fails while the first is in flight. -/
def pair : Setup :=
  let leaf (id : Nat) (position : String) : Leaf :=
    .of id position ⟨.timeSeries, none, none, .timeSeries .day 1⟩
  { graph := ⟨[⟨.timeSeries, 0, "timeSeries[0]", .group [.last (leaf 0 "first"), .last (leaf 1 "second")]⟩],
      .empty⟩
    backend := fun leaf _ =>
      if leaf.id = 0 then ⟨20, .result (.ofRecords leaf.spec.parameters [])⟩
      else ⟨10, .failure (.unavailable "down")⟩
    limits := {} }

theorem run_refines_sequential_pair :
    ∃ report, (pair.run {}).reports.filter (·.task == 0) = [report] ∧
      report.outcome = .error (.backend "second" (.unavailable "down")) := by
  obtain ⟨report, hreport, -, hfailing, -⟩ :=
    run_refines_sequential pair (show pair.graph.tasks[0]? = some _ from rfl)
  refine ⟨report, hreport, ?_⟩
  obtain ⟨chain, hchain, e, hvalue, houtcome⟩ :=
    hfailing (.last (.of 1 "second" ⟨.timeSeries, none, none, .timeSeries .day 1⟩))
      (List.mem_cons_of_mem _ List.mem_cons_self) (.backend "second" (.unavailable "down")) rfl
  rcases List.mem_cons.1 hchain with rfl | hchain
  · cases hvalue
  · obtain rfl := List.mem_singleton.1 hchain
    cases hvalue
    exact houtcome

end Setup
end Run
end Inquiry
