import Inquiry.Proofs.Run.Abandonment
import Inquiry.Proofs.Task.Entry
import Inquiry.Proofs.Task.Labels
import Inquiry.Proofs.Task.Merge

/-!
# Proofs.Run.Collision — which tasks end in a collision of merge keys

A task is reported with a collision if two of its leaves have the same merge key. The labels of leaves differ,
so that one of the two has a name or a filter.

* `Merged.ofOutputs_collision`: a collision is between two outputs of the task.
* `Backend.evaluate_tags`: outputs have the keys and the positions of the leaves that they come from.
* `Setup.report_whole_or_cancelled`, `Setup.report_evaluates_or_cancelled`: what a run reports that is interrupted.
* `Setup.report_collision`: a collision that is reported is between two leaves of the task.
* `Graph.fallback_keys_apart`: in a compiled configuration, leaves without names and filters never collide.
-/

namespace Inquiry

open Json (Value)

/-! ## Merging -/

/-- A collision is between two outputs, and it is the later one whose position is told. -/
theorem Merged.ofOutputs_collision {outputs : List (List LeafOutput)} {node : Node} {key position : String}
    (h : ofOutputs outputs node = .error (.mergeKeyCollision key position)) :
    ∃ first second, [first, second].Sublist outputs.flatten ∧ first.key = key ∧ second.key = key ∧
      second.position = position := by
  have hscope : ∀ {scope : List LeafOutput} {form : Keyed Response → Merged},
      (insertAll [] scope).map form = .error (.mergeKeyCollision key position) →
      ∃ first second, [first, second].Sublist scope ∧ first.key = key ∧ second.key = key ∧
        second.position = position := by
    intro scope form hcollides
    obtain ⟨front, second, back, rfl, -, hmem, he⟩ := (collects_insertAll scope form).collides _ hcollides
    obtain ⟨rfl, rfl⟩ := TaskError.mergeKeyCollision.inj he
    obtain ⟨first, hfirst, hkey⟩ := List.mem_map.1 hmem
    have hsecond : [second].Sublist (second :: back) := List.singleton_sublist.2 List.mem_cons_self
    exact ⟨first, second, (List.singleton_sublist.2 hfirst).append hsecond, hkey, rfl, rfl⟩
  cases node with
  | group members => exact hscope h
  | single chain =>
    cases houtputs : outputs.flatten with
    | nil => simp [ofOutputs, houtputs] at h
    | cons head rest =>
      simp only [ofOutputs, houtputs] at h
      obtain ⟨first, second, hsub, hkeys⟩ := hscope h
      exact ⟨first, second, hsub.cons head, hkeys⟩

/-- The key under which a leaf is merged, and where it stands. -/
def Leaf.tag (leaf : Leaf) : String × String := (leaf.mergeKey.text, leaf.position)

/-- The key under which an output is merged, and where it comes from. -/
def LeafOutput.tag (output : LeafOutput) : String × String := (output.key, output.position)

namespace Run

/-! ## Chains by themselves -/

namespace Backend

variable {backend : Backend} {timeout : Nat}

theorem call_ne_collision {leaf : Leaf} {context : Option Result} (key position : String) :
    backend.call timeout leaf context ≠ .error (.mergeKeyCollision key position) := by
  unfold call
  dsimp only
  split
  · split <;> simp
  · simp

/-- A chain by itself never ends in a collision. -/
theorem evaluate_ne_collision (leaves : List Leaf) (context : Option Result) (key position : String) :
    backend.evaluate timeout context leaves ≠ .error (.mergeKeyCollision key position) := by
  induction leaves generalizing context with
  | nil => simp [evaluate]
  | cons leaf rest ih =>
    rw [evaluate]
    cases hcall : backend.call timeout leaf context with
    | ok r =>
      dsimp only
      intro hcollision
      cases hrest : backend.evaluate timeout (some r) rest with
      | ok outputs =>
        rw [hrest] at hcollision
        cases hcollision
      | error e =>
        rw [hrest] at hcollision
        obtain rfl := Except.error.inj hcollision
        exact ih (some r) hrest
    | error e =>
      rintro he
      obtain rfl := Except.error.inj he
      exact call_ne_collision key position hcall

/-- The outputs of links have their keys and positions. -/
theorem evaluate_tags {leaves : List Leaf} {context : Option Result} {outputs : List LeafOutput}
    (h : backend.evaluate timeout context leaves = .ok outputs) :
    outputs.map LeafOutput.tag = leaves.map Leaf.tag := by
  induction leaves generalizing context outputs with
  | nil =>
    cases h
    rfl
  | cons leaf rest ih =>
    rw [evaluate] at h
    cases hcall : backend.call timeout leaf context with
    | error e =>
      rw [hcall] at h
      cases h
    | ok r =>
      rw [hcall] at h
      cases hrest : backend.evaluate timeout (some r) rest with
      | error e =>
        simp only [hrest] at h
        cases h
      | ok later =>
        simp only [hrest] at h
        cases h
        rw [List.map_cons, List.map_cons, ih hrest]
        rfl

end Backend

/-! ## Reports -/

namespace Setup

variable {setup : Setup}

theorem tags_of_values {chains : List Chain} {outputs : List (List LeafOutput)}
    (h : chains.map (setup.backend.chainValue setup.limits.leafTimeout) = outputs.map .ok) :
    outputs.flatten.map LeafOutput.tag = (chains.flatMap Chain.toList).map Leaf.tag := by
  induction chains generalizing outputs with
  | nil =>
    rw [List.map_eq_nil_iff.1 h.symm]
    rfl
  | cons chain chains ih =>
    obtain ⟨own, later, rfl, hown, hlater⟩ := List.map_eq_cons_iff.1 h.symm
    rw [List.flatten_cons, List.map_append, List.flatMap_cons, List.map_append, ih hlater.symm,
      Backend.evaluate_tags hown.symm]

/-- What the chains of a task come to is a collision only if two leaves have the same key. -/
theorem Evaluates.collision {node : Node} {key position : String}
    (h : setup.Evaluates node (.error (.mergeKeyCollision key position))) :
    ∃ first second, [first, second].Sublist (node.chains.flatMap Chain.toList) ∧
      first.mergeKey.text = key ∧ second.mergeKey.text = key ∧ second.position = position := by
  rcases h with ⟨outputs, hvalues, hmerged⟩ | ⟨chain, -, e, hvalue, he⟩
  · obtain ⟨a, b, hsub, rfl, hkey, rfl⟩ := Merged.ofOutputs_collision hmerged.symm
    have htags := hsub.map LeafOutput.tag
    rw [tags_of_values hvalues] at htags
    obtain ⟨leaves, hleaves, hsame⟩ := List.sublist_map_iff.1 htags
    obtain ⟨first, rest, rfl, hfirst, hrest⟩ := List.map_eq_cons_iff.1 hsame.symm
    obtain ⟨second, rest, rfl, hsecond, hnil⟩ := List.map_eq_cons_iff.1 hrest
    obtain rfl := List.map_eq_nil_iff.1 hnil
    exact ⟨first, second, hleaves, congrArg Prod.fst hfirst, (congrArg Prod.fst hsecond).trans hkey,
      congrArg Prod.snd hsecond⟩
  · obtain rfl := Except.error.inj he
    exact absurd hvalue (Backend.evaluate_ne_collision _ _ _ _)

/-- An interrupted run reports what the whole run reports, or that it was cancelled. -/
theorem report_whole_or_cancelled (setup : Setup) (interruption : Interruption) {report : Report}
    (h : report ∈ (setup.run interruption).reports) :
    report ∈ (setup.run {}).reports ∨ report.outcome = .error .cancelled := by
  obtain ⟨cancelAt, abandonAt⟩ := interruption
  have hnotAbandoned : report ∈ (setup.run { cancelAt }).reports := by
    cases abandonAt with
    | none => exact h
    | some time =>
      obtain ⟨before, after, hforks⟩ := setup.run_abandoned cancelAt time
      rw [hforks.reports] at h
      exact (List.mem_filter.1 h).1
  cases cancelAt with
  | none => exact .inl hnotAbandoned
  | some time =>
    obtain ⟨before, after, cut, hsplits⟩ := setup.run_splits time
    rw [hsplits.reports] at hnotAbandoned
    rcases List.mem_append.1 hnotAbandoned with hbefore | hcut
    · left
      rw [Journal.reports_eq, hsplits.whole, List.filterMap_append]
      exact List.mem_append_left _ hbefore
    · right
      obtain ⟨task, -, rfl⟩ := List.mem_map.1 hcut
      rfl

/-- Whatever is reported follows from the values of the chains, unless the task is cancelled. -/
theorem report_evaluates_or_cancelled (setup : Setup) (interruption : Interruption) {report : Report}
    (h : report ∈ (setup.run interruption).reports) :
    (∃ t, setup.graph.tasks[report.task]? = some t ∧ setup.Evaluates t.node report.outcome) ∨
      report.outcome = .error .cancelled := by
  refine (setup.report_whole_or_cancelled interruption h).imp_left fun hwhole => ?_
  have hlt : report.task < setup.graph.tasks.length :=
    List.mem_range.1 ((setup.run_reports_perm none).subset (List.mem_map_of_mem hwhole))
  have ht := List.getElem?_eq_getElem hlt
  exact ⟨_, ht, setup.report_evaluates hwhole ht⟩

/-- A collision that is reported is between two leaves of the task, one behind the other. -/
theorem report_collision (setup : Setup) (interruption : Interruption) {report : Report} {key position : String}
    (h : report ∈ (setup.run interruption).reports)
    (hcollision : report.outcome = .error (.mergeKeyCollision key position)) :
    ∃ t, setup.graph.tasks[report.task]? = some t ∧ ∃ first second,
      [first, second].Sublist (t.node.chains.flatMap Chain.toList) ∧
      first.mergeKey.text = key ∧ second.mergeKey.text = key ∧ second.position = position := by
  rcases setup.report_evaluates_or_cancelled interruption h with ⟨t, ht, hevaluates⟩ | hcancelled
  · rw [hcollision] at hevaluates
    exact ⟨t, ht, hevaluates.collision⟩
  · rw [hcancelled] at hcollision
    cases hcollision

end Setup
end Run

/-! ## Compiled configurations -/

/-- The labels of the leaves of a graph keep them apart where nothing else does. -/
structure Graph.FallbackKeysApart (config : Value) (graph : Graph) : Prop where
  /-- No two leaves of any tasks, groups and chains have the same label. -/
  positions : ((graph.chains.flatMap Chain.toList).map Leaf.position).Nodup
  /-- A collision in a run is between two leaves of the task, one of which has a name or a filter. -/
  collision : ∀ (backend : Run.Backend) (limits : Run.Limits) (interruption : Run.Interruption),
    ∀ report ∈ (Run.Setup.run ⟨graph, backend, limits⟩ interruption).reports, ∀ key position,
      report.outcome = .error (.mergeKeyCollision key position) →
      ∃ t, graph.tasks[report.task]? = some t ∧ ∃ first second,
        [first, second].Sublist (t.node.chains.flatMap Chain.toList) ∧
        first.mergeKey.text = key ∧ second.mergeKey.text = key ∧ second.position = position ∧
        (first.spec.explicitKey? ≠ none ∨ second.spec.explicitKey? ≠ none)
  /-- Without names and filters there is none. -/
  unnamed : Config.Unnamed config →
    ∀ (backend : Run.Backend) (limits : Run.Limits) (interruption : Run.Interruption),
      ∀ report ∈ (Run.Setup.run ⟨graph, backend, limits⟩ interruption).reports, ∀ key position,
        report.outcome ≠ .error (.mergeKeyCollision key position)

/-- The leaves of a task are among those of the graph, in their order. -/
theorem Graph.leaves_sublist {graph : Graph} {task : Nat} {t : Task} (ht : graph.tasks[task]? = some t) :
    (t.node.chains.flatMap Chain.toList).Sublist (graph.chains.flatMap Chain.toList) := by
  rw [Graph.chains, List.flatMap_assoc, List.flatMap_def]
  exact List.sublist_flatten_of_mem
    (List.mem_map_of_mem (f := fun t : Task => t.node.chains.flatMap Chain.toList) (List.mem_of_getElem? ht))

/-- In a compiled configuration the fallback keys of leaves never collide. -/
theorem Graph.fallback_keys_apart {config : Value} {graph : Graph} (h : Graph.compile config = .ok graph) :
    graph.FallbackKeysApart config := by
  have hstand := Graph.compile_stand h
  have hcollision : ∀ (backend : Run.Backend) (limits : Run.Limits) (interruption : Run.Interruption),
      ∀ report ∈ (Run.Setup.run ⟨graph, backend, limits⟩ interruption).reports, ∀ key position,
      report.outcome = .error (.mergeKeyCollision key position) →
      ∃ t, graph.tasks[report.task]? = some t ∧ ∃ first second,
        [first, second].Sublist (t.node.chains.flatMap Chain.toList) ∧
        first.mergeKey.text = key ∧ second.mergeKey.text = key ∧ second.position = position ∧
        (first.spec.explicitKey? ≠ none ∨ second.spec.explicitKey? ≠ none) := by
    intro backend limits interruption report hreport key position houtcome
    obtain ⟨t, ht, first, second, hsub, hfirst, hsecond, hposition⟩ :=
      Run.Setup.report_collision ⟨graph, backend, limits⟩ interruption hreport houtcome
    have hexplicit := hstand.explicit_of_same_key (hsub.trans (Graph.leaves_sublist ht))
      (hfirst.trans hsecond.symm)
    exact ⟨t, ht, first, second, hsub, hfirst, hsecond, hposition, hexplicit⟩
  refine ⟨hstand.positions_nodup, hcollision, ?_⟩
  intro hunnamed backend limits interruption report hreport key position houtcome
  obtain ⟨t, ht, first, second, hsub, -, -, -, hexplicit⟩ :=
    hcollision backend limits interruption report hreport key position houtcome
  have hall : ∀ leaf ∈ [first, second], leaf.spec.explicitKey? = none := fun leaf hleaf =>
    hstand.explicitKey?_eq_none hunnamed ((hsub.trans (Graph.leaves_sublist ht)).subset hleaf)
  exact hexplicit.elim (absurd (hall first (by simp))) (absurd (hall second (by simp)))

/-- A name can be the label of another leaf: then one of the two that collide goes by its label. -/
example : (Config.flatLeaf 0 (some "timeSeries[0][1]")).mergeKey.text = (Config.flatLeaf 1 none).mergeKey.text := by
  decide

/-! ## A configuration without names and filters -/

namespace Config

/-- A value without a name, a filter and a follow-up. -/
structure Bare (v : Value) : Prop where
  name : v.member? "name" = none
  filter : v.member? "filter" = none
  goesOn : v.member? "then" = none

theorem bare_array (items : List Value) : Bare (.array items) := ⟨rfl, rfl, rfl⟩

theorem bare_analysis : Bare (analysis none) := ⟨rfl, rfl, rfl⟩

/-- Behind a value without a follow-up there is nothing. -/
theorem Bare.nested {v w : Value} (h : Bare v) {links : Nat} (hw : Mirror.nested v links = some w) : Bare w := by
  cases links with
  | zero =>
    cases hw
    exact h
  | succ links =>
    rw [Mirror.nested, h.goesOn] at hw
    cases hw

/-- Indices lead to the entry of a configuration of one group, to the group, or to one of its analyses. -/
theorem bare_pick {n : Nat} {indices : List Nat} {v : Value}
    (h : Path.pick? (.array [.array ((List.replicate n none).map analysis)]) indices = some v) : Bare v := by
  match indices with
  | [] =>
    cases h
    exact bare_array _
  | index :: slots =>
    obtain ⟨entry, hentry, hrest⟩ := Option.bind_eq_some_iff.1 h
    obtain rfl := List.mem_singleton.1 (List.mem_of_getElem? hentry)
    match slots with
    | [] =>
      cases hrest
      exact bare_array _
    | slot :: slots =>
      obtain ⟨item, hitem, hrest⟩ := Option.bind_eq_some_iff.1 hrest
      obtain ⟨name, hname, rfl⟩ := List.mem_map.1 (List.mem_of_getElem? hitem)
      obtain rfl := List.eq_of_mem_replicate hname
      match slots with
      | [] =>
        cases hrest
        exact bare_analysis
      | slot :: slots => cases hrest

theorem unnamed_flat (n : Nat) : Unnamed (flat (List.replicate n none)) := by
  have hbare : ∀ path v, Path.find? (flat (List.replicate n none)) path = some v → Bare v := by
    intro path v hv
    cases path with
    | root =>
      cases hv
      exact ⟨rfl, rfl, rfl⟩
    | under key indices links =>
      obtain ⟨member, hmember, hrest⟩ := Option.bind_eq_some_iff.1 hv
      obtain ⟨head, hhead, hlinks⟩ := Option.bind_eq_some_iff.1 hrest
      -- There is only one member.
      obtain rfl : member = .array [.array ((List.replicate n none).map analysis)] := by
        have hin := Keyed.exists_of_find? hmember
        exact congrArg Prod.snd (List.mem_singleton.1 hin)
      exact (bare_pick hhead).nested hlinks
  intro path v hv
  exact ⟨.inl (hbare path v hv).name, .inl (hbare path v hv).filter⟩

end Config

/-- In a group of two analyses without names and filters, whatever the backend answers, nothing collides. -/
theorem Graph.fallback_keys_apart_flat : ∃ lineage,
    Graph.compile (Config.flat [none, none]) = .ok ⟨[Config.flatTask [none, none]], lineage⟩ ∧
    Config.Unnamed (Config.flat [none, none]) ∧
    Graph.FallbackKeysApart (Config.flat [none, none]) ⟨[Config.flatTask [none, none]], lineage⟩ := by
  have hnamed : Config.Named [none, none] := by
    intro name hname
    rw [List.eq_of_mem_replicate (n := 2) hname]
    rfl
  obtain ⟨lineage, hgraph⟩ := Graph.compile_flat hnamed
  exact ⟨lineage, hgraph, Config.unnamed_flat 2, Graph.fallback_keys_apart hgraph⟩

end Inquiry
