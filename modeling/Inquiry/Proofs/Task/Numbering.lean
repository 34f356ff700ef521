import Inquiry.Proofs.Task.Outcome

/-!
# Proofs.Task.Numbering — how the leaves of a configuration are numbered

The leaves of a compiled configuration are numbered from zero on, task by task, chain by chain, and from
head to tail. Every part of the compiler takes the numbers from where the part before it left off.

* `Chain.ids` are the numbers of the leaves of a chain.
* `Graph.compile_ids`: those of a whole graph, in order.
-/

namespace Inquiry

/-- The numbers of the leaves of a chain. -/
def Chain.ids (c : Chain) : List Nat := c.toList.map Leaf.id

theorem Chain.ids_length (c : Chain) : c.ids.length = c.length := List.length_map _

/-- Numbers that go on from a number are as many as they are. -/
theorem range'_of_length {first n : Nat} {l : List Nat} (h : l = List.range' first n) :
    l = List.range' first l.length := by
  rw [h, List.length_range']

namespace Config

theorem leavesAlong_ids (first : Nat) (place : Place) (specs : List Spec) :
    (leavesAlong first place specs).map Leaf.id = List.range' (first + place.depth) specs.length := by
  induction specs generalizing place with
  | nil => rfl
  | cons spec specs ih =>
    rw [leavesAlong, List.map_cons, ih, List.length_cons, List.range'_succ]
    rfl

theorem compileChain_ids {kind : Kind} {first index : Nat} {slot : Option Nat} {v : Json.Value}
    {chain : Chain} (h : compileChain kind first ⟨kind.key, index, slot, 0⟩ v = .ok chain) :
    chain.ids = List.range' first chain.length := by
  obtain ⟨specs, -, hchain⟩ := compileChain_eq_ok.1 h
  have hids : chain.ids = List.range' first specs.length := by
    rw [Chain.ids, hchain, leavesAlong_ids]
    rfl
  rw [← chain.ids_length]
  exact range'_of_length hids

theorem compileMembers_ids {kind : Kind} {index first slot : Nat} {vs : List Json.Value}
    {chains : List Chain} (h : compileMembers kind index first slot vs = .ok chains) :
    chains.flatMap Chain.ids = List.range' first ((chains.map Chain.length).foldr (· + ·) 0) := by
  induction vs generalizing first slot chains with
  | nil =>
    cases h
    rfl
  | cons v vs ih =>
    obtain ⟨-, chain, behind, hchain, hbehind, rfl⟩ := compileMembers_cons_eq_ok.1 h
    rw [List.flatMap_cons, compileChain_ids hchain, ih hbehind, List.map_cons, List.foldr_cons,
      List.range'_append_1]

theorem compileNode_ids {kind : Kind} {index first : Nat} {v : Json.Value} {node : Node}
    (h : compileNode kind index first v = .ok node) :
    node.chains.flatMap Chain.ids = List.range' first node.leafCount := by
  rcases compileNode_eq_ok.1 h with ⟨items, chains, -, -, hchains, rfl⟩ | ⟨-, chain, hchain, rfl⟩
  · exact compileMembers_ids hchains
  · simp [Node.chains, Node.leafCount, compileChain_ids hchain]

theorem leafTotal_append (tasks tasks' : List Task) :
    leafTotal (tasks ++ tasks') = leafTotal tasks + leafTotal tasks' := by
  induction tasks with
  | nil => simp [leafTotal]
  | cons t tasks ih =>
    simp only [leafTotal, List.cons_append, List.map_cons, List.foldr_cons] at ih ⊢
    omega

theorem compileEntries_ids {kind : Kind} {index first : Nat} {vs : List Json.Value} {tasks : List Task}
    (h : compileEntries kind index first vs = .ok tasks) :
    (tasks.flatMap (·.node.chains)).flatMap Chain.ids = List.range' first (leafTotal tasks) := by
  induction vs generalizing index first tasks with
  | nil =>
    cases h
    rfl
  | cons v vs ih =>
    obtain ⟨node, others, hnode, hothers, rfl⟩ := compileEntries_cons_eq_ok.1 h
    rw [List.flatMap_cons, List.flatMap_append, compileNode_ids hnode, ih hothers,
      List.range'_append_1]
    rfl

theorem compileTasks_ids {first : Nat} {entries : List (String × Json.Value)} {tasks : List Task}
    (h : compileTasks first entries = .ok tasks) :
    (tasks.flatMap (·.node.chains)).flatMap Chain.ids = List.range' first (leafTotal tasks) := by
  induction entries generalizing first tasks with
  | nil =>
    cases h
    rfl
  | cons entry entries ih =>
    obtain ⟨kind, own, others, -, -, hown, hothers, rfl⟩ := compileTasks_cons_eq_ok.1 h
    rw [List.flatMap_append, List.flatMap_append, compileEntries_ids hown, ih hothers,
      leafTotal_append, List.range'_append_1]

end Config

/-- The leaves of a compiled configuration are numbered from zero on. -/
theorem Graph.compile_ids {config : Json.Value} {graph : Graph} (h : Graph.compile config = .ok graph) :
    graph.chains.flatMap Chain.ids = List.range' 0 (Config.leafTotal graph.tasks) := by
  obtain ⟨entries, -, -, htasks, -⟩ := Graph.compile_eq_ok.1 h
  exact Config.compileTasks_ids htasks

end Inquiry
