import Inquiry.Task.Chain
import Inquiry.Task.Lineage

/-!
# Task.Graph — compiled configurations

A compiled configuration is a list of tasks. A task is a single chain, or a group of chains whose
results are merged under their keys; it is reported once when it runs.
-/

namespace Inquiry

/-- The chains of a task. -/
inductive Node where
  | single (chain : Chain)
  | group (members : List Chain)
  deriving Repr, BEq

namespace Node

/-- The chains in the order of the configuration. -/
def chains : Node → List Chain
  | single chain => [chain]
  | group members => members

/-- The number of leaves of all chains. -/
def leafCount (n : Node) : Nat := (n.chains.map Chain.length).foldr (· + ·) 0

/-- Whether the chains are the members of a group. -/
def isGroup : Node → Bool
  | single _ => false
  | group _ => true

end Node

/-- One task: its kind, its index among the tasks of that kind, its label and its chains. -/
structure Task where
  kind : Kind
  index : Nat
  position : String
  node : Node
  deriving Repr, BEq

/-- A compiled configuration with the lineage of its leaves. -/
structure Graph where
  tasks : List Task
  lineage : Lineage

namespace Graph

/-- Two graphs are the same if their tasks are: the lineage follows from them. -/
instance : BEq Graph := ⟨fun g h => g.tasks == h.tasks⟩

/-- The tasks of a kind in their order. -/
def tasksFor (g : Graph) (k : Kind) : List Task := g.tasks.filter (·.kind == k)

/-- The kinds of the tasks, in the order in which they first occur. -/
def kinds (g : Graph) : List Kind := (g.tasks.map Task.kind).eraseDups

/-- The number of tasks. -/
def length (g : Graph) : Nat := g.tasks.length

/-- The number of leaves of all tasks. -/
def leafCount (g : Graph) : Nat := g.lineage.leafCount

/-- All chains of all tasks. -/
def chains (g : Graph) : List Chain := g.tasks.flatMap (·.node.chains)

end Graph
end Inquiry
