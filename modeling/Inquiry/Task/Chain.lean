import Inquiry.Analysis.Spec

/-!
# Task.Chain — leaves and the chains that they form

A leaf is one analysis of a compiled configuration. A chain is a leaf followed by the analyses that
are each run in the context of the one before.

* `Chain.toList` lists the leaves, the head first, and `Chain.ofList?` builds a chain from its leaves,
  the last first.
* `Chain.copy` rebuilds a chain from its leaves; `Chain.agrees` compares two chains leaf by leaf.
-/

namespace Inquiry

/-- One analysis of a compiled configuration. -/
structure Leaf where
  id : Nat
  position : String
  spec : Spec
  mergeKey : MergeKey
  deriving DecidableEq, Repr

/-- The leaf of an analysis, its merge key resolved. -/
def Leaf.of (id : Nat) (position : String) (spec : Spec) : Leaf :=
  ⟨id, position, spec, .resolve spec position⟩

/-- A leaf and the leaves that follow it. -/
inductive Chain where
  | last (leaf : Leaf)
  | link (leaf : Leaf) (next : Chain)
  deriving Repr

namespace Chain

/-- The leaf that a chain starts with. -/
def head : Chain → Leaf
  | last leaf => leaf
  | link leaf _ => leaf

/-- The chain behind the head. -/
def next? : Chain → Option Chain
  | last _ => none
  | link _ next => some next

/-- The leaves of a chain after those in `done`, which are listed the last first. -/
def toListAfter (done : List Leaf) : Chain → List Leaf
  | last leaf => (leaf :: done).reverse
  | link leaf next => toListAfter (leaf :: done) next

/-- The leaves of a chain, the head first. -/
def toList (c : Chain) : List Leaf := c.toListAfter []

/-- Puts leaves in front of a chain, the nearest to it first. -/
def prepend : List Leaf → Chain → Chain
  | [], c => c
  | leaf :: rest, c => prepend rest (link leaf c)

/-- The chain of a leaf and those after it. -/
def ofLeaves (head : Leaf) (rest : List Leaf) : Chain :=
  match rest.reverse with
  | [] => last head
  | tail :: front => prepend (front ++ [head]) (last tail)

/-- The number of leaves of a chain. -/
def length (c : Chain) : Nat := c.toList.length

/-- The leaf that a chain ends with. -/
def tail : Chain → Leaf
  | last leaf => leaf
  | link _ next => next.tail

/-- A chain built anew from the leaves of another. -/
def copy (c : Chain) : Chain := ofLeaves c.head (c.toList.drop 1)

/-- Whether two chains have equal leaves throughout. -/
def agrees (c d : Chain) : Bool := c.toList == d.toList

instance : BEq Chain := ⟨agrees⟩

end Chain
end Inquiry
