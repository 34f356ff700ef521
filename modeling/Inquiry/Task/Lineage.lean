import Std.Data.TreeMap

/-!
# Task.Lineage — which leaf follows which

A register of leaves and of the links between them. A leaf is linked below at most one other leaf, and
never below itself, so that the links form a forest.

* `Lineage.add` and `Lineage.link` build a register; `LineageError` says why a link is refused.
* `parent?`, `children`, `ancestors` and `depth` look at one leaf.
* `levels` walks down from the leaves without parent; `dispatchOrder` and `maxChainLength` read off
  the walk.
-/

namespace Inquiry

/-- Why two leaves cannot be linked. -/
inductive LineageError where
  | leafNotFound (leaf : Nat)
  | cycleDetected (parent child : Nat)
  | sharedChild (child existingParent : Nat)
  deriving DecidableEq, Repr

namespace LineageError

/-- A leaf in a message. -/
def leafText (leaf : Nat) : String := "LeafId(" ++ toString leaf ++ ")"

/-- The message for a link that is refused. -/
def message : LineageError → String
  | leafNotFound leaf => "Leaf " ++ leafText leaf ++ " not found"
  | cycleDetected parent child =>
    "Linking " ++ leafText parent ++ " -> " ++ leafText child ++ " would create a cycle"
  | sharedChild child existingParent =>
    "Leaf " ++ leafText child ++ " is already chained after " ++ leafText existingParent

end LineageError

/-- What a register knows of a leaf: the leaf that it follows, and those that follow it, the one linked
last first. -/
structure Kinship where
  parent : Option Nat
  children : List Nat
  deriving DecidableEq, Repr, Inhabited

/-- A register of leaves and their links. -/
structure Lineage where
  leaves : Std.TreeMap Nat Kinship

namespace Lineage

/-- The register without leaves. -/
def empty : Lineage := ⟨∅⟩

/-- Whether a leaf is registered. -/
def contains (l : Lineage) (leaf : Nat) : Bool := l.leaves.contains leaf

/-- Registers a leaf; one that is registered already stays as it is. -/
def add (l : Lineage) (leaf : Nat) : Lineage :=
  if l.contains leaf then l else ⟨l.leaves.insert leaf ⟨none, []⟩⟩

/-- The leaf that a leaf follows. -/
def parent? (l : Lineage) (leaf : Nat) : Option Nat :=
  l.leaves[leaf]?.bind (·.parent)

/-- The leaves that follow a leaf, the one linked last first. -/
def children (l : Lineage) (leaf : Nat) : List Nat :=
  (l.leaves[leaf]?.map (·.children)).getD []

/-- The number of registered leaves. -/
def leafCount (l : Lineage) : Nat := l.leaves.size

/-- The number of links. -/
def linkCount (l : Lineage) : Nat := l.leaves.toList.countP (·.2.parent.isSome)

/-- The first `n` leaves on the way up from a leaf, the nearest first. -/
def climb (l : Lineage) : Nat → Nat → List Nat
  | 0, _ => []
  | n + 1, leaf =>
    match l.parent? leaf with
    | none => []
    | some p => p :: climb l n p

/-- The leaves that a leaf follows directly or through others, the nearest first. There are fewer of
them than leaves. -/
def ancestors (l : Lineage) (leaf : Nat) : List Nat := l.climb l.leafCount leaf

/-- The number of leaves in front of a leaf in its chain. -/
def depth (l : Lineage) (leaf : Nat) : Nat := (l.ancestors leaf).length

/-- Whether a link would close a cycle. A leaf that nothing follows is nobody's ancestor. -/
def closesCycle (l : Lineage) (parent child : Nat) : Bool :=
  parent == child || (!(l.children child).isEmpty && (l.ancestors parent).contains child)

/-- The register with one link more, which is not checked. -/
def insertLink (l : Lineage) (parent child : Nat) : Lineage :=
  -- The two leaves are different, so that neither entry overwrites the other.
  let below := ⟨some parent, l.children child⟩
  let leaves := l.leaves.insert child below
  ⟨leaves.insert parent ⟨l.parent? parent, child :: l.children parent⟩⟩

/-- Links a leaf below another. -/
def link (l : Lineage) (parent child : Nat) : Except LineageError Lineage :=
  if !l.contains parent then .error (.leafNotFound parent)
  else if !l.contains child then .error (.leafNotFound child)
  else
    match l.parent? child with
    | some existing => .error (.sharedChild child existing)
    | none =>
      if l.closesCycle parent child then .error (.cycleDetected parent child)
      else .ok (l.insertLink parent child)

/-- The leaves that follow no other, in ascending order. -/
def roots (l : Lineage) : List Nat :=
  (l.leaves.toList.filter (·.2.parent.isNone)).map Prod.fst

/-- The leaves that follow a leaf, in ascending order. -/
def sortedChildren (l : Lineage) (leaf : Nat) : List Nat := (l.children leaf).mergeSort

/-- At most `n` levels of the forest, from the given one down. -/
def levelsFrom (l : Lineage) : Nat → List Nat → List (List Nat)
  | 0, _ => []
  | n + 1, level =>
    if level.isEmpty then [] else level :: levelsFrom l n (level.flatMap l.sortedChildren)

/-- The levels of the forest from the roots down, each in the order of the one above it, and the
children of a leaf in ascending order. -/
def levels (l : Lineage) : List (List Nat) := l.levelsFrom l.leafCount l.roots

/-- All leaves, level by level, so that each comes after the leaf that it follows. -/
def dispatchOrder (l : Lineage) : List Nat := l.levels.flatten

/-- The number of leaves in the longest chain. -/
def maxChainLength (l : Lineage) : Nat := l.levels.length

end Lineage
end Inquiry
