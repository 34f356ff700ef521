import Inquiry.Config.Error

/-!
# Config.Place — where an analysis stands in a configuration

The place of an analysis is a path: the key at the top, the index of the entry, the slot in its group
if the entry is one, and the number of `then` links from there. `Place.label` writes it as text.
-/

namespace Inquiry

/-- The place of an analysis. -/
structure Place where
  key : String
  index : Nat
  slot : Option Nat
  depth : Nat
  deriving DecidableEq, Repr

namespace Place

/-- The label of an entry: its key and index. -/
def entryLabel (key : String) (index : Nat) : String :=
  key ++ "[" ++ toString index ++ "]"

/-- The label of a chain: that of its entry, and the slot of a member of a group. -/
def headLabel (key : String) (index : Nat) : Option Nat → String
  | none => entryLabel key index
  | some slot => entryLabel key index ++ "[" ++ toString slot ++ "]"

/-- What the label of a chain is followed by at a number of `then` links. -/
def chainSuffix : Nat → String
  | 0 => ""
  | 1 => ".then"
  | n => ".then[" ++ toString n ++ "]"

/-- The label of a place. -/
def label (p : Place) : String :=
  headLabel p.key p.index p.slot ++ chainSuffix p.depth

/-- The place one `then` link further. -/
def next (p : Place) : Place := { p with depth := p.depth + 1 }

end Place
end Inquiry
