/-!
# Corpus.Tally — counting interactions and their authors

A tally counts interactions and remembers their authors, each once. `Tallies` keeps one tally for each
key that has occurred, in the order in which they first did.
-/

namespace Inquiry

/-- A count of interactions, and the distinct authors of them. -/
structure Tally where
  interactions : Nat
  authors : List String
  deriving DecidableEq, Repr

namespace Tally

/-- The tally of nothing. -/
def empty : Tally := ⟨0, []⟩

/-- The tally with one interaction more. -/
def add (t : Tally) (author : String) : Tally :=
  ⟨t.interactions + 1, if author ∈ t.authors then t.authors else author :: t.authors⟩

/-- The number of distinct authors. -/
def uniqueAuthors (t : Tally) : Nat := t.authors.length

end Tally

/-- One tally for each key. -/
abbrev Tallies (κ : Type) := List (κ × Tally)

namespace Tallies

variable {κ : Type} [DecidableEq κ]

/-- The tallies with one interaction more under a key. -/
def add (k : κ) (author : String) : Tallies κ → Tallies κ
  | [] => [(k, Tally.empty.add author)]
  | (k', t) :: rest =>
    if k = k' then (k', t.add author) :: rest else (k', t) :: add k author rest

/-- The tallies of a list of items, each under its key if it has one. -/
def ofItems {α : Type} (key : α → Option κ) (author : α → String) (items : List α) : Tallies κ :=
  items.foldl (fun tallies item =>
    match key item with
    | some k => add k (author item) tallies
    | none => tallies) []

end Tallies
end Inquiry
