/-!
# Text.Keyed — entries under names, and sets of texts

Lists of entries, each under a name, read as maps; and finite sets of texts. Names and texts are in
ascending order of their code points wherever an order shows.

* `Keyed.find?` looks a name up; where names repeat, the last entry counts.
* `Keyed.ofEntries` is the map that a list of entries stands for, in ascending order of names.
* `TextSet` is a list of texts in strictly ascending order.
-/

namespace Inquiry

/-- Entries, each under a name. -/
abbrev Keyed (α : Type) := List (String × α)

namespace Keyed

variable {α : Type}

/-- The value of the last entry of a name. -/
def find? (name : String) : Keyed α → Option α
  | [] => none
  | (k, v) :: rest => (find? name rest).or (if k = name then some v else none)

/-- The number of entries of a name. -/
def count (name : String) (entries : Keyed α) : Nat :=
  entries.countP (·.1 == name)

/-- Adds an entry to entries in ascending order of names, unless they have one of that name. -/
def insertNew (k : String) (v : α) : Keyed α → Keyed α
  | [] => [(k, v)]
  | (k', v') :: rest =>
    if k < k' then (k, v) :: (k', v') :: rest
    else if k = k' then (k', v') :: rest
    else (k', v') :: insertNew k v rest

/-- The entries as a map: in ascending order of names, the last of each name. -/
def ofEntries : Keyed α → Keyed α
  | [] => []
  | (k, v) :: rest => insertNew k v (ofEntries rest)

/-- Whether names are in strictly ascending order. -/
def Ascending (entries : Keyed α) : Prop :=
  (entries.map Prod.fst).Pairwise (· < ·)

end Keyed

/-- A finite set of texts, listed in strictly ascending order. -/
structure TextSet where
  toList : List String
  ascending : toList.Pairwise (· < ·)
  deriving DecidableEq

namespace TextSet

instance : Repr TextSet := ⟨fun s n => reprPrec s.toList n⟩

/-- Adds a text to texts in ascending order. -/
def insertOrdered (s : String) : List String → List String
  | [] => [s]
  | t :: rest =>
    if s < t then s :: t :: rest
    else if s = t then t :: rest
    else t :: insertOrdered s rest

theorem mem_insertOrdered {s u : String} {ts : List String} :
    u ∈ insertOrdered s ts ↔ u = s ∨ u ∈ ts := by
  induction ts with
  | nil => simp [insertOrdered]
  | cons t rest ih =>
    simp only [insertOrdered]
    split
    · simp
    · split
      · rename_i h
        subst h
        simp
      · simp only [List.mem_cons, ih]
        constructor
        · rintro (h | h | h) <;> simp [h]
        · rintro (h | h | h) <;> simp [h]

theorem pairwise_insertOrdered {s : String} {ts : List String} (h : ts.Pairwise (· < ·)) :
    (insertOrdered s ts).Pairwise (· < ·) := by
  induction ts with
  | nil => simp [insertOrdered]
  | cons t rest ih =>
    obtain ⟨ht, hrest⟩ := List.pairwise_cons.1 h
    simp only [insertOrdered]
    split
    · rename_i hst
      refine List.pairwise_cons.2 ⟨?_, h⟩
      intro u hu
      rcases List.mem_cons.1 hu with rfl | hu
      · exact hst
      · exact String.lt_trans hst (ht u hu)
    · split
      · exact h
      · rename_i hst hne
        refine List.pairwise_cons.2 ⟨?_, ih hrest⟩
        intro u hu
        rcases mem_insertOrdered.1 hu with rfl | hu
        · have hle : t ≤ u := String.not_lt.1 hst
          apply Decidable.byContradiction
          intro hlt
          exact hne (String.le_antisymm (String.not_lt.1 hlt) hle)
        · exact ht u hu

/-- The set with no text. -/
def empty : TextSet := ⟨[], .nil⟩

/-- The set with one text more. -/
def insert (s : String) (set : TextSet) : TextSet :=
  ⟨insertOrdered s set.toList, pairwise_insertOrdered set.ascending⟩

/-- The set of the texts of a list. -/
def ofList (ts : List String) : TextSet := ts.foldr insert empty

instance : Inhabited TextSet := ⟨empty⟩

@[simp] theorem mem_toList_insert {s u : String} {set : TextSet} :
    u ∈ (set.insert s).toList ↔ u = s ∨ u ∈ set.toList := mem_insertOrdered

@[simp] theorem mem_toList_ofList {u : String} {ts : List String} :
    u ∈ (ofList ts).toList ↔ u ∈ ts := by
  induction ts with
  | nil => simp [ofList, empty]
  | cons t rest ih =>
    have : ofList (t :: rest) = (ofList rest).insert t := rfl
    simp [this, ih]

end TextSet
end Inquiry
