import Mathlib.Data.List.Sort
import Inquiry.Proofs.Task.Traversal

/-!
# Proofs.Task.Dispatch — the order in which leaves are dispatched

Leaves are dispatched depth by depth, and those at one depth by the ways that lead down to them, which are compared
as words are in a dictionary. This is the order in which walking down lists them, and also what counting links
comes to: leaves wait in a queue, the links behind the one in front are struck off, and a leaf joins the queue when
the last link to it has been. So the order is that of the leaves and their links, however a register came by them.

* `Lineage.route`, `Lineage.Precedes`: the way down to a leaf, and the order of leaves.
* `Lineage.Sound.levelAt_pairwise`, `Lineage.Sound.dispatchOrder_pairwise`: levels, and with them all leaves, are in
  order.
* `Lineage.Sound.dispatchOrder_congr`: registers of the same leaves and links dispatch in the same order.
* `Lineage.Countdown`, `Lineage.Dispatches`: counting links down, turn by turn.
* `Lineage.Sound.dispatches_row`, `Lineage.Sound.dispatches_levels`: one level, and all of them.
* `Lineage.dispatch_order_of_forest`: all that holds of the order in registers that can be built.
-/

namespace Inquiry
namespace Lineage

variable {l l' : Lineage} {leaf parent child k : Nat} {path : List Nat}

/-! ## The ways to the leaves -/

/-- The way down to a leaf: the top of its chain first, and the leaf itself last. -/
def route (l : Lineage) (leaf : Nat) : List Nat := (leaf :: l.ancestors leaf).reverse

/-- One leaf comes before another where leaves are listed by their depths, and by the ways to them where the depths
are the same. -/
def Precedes (l : Lineage) (a b : Nat) : Prop :=
  l.depth a < l.depth b ∨ l.depth a = l.depth b ∧ l.route a < l.route b

instance (l : Lineage) (a b : Nat) : Decidable (l.Precedes a b) := inferInstanceAs (Decidable (_ ∨ _ ∧ _))

theorem length_route : (l.route leaf).length = l.depth leaf + 1 := by
  rw [route, List.length_reverse, List.length_cons, depth]

theorem Precedes.asymm {a b : Nat} (hab : l.Precedes a b) : ¬ l.Precedes b a := by
  rcases hab with hlt | ⟨heq, hlt⟩
  · rintro (hgt | ⟨heq, -⟩) <;> omega
  · rintro (hgt | ⟨-, hgt⟩)
    · omega
    · exact List.lt_asymm hlt hgt

theorem Precedes.ne {a b : Nat} (hab : l.Precedes a b) : a ≠ b := by
  rintro rfl
  exact hab.asymm hab

/-- There is only one way to list leaves in order. -/
theorem eq_of_precedes {as bs : List Nat} (hperm : as.Perm bs) (has : as.Pairwise l.Precedes)
    (hbs : bs.Pairwise l.Precedes) : as = bs :=
  hperm.eq_of_pairwise (fun _ _ _ _ hab hba => absurd hba hab.asymm) has hbs

/-- Words of one length that differ are in the same order with whatever endings. -/
theorem append_lt_append {xs ys : List Nat} (hlength : xs.length = ys.length) (hlt : xs < ys)
    (ending ending' : List Nat) : xs ++ ending < ys ++ ending' := by
  induction xs generalizing ys with
  | nil =>
    rw [List.length_eq_zero_iff.1 hlength.symm] at hlt
    exact absurd hlt (List.not_lt_nil [])
  | cons x xs ih =>
    cases ys with
    | nil => cases hlength
    | cons y ys =>
      rw [List.cons_append, List.cons_append, List.cons_lt_cons_iff]
      rcases List.cons_lt_cons_iff.1 hlt with hxy | ⟨rfl, hrest⟩
      · exact .inl hxy
      · exact .inr ⟨rfl, ih (Nat.succ.inj hlength) hrest⟩

namespace Sound

theorem route_root (h : l.Sound) (hroot : l.parent? leaf = none) : l.route leaf = [leaf] := by
  have hancestors : l.ancestors leaf = [] := (Climbs.top hroot).unique (h.climbs leaf)
  rw [route, hancestors]
  rfl

theorem route_child (h : l.Sound) (hparent : l.parent? child = some parent) :
    l.route child = l.route parent ++ [child] := by
  have hancestors : l.ancestors child = parent :: l.ancestors parent :=
    (Climbs.up hparent (h.climbs parent)).unique (h.climbs child)
  rw [route, hancestors, List.reverse_cons, route]

/-! ## Levels in order -/

theorem sortedChildren_ascending (h : l.Sound) (leaf : Nat) : (l.sortedChildren leaf).Pairwise (· < ·) := by
  have hsorted : (l.sortedChildren leaf).Pairwise (· ≤ ·) := List.pairwise_mergeSort' (· ≤ ·) _
  have hnodup : (l.sortedChildren leaf).Nodup := (List.mergeSort_perm _ _).nodup_iff.2 (h.distinct leaf)
  exact hsorted.imp₂ (fun _ _ => Nat.lt_of_le_of_ne) hnodup

theorem mem_sortedChildren (h : l.Sound) : child ∈ l.sortedChildren parent ↔ l.parent? child = some parent := by
  rw [sortedChildren, List.mem_mergeSort, h.kin]

/-- The leaves at one depth are listed in the order of the ways to them. -/
theorem levelAt_pairwise (h : l.Sound) (k : Nat) :
    (l.levelAt k).Pairwise fun a b => l.route a < l.route b := by
  induction k with
  | zero =>
    refine l.roots_ascending.imp_of_mem fun {a b} ha hb hab => ?_
    rw [h.route_root (mem_roots_iff.1 ha).2, h.route_root (mem_roots_iff.1 hb).2]
    exact List.cons_lt_cons_iff.2 (.inl hab)
  | succ k ih =>
    refine List.pairwise_flatMap.2 ⟨fun p _ => ?_, ih.imp_of_mem fun {p q} hp hq hpq => ?_⟩
    · -- The ways to siblings differ in the last leaf only.
      refine (h.sortedChildren_ascending p).imp_of_mem fun {a b} ha hb hab => ?_
      rw [h.route_child (h.mem_sortedChildren.1 ha), h.route_child (h.mem_sortedChildren.1 hb)]
      exact List.append_left_lt (List.cons_lt_cons_iff.2 (.inl hab))
    · -- Those to leaves with different parents differ before, where they are equally long.
      intro a ha b hb
      rw [h.route_child (h.mem_sortedChildren.1 ha), h.route_child (h.mem_sortedChildren.1 hb)]
      refine append_lt_append ?_ hpq _ _
      rw [length_route, length_route, (h.mem_levelAt.1 hp).2, (h.mem_levelAt.1 hq).2]

theorem levelAt_nodup (h : l.Sound) (k : Nat) : (l.levelAt k).Nodup := by
  refine (h.levelAt_pairwise k).imp fun {a b} hab heq => ?_
  rw [heq] at hab
  exact List.lt_irrefl _ hab

theorem dispatchOrder_eq (h : l.Sound) : l.dispatchOrder = (List.range l.height).flatMap l.levelAt := by
  rw [dispatchOrder, h.levels_eq, ← List.flatMap_def]

theorem mem_dispatchOrder (h : l.Sound) : leaf ∈ l.dispatchOrder ↔ l.contains leaf = true := by
  rw [h.dispatchOrder_eq, List.mem_flatMap]
  constructor
  · rintro ⟨k, -, hleaf⟩
    exact (h.mem_levelAt.1 hleaf).1
  · intro hleaf
    exact ⟨l.depth leaf, List.mem_range.2 (height_le.1 (Nat.le_refl _) leaf hleaf), h.mem_levelAt.2 ⟨hleaf, rfl⟩⟩

theorem dispatchOrder_pairwise (h : l.Sound) : l.dispatchOrder.Pairwise l.Precedes := by
  rw [h.dispatchOrder_eq]
  refine List.pairwise_flatMap.2 ⟨fun k _ => ?_, List.pairwise_lt_range.imp fun hjk a ha b hb => ?_⟩
  · refine (h.levelAt_pairwise k).imp_of_mem fun {a b} ha hb hab => .inr ⟨?_, hab⟩
    rw [(h.mem_levelAt.1 ha).2, (h.mem_levelAt.1 hb).2]
  · left
    rwa [(h.mem_levelAt.1 ha).2, (h.mem_levelAt.1 hb).2]

theorem dispatchOrder_nodup (h : l.Sound) : l.dispatchOrder.Nodup :=
  h.dispatchOrder_pairwise.imp Precedes.ne

theorem dispatchOrder_perm (h : l.Sound) : l.dispatchOrder.Perm l.leaves.keys :=
  (List.perm_ext_iff_of_nodup h.dispatchOrder_nodup l.keys_nodup).2 fun _ =>
    h.mem_dispatchOrder.trans mem_keys.symm

/-- A leaf that lies less deep than another is dispatched earlier. -/
theorem idxOf_lt_idxOf (h : l.Sound) {a b : Nat} (ha : l.contains a = true) (hb : l.contains b = true)
    (hdepth : l.depth a < l.depth b) : l.dispatchOrder.idxOf a < l.dispatchOrder.idxOf b := by
  have hi := List.idxOf_lt_length_of_mem (h.mem_dispatchOrder.2 ha)
  have hj := List.idxOf_lt_length_of_mem (h.mem_dispatchOrder.2 hb)
  rcases Nat.lt_trichotomy (l.dispatchOrder.idxOf a) (l.dispatchOrder.idxOf b) with hlt | heq | hgt
  · exact hlt
  · obtain rfl : a = b := (List.idxOf_inj (h.mem_dispatchOrder.2 ha)).1 heq
    exact absurd hdepth (Nat.lt_irrefl _)
  · have hba := List.pairwise_iff_getElem.1 h.dispatchOrder_pairwise _ _ hj hi hgt
    rw [List.getElem_idxOf, List.getElem_idxOf] at hba
    exact absurd hba (Precedes.asymm (.inl hdepth))

end Sound

/-! ## Registers of one forest -/

theorem Climbs.congr (hparent : ∀ leaf, l'.parent? leaf = l.parent? leaf) (h : l.Climbs leaf path) :
    l'.Climbs leaf path := by
  induction h with
  | top root => exact .top ((hparent _).trans root)
  | up follows _ ih => exact .up ((hparent _).trans follows) ih

/-- Only registered leaves follow others. -/
theorem Sound.parent?_eq_none (h : l.Sound) (hleaf : ¬ l.contains leaf = true) : l.parent? leaf = none :=
  Option.eq_none_iff_forall_ne_some.2 fun p hparent => hleaf (h.known p leaf hparent).2

/-- Registers of the same leaves and links dispatch in the same order. -/
theorem Sound.dispatchOrder_congr (h : l.Sound) (h' : l'.Sound)
    (hleaves : ∀ leaf, l'.contains leaf = true ↔ l.contains leaf = true)
    (hlinks : ∀ leaf, l.contains leaf = true → l'.parent? leaf = l.parent? leaf) :
    l'.dispatchOrder = l.dispatchOrder := by
  have hparent : ∀ leaf, l'.parent? leaf = l.parent? leaf := by
    intro leaf
    by_cases hleaf : l.contains leaf = true
    · exact hlinks leaf hleaf
    · rw [h.parent?_eq_none hleaf, h'.parent?_eq_none (mt (hleaves leaf).1 hleaf)]
  have hancestors : ∀ leaf, l'.ancestors leaf = l.ancestors leaf := fun leaf =>
    ((h.climbs leaf).congr hparent).unique (h'.climbs leaf)
  have hprecedes : l'.Precedes = l.Precedes := by
    funext a b
    simp only [Precedes, depth, route, hancestors]
  have hperm : l'.dispatchOrder.Perm l.dispatchOrder :=
    (List.perm_ext_iff_of_nodup h'.dispatchOrder_nodup h.dispatchOrder_nodup).2 fun leaf => by
      rw [h'.mem_dispatchOrder, h.mem_dispatchOrder, hleaves]
  refine eq_of_precedes hperm ?_ h.dispatchOrder_pairwise
  rw [← hprecedes]
  exact h'.dispatchOrder_pairwise

/-! ## Counting links down -/

/-- The links to a leaf: how often it is listed below another. -/
def linksTo (l : Lineage) (leaf : Nat) : Nat := (l.leaves.keys.flatMap l.children).count leaf

/-- Where counting down stands: the links to each leaf that have not been struck off, and the leaves that wait for
their turn. -/
structure Countdown where
  left : Nat → Nat
  queue : List Nat

/-- Strikes off a link to a leaf, which is queued if it was the last one. -/
def Countdown.strike (s : Countdown) (leaf : Nat) : Countdown where
  left := Function.update s.left leaf (s.left leaf - 1)
  queue := if s.left leaf - 1 = 0 then s.queue ++ [leaf] else s.queue

/-- The leaves that are dispatched until the queue is empty. In a turn the first leaf of the queue is dispatched, and
the links behind it are struck off, none of which has been struck off before. -/
inductive Dispatches (l : Lineage) : Countdown → List Nat → Prop where
  | done {left : Nat → Nat} : Dispatches l ⟨left, []⟩ []
  | turn {left : Nat → Nat} {leaf : Nat} {rest order : List Nat}
      (unstruck : ∀ child ∈ l.children leaf, 0 < left child)
      (next : Dispatches l ((l.sortedChildren leaf).foldl Countdown.strike ⟨left, rest⟩) order) :
      Dispatches l ⟨left, leaf :: rest⟩ (leaf :: order)

theorem Dispatches.unique {s : Countdown} {order order' : List Nat} (h : l.Dispatches s order)
    (h' : l.Dispatches s order') : order' = order := by
  induction h generalizing order' with
  | done =>
    cases h'
    rfl
  | turn _ _ ih =>
    cases h' with
    | turn _ next' => rw [ih next']

/-- Different leaves with one link left each are queued as they are struck off. -/
theorem foldl_strike {leaves queue : List Nat} {left : Nat → Nat} (hnodup : leaves.Nodup)
    (hone : ∀ leaf ∈ leaves, left leaf = 1) :
    leaves.foldl Countdown.strike ⟨left, queue⟩ =
      ⟨fun leaf => if leaf ∈ leaves then 0 else left leaf, queue ++ leaves⟩ := by
  induction leaves generalizing left queue with
  | nil => simp
  | cons leaf leaves ih =>
    obtain ⟨hfirst, hrest⟩ := List.nodup_cons.1 hnodup
    have hstrike : Countdown.strike ⟨left, queue⟩ leaf = ⟨Function.update left leaf 0, queue ++ [leaf]⟩ := by
      simp [Countdown.strike, hone leaf List.mem_cons_self]
    have hone' : ∀ other ∈ leaves, Function.update left leaf 0 other = 1 := by
      intro other hother
      have hne : other ≠ leaf := ne_of_mem_of_not_mem hother hfirst
      rw [Function.update_of_ne hne]
      exact hone other (List.mem_cons_of_mem _ hother)
    rw [List.foldl_cons, hstrike, ih hrest hone', List.append_assoc, List.singleton_append]
    congr 1
    funext other
    by_cases heq : other = leaf
    · simp [heq]
    · simp [heq]

namespace Sound

/-- A row of leaves is dispatched as it stands in front of the queue, and the leaves below it come to stand behind
the others, since each has the one link that is struck off. -/
theorem dispatches_row (h : l.Sound) {row behind order : List Nat} {left : Nat → Nat} (hnodup : row.Nodup)
    (hone : ∀ p ∈ row, ∀ c ∈ l.children p, left c = 1)
    (hnext : ∀ left' : Nat → Nat, (∀ p ∉ row, ∀ c ∈ l.children p, left' c = left c) →
      l.Dispatches ⟨left', behind ++ row.flatMap l.sortedChildren⟩ order) :
    l.Dispatches ⟨left, row ++ behind⟩ (row ++ order) := by
  induction row generalizing left behind with
  | nil => simpa using hnext left fun _ _ _ _ => rfl
  | cons leaf row ih =>
    obtain ⟨hfirst, hrest⟩ := List.nodup_cons.1 hnodup
    have hown : ∀ c ∈ l.children leaf, left c = 1 := hone leaf List.mem_cons_self
    -- Nobody else leads to the children of this leaf.
    have hother : ∀ p, p ≠ leaf → ∀ c ∈ l.children p, c ∉ l.sortedChildren leaf := fun p hp c hc hmem =>
      hp (h.parent_unique hc (List.mem_mergeSort.1 hmem))
    -- The turn of the first leaf queues its children behind everything else.
    rw [List.cons_append, List.cons_append]
    refine .turn (fun c hc => (hown c hc).symm ▸ Nat.one_pos) ?_
    rw [foldl_strike ((h.sortedChildren_ascending leaf).imp Nat.ne_of_lt)
      fun c hc => hown c (List.mem_mergeSort.1 hc), List.append_assoc]
    refine ih hrest (fun p hp c hc => ?_) fun left' hleft' => ?_
    · rw [if_neg (hother p (ne_of_mem_of_not_mem hp hfirst) c hc)]
      exact hone p (List.mem_cons_of_mem _ hp) c hc
    · rw [List.append_assoc, ← List.flatMap_cons]
      refine hnext left' fun p hp c hc => ?_
      obtain ⟨hne, hp⟩ := not_or.1 (mt List.mem_cons.2 hp)
      rw [hleft' p hp c hc, if_neg (hother p hne c hc)]

/-- From a level on, the levels are dispatched one after the other. -/
theorem dispatches_levels (h : l.Sound) {n : Nat} {left : Nat → Nat} (hn : l.height ≤ k + n)
    (hone : ∀ p, k ≤ l.depth p → ∀ c ∈ l.children p, left c = 1) :
    l.Dispatches ⟨left, l.levelAt k⟩ ((List.range' k n).flatMap l.levelAt) := by
  induction n generalizing k left with
  | zero =>
    have hnil : l.levelAt k = [] := h.levelAt_eq_nil.2 hn
    rw [hnil]
    exact .done
  | succ n ih =>
    rw [List.range'_succ, List.flatMap_cons]
    have hrow : l.Dispatches ⟨left, l.levelAt k ++ []⟩
        (l.levelAt k ++ (List.range' (k + 1) n).flatMap l.levelAt) := by
      refine h.dispatches_row (h.levelAt_nodup k) (fun p hp c hc => ?_) fun left' hleft' => ?_
      · exact hone p (h.mem_levelAt.1 hp).2.ge c hc
      · -- Only links behind leaves of this level have been struck off.
        refine ih (k := k + 1) (by omega) fun p hp c hc => ?_
        have hbelow : p ∉ l.levelAt k := fun hmem => by
          rw [(h.mem_levelAt.1 hmem).2] at hp
          exact Nat.not_succ_le_self k hp
        rw [hleft' p hbelow c hc]
        exact hone p (Nat.le_of_succ_le hp) c hc
    rwa [List.append_nil] at hrow

/-! ## Where counting down starts -/

theorem nodup_linked_leaves (h : l.Sound) : (l.leaves.keys.flatMap l.children).Nodup :=
  List.nodup_flatMap.2 ⟨fun p _ => h.distinct p,
    l.keys_nodup.imp fun hne _ hp hq => hne (h.parent_unique hp hq)⟩

theorem mem_linked_leaves (h : l.Sound) :
    child ∈ l.leaves.keys.flatMap l.children ↔ (l.parent? child).isSome = true := by
  rw [List.mem_flatMap, Option.isSome_iff_exists]
  refine exists_congr fun p => ?_
  rw [mem_keys, ← h.kin]
  exact and_iff_right_of_imp fun hparent => (h.known p child hparent).1

/-- There is one link to a leaf that follows another, and none to a top. -/
theorem linksTo_eq (h : l.Sound) (leaf : Nat) : l.linksTo leaf = if (l.parent? leaf).isSome then 1 else 0 := by
  rw [linksTo, h.nodup_linked_leaves.count]
  simp only [h.mem_linked_leaves]

theorem roots_perm (h : l.Sound) : (l.leaves.keys.filter fun leaf => l.linksTo leaf = 0).Perm l.roots := by
  refine (List.perm_ext_iff_of_nodup (l.keys_nodup.filter _) l.nodup_roots).2 fun leaf => ?_
  rw [List.mem_filter, mem_keys, mem_roots_iff, decide_eq_true_eq, h.linksTo_eq]
  cases l.parent? leaf <;> simp

/-- The tops wait in ascending order, whatever order they have been found in. -/
theorem mergeSort_tops (h : l.Sound) {tops : List Nat}
    (hperm : tops.Perm (l.leaves.keys.filter fun leaf => l.linksTo leaf = 0)) : tops.mergeSort = l.roots := by
  have hsorted : tops.mergeSort.Pairwise (· ≤ ·) := List.pairwise_mergeSort' (· ≤ ·) _
  refine ((List.mergeSort_perm _ _).trans (hperm.trans h.roots_perm)).eq_of_pairwise ?_ hsorted
    (l.roots_ascending.imp Nat.le_of_lt)
  exact fun a b _ _ hab hba => Nat.le_antisymm hab hba

/-- Counting down from the tops dispatches the leaves in the order in which walking down lists them. -/
theorem dispatches_iff (h : l.Sound) {tops order : List Nat}
    (hperm : tops.Perm (l.leaves.keys.filter fun leaf => l.linksTo leaf = 0)) :
    l.Dispatches ⟨l.linksTo, tops.mergeSort⟩ order ↔ order = l.dispatchOrder := by
  have hone : ∀ p, 0 ≤ l.depth p → ∀ c ∈ l.children p, l.linksTo c = 1 := by
    intro p _ c hc
    rw [h.linksTo_eq, (h.kin p c).2 hc]
    rfl
  have hlevels : l.Dispatches ⟨l.linksTo, l.levelAt 0⟩ ((List.range' 0 l.height).flatMap l.levelAt) :=
    h.dispatches_levels (by omega) hone
  rw [← List.range_eq_range', ← h.dispatchOrder_eq, levelAt, ← h.mergeSort_tops hperm] at hlevels
  refine ⟨hlevels.unique, ?_⟩
  rintro rfl
  exact hlevels

end Sound

/-! ## The order of a forest -/

/-- The order in which a register of the given leaves dispatches them. -/
structure InDispatchOrder (l : Lineage) (leaves : List Nat) : Prop where
  /-- Each leaf is dispatched once. -/
  complete : l.dispatchOrder.Perm leaves
  parentsFirst : ∀ p c, l.parent? c = some p → l.dispatchOrder.idxOf p < l.dispatchOrder.idxOf c
  sorted : l.dispatchOrder.Pairwise l.Precedes
  /-- What leaves are sorted by is the way up from them, read backwards, and how long it is. -/
  ways : ∀ leaf, ∃ path, l.Climbs leaf path ∧ l.depth leaf = path.length ∧ l.route leaf = path.reverse ++ [leaf]
  /-- Counting down comes to this order and to no other, whatever order the tops have been found in. -/
  counted : ∀ tops : List Nat, tops.Perm (l.leaves.keys.filter fun leaf => l.linksTo leaf = 0) → ∀ order,
    l.Dispatches ⟨l.linksTo, tops.mergeSort⟩ order ↔ order = l.dispatchOrder

/-- Whatever is done to a register, it dispatches the leaves that have been added, parents first, by their depths and
the ways to them; and in the same order as every other register of the same leaves and links. -/
theorem dispatch_order_of_forest (operations : List Operation) :
    (built operations).InDispatchOrder (leavesAdded operations) ∧
    ∀ operations' : List Operation, (leavesAdded operations').Perm (leavesAdded operations) →
      (∀ leaf ∈ leavesAdded operations, (built operations').parent? leaf = (built operations).parent? leaf) →
      (built operations').dispatchOrder = (built operations).dispatchOrder := by
  have hsound := built_sound operations
  refine ⟨?_, fun operations' hleaves hparent => ?_⟩
  · exact {
      complete := hsound.dispatchOrder_perm.trans (keys_perm_leavesAdded operations)
      parentsFirst := fun p c hparent => by
        obtain ⟨hp, hc⟩ := hsound.known p c hparent
        refine hsound.idxOf_lt_idxOf hp hc ?_
        rw [hsound.depth_child hparent]
        exact Nat.lt_succ_self _
      sorted := hsound.dispatchOrder_pairwise
      ways := fun leaf => ⟨_, hsound.climbs leaf, rfl, List.reverse_cons⟩
      counted := fun _ hperm _ => hsound.dispatches_iff hperm }
  · refine hsound.dispatchOrder_congr (built_sound operations') (fun leaf => ?_) fun leaf hleaf => ?_
    · rw [contains_built, contains_built, hleaves.mem_iff]
    · exact hparent leaf ((contains_built operations).1 hleaf)

/-- Two trees and a leaf on its own. -/
def twoTrees : List Operation :=
  [.add 1, .add 7, .add 4, .add 2, .add 9, .add 0, .add 3, .link 1 9, .link 4 2, .link 4 0, .link 2 7]

/-- The same leaves and links in another order, with links that are refused and a leaf that is added again. -/
def twoTreesAgain : List Operation :=
  [.add 0, .add 4, .link 4 0, .add 2, .link 9 2, .add 7, .link 2 7, .link 4 2, .link 7 4, .add 9, .add 3, .add 2,
    .add 1, .link 3 7, .link 1 9]

/-- At the second depth nine comes first, since it is below one. -/
theorem dispatch_order_of_two_trees :
    (leavesAdded twoTreesAgain).Perm (leavesAdded twoTrees) ∧
      (∀ leaf ∈ leavesAdded twoTrees, (built twoTreesAgain).parent? leaf = (built twoTrees).parent? leaf) ∧
      (built twoTreesAgain).dispatchOrder = [1, 3, 4, 9, 0, 2, 7] ∧
      (built twoTrees).Dispatches ⟨(built twoTrees).linksTo, [4, 1, 3].mergeSort⟩ [1, 3, 4, 9, 0, 2, 7] := by
  obtain ⟨hinOrder, hsame⟩ := dispatch_order_of_forest twoTrees
  have hleaves : (leavesAdded twoTreesAgain).Perm (leavesAdded twoTrees) := by decide +kernel
  have hlinks : ∀ leaf ∈ leavesAdded twoTrees,
      (built twoTreesAgain).parent? leaf = (built twoTrees).parent? leaf := by decide +kernel
  have horder : (built twoTrees).dispatchOrder = [1, 3, 4, 9, 0, 2, 7] :=
    eq_of_precedes (hinOrder.complete.trans (by decide +kernel)) hinOrder.sorted (by decide +kernel)
  have htops : [4, 1, 3].Perm
      ((built twoTrees).leaves.keys.filter fun leaf => (built twoTrees).linksTo leaf = 0) := by decide +kernel
  exact ⟨hleaves, hlinks, (hsame twoTreesAgain hleaves hlinks).trans horder,
    (hinOrder.counted [4, 1, 3] htops _).2 horder.symm⟩

end Lineage
end Inquiry
