import Mathlib.Data.List.Dedup
import Mathlib.Data.List.Perm.Subperm
import Mathlib.Logic.Relation
import Inquiry.Proofs.Task.Rows

/-!
# Proofs.Task.Forest — every register is a forest

A register is built by adding leaves and linking them, in any order; a link that is refused leaves it as it is.
However it has been built, each leaf has one way up, which ends at a leaf without parent.

* `Lineage.Operation`, `Lineage.built`: what is done to a register, and what comes of it.
* `Lineage.Climbs`: the way up from a leaf, to where it ends.
* `Lineage.Sound`: what every operation keeps; `Sound.link` is the step that matters.
* `Lineage.Sound.climbs`: the way up is what the register says the ancestors are.
* `Lineage.built_sound`: every register is sound.
* `Lineage.contains_built`, `Lineage.leafCount_built`, `Lineage.linkCount_built`: what has been done is what is there.
-/

namespace Inquiry
namespace Lineage

variable {l l' : Lineage} {leaf other parent child : Nat} {path path' : List Nat}

/-! ## Operations -/

/-- What can be done to a register. -/
inductive Operation where
  | add (leaf : Nat)
  | link (parent child : Nat)
  deriving DecidableEq, Repr

/-- The leaf that is added. -/
def Operation.added? : Operation → Option Nat
  | add leaf => some leaf
  | link .. => none

/-- The register after an operation. A link that is refused leaves it as it is. -/
def apply (l : Lineage) : Operation → Lineage
  | .add leaf => l.add leaf
  | .link parent child =>
    match l.link parent child with
    | .ok l' => l'
    | .error _ => l

/-- Whether an operation makes a link. -/
def makesLink (l : Lineage) : Operation → Bool
  | .add _ => false
  | .link parent child => (l.link parent child).isOk

/-- The register that operations build. -/
def built (operations : List Operation) : Lineage := operations.foldl apply empty

/-- The number of links that operations make. -/
def linksMade (l : Lineage) : List Operation → Nat
  | [] => 0
  | operation :: rest => (if l.makesLink operation then 1 else 0) + (l.apply operation).linksMade rest

/-- The leaves that operations add, each once. -/
def leavesAdded (operations : List Operation) : List Nat := (operations.filterMap Operation.added?).dedup

/-! ## What an operation changes -/

theorem parent?_add : (l.add leaf).parent? other = l.parent? other := by
  cases h : l.contains leaf with
  | true => rw [add, if_pos h]
  | false =>
    rw [parent?, parent?, getElem?_add h]
    split
    · rename_i heq
      rw [← heq, getElem?_of_isNew h]
      rfl
    · rfl

theorem children_add : (l.add leaf).children other = l.children other := by
  cases h : l.contains leaf with
  | true => rw [add, if_pos h]
  | false =>
    rw [children, children, getElem?_add h]
    split
    · rename_i heq
      rw [← heq, getElem?_of_isNew h]
      rfl
    · rfl

theorem parent?_insertLink (hne : parent ≠ child) :
    (l.insertLink parent child).parent? other = if other = child then some parent else l.parent? other := by
  rw [parent?, getElem?_insertLink]
  by_cases hp : parent = other
  · subst hp
    simp [hne]
  · by_cases hc : child = other
    · simp [hp, hc]
    · simp [hp, hc, Ne.symm hc, parent?]

theorem children_insertLink : (l.insertLink parent child).children other =
    if other = parent then child :: l.children parent else l.children other := by
  rw [children, getElem?_insertLink]
  by_cases hp : parent = other
  · simp [hp]
  · by_cases hc : child = other
    · subst hc
      simp [hp, Ne.symm hp]
    · simp [hp, hc, Ne.symm hp, children]

/-- When a link is made. -/
theorem link_eq_ok : l.link parent child = .ok l' ↔ l.contains parent = true ∧ l.contains child = true ∧
    l.parent? child = none ∧ l.closesCycle parent child = false ∧ l' = l.insertLink parent child := by
  unfold link
  cases l.contains parent <;> cases l.contains child <;> cases l.parent? child <;>
    cases l.closesCycle parent child <;> simp [eq_comm]

theorem ne_of_closesCycle (h : l.closesCycle parent child = false) : parent ≠ child := by
  rw [closesCycle, Bool.or_eq_false_iff] at h
  exact ne_of_beq_false h.1

/-! ## The way up -/

/-- A leaf is directly in front of another. -/
def Leads (l : Lineage) (parent child : Nat) : Prop := l.parent? child = some parent

/-- The way up from a leaf, to where it ends. -/
inductive Climbs (l : Lineage) : Nat → List Nat → Prop where
  | top {leaf : Nat} (root : l.parent? leaf = none) : Climbs l leaf []
  | up {leaf parent : Nat} {path : List Nat} (follows : l.parent? leaf = some parent)
      (rest : Climbs l parent path) : Climbs l leaf (parent :: path)

namespace Climbs

theorem unique (h : l.Climbs leaf path) (h' : l.Climbs leaf path') : path' = path := by
  induction h generalizing path' with
  | top root =>
    cases h' with
    | top => rfl
    | up follows => simp [root] at follows
  | up follows _ ih =>
    cases h' with
    | top root => simp [follows] at root
    | up follows' rest' =>
      obtain rfl := Option.some.inj (follows.symm.trans follows')
      rw [ih rest']

/-- From a leaf on the way, there is less of the way left. -/
theorem shorter (h : l.Climbs leaf path) (hmem : other ∈ path) :
    ∃ path', l.Climbs other path' ∧ path'.length < path.length := by
  induction h with
  | top => cases hmem
  | up _ rest ih =>
    rcases List.mem_cons.1 hmem with rfl | hmem
    · exact ⟨_, rest, Nat.lt_succ_self _⟩
    · obtain ⟨path', hpath', hlt⟩ := ih hmem
      exact ⟨path', hpath', Nat.lt_succ_of_lt hlt⟩

theorem not_mem (h : l.Climbs leaf path) : leaf ∉ path := by
  intro hmem
  obtain ⟨path', hpath', hlt⟩ := h.shorter hmem
  rw [h.unique hpath'] at hlt
  exact Nat.lt_irrefl _ hlt

theorem nodup (h : l.Climbs leaf path) : (leaf :: path).Nodup := by
  induction h with
  | top => exact List.nodup_singleton _
  | up follows rest ih => exact List.nodup_cons.2 ⟨(Climbs.up follows rest).not_mem, ih⟩

/-- A bound that the way does not exceed does not cut it short. -/
theorem climb_eq (h : l.Climbs leaf path) {n : Nat} (hn : path.length ≤ n) : l.climb n leaf = path := by
  induction h generalizing n with
  | top root =>
    cases n with
    | zero => rfl
    | succ n => rw [climb, root]
  | up follows _ ih =>
    obtain ⟨n, rfl⟩ : ∃ m, n = m + 1 := ⟨n - 1, by simp only [List.length_cons] at hn; omega⟩
    rw [climb, follows]
    exact congrArg _ (ih (Nat.le_of_succ_le_succ hn))

/-- A leaf is on the way up from another exactly if that one follows it, directly or through others. -/
theorem mem_iff (h : l.Climbs leaf path) :
    other ∈ path ↔ Relation.TransGen l.Leads other leaf := by
  induction h with
  | top root =>
    refine ⟨fun hmem => (List.not_mem_nil hmem).elim, fun htrans => ?_⟩
    obtain ⟨p, -, hp⟩ := Relation.TransGen.tail'_iff.1 htrans
    simp [Leads, root] at hp
  | up follows _ ih =>
    rw [List.mem_cons, ih]
    constructor
    · rintro (rfl | htrans)
      · exact .single follows
      · exact htrans.tail follows
    · intro htrans
      obtain ⟨p, hrefl, hp⟩ := Relation.TransGen.tail'_iff.1 htrans
      obtain rfl := Option.some.inj (follows.symm.trans hp)
      exact (Relation.reflTransGen_iff_eq_or_transGen.1 hrefl).imp_left Eq.symm

end Climbs

/-! ## Sound registers -/

/-- What every operation keeps: parents and children tell the same, and the way up from each leaf ends. -/
structure Sound (l : Lineage) : Prop where
  kin : ∀ p c, l.parent? c = some p ↔ c ∈ l.children p
  distinct : ∀ p, (l.children p).Nodup
  known : ∀ p c, l.parent? c = some p → l.contains p = true ∧ l.contains c = true
  grounded : ∀ leaf, ∃ path, l.Climbs leaf path

theorem length_keys (l : Lineage) : l.leaves.keys.length = l.leafCount := Std.TreeMap.length_keys

theorem mem_keys : leaf ∈ l.leaves.keys ↔ l.contains leaf = true := Std.TreeMap.mem_keys

/-- There are no more registered leaves than are counted. -/
theorem length_le_leafCount {leaves : List Nat} (hnodup : leaves.Nodup)
    (hknown : ∀ leaf ∈ leaves, l.contains leaf = true) : leaves.length ≤ l.leafCount := by
  rw [← l.length_keys]
  exact (List.subperm_of_subset hnodup fun leaf hleaf => mem_keys.2 (hknown leaf hleaf)).length_le

namespace Sound

theorem path_known (h : l.Sound) (hclimbs : l.Climbs leaf path) : ∀ p ∈ path, l.contains p = true := by
  induction hclimbs with
  | top => simp
  | up follows _ ih => exact List.forall_mem_cons.2 ⟨(h.known _ _ follows).1, ih⟩

/-- The way up is that of the ancestors, which are fewer than the leaves. -/
theorem climbs (h : l.Sound) (leaf : Nat) : l.Climbs leaf (l.ancestors leaf) := by
  obtain ⟨path, hpath⟩ := h.grounded leaf
  have hle : path.length ≤ l.leafCount :=
    length_le_leafCount (List.nodup_cons.1 hpath.nodup).2 (h.path_known hpath)
  rwa [ancestors, hpath.climb_eq hle]

theorem depth_lt (h : l.Sound) (hleaf : l.contains leaf = true) : l.depth leaf < l.leafCount :=
  length_le_leafCount (h.climbs leaf).nodup
    (List.forall_mem_cons.2 ⟨hleaf, h.path_known (h.climbs leaf)⟩)

theorem depth_root (h : l.Sound) (hroot : l.parent? leaf = none) : l.depth leaf = 0 :=
  congrArg List.length ((Climbs.top hroot).unique (h.climbs leaf))

theorem depth_child (h : l.Sound) (hparent : l.parent? child = some parent) :
    l.depth child = l.depth parent + 1 :=
  congrArg List.length ((Climbs.up hparent (h.climbs parent)).unique (h.climbs child))

/-- Nobody is listed below two leaves. -/
theorem parent_unique (h : l.Sound) {p q : Nat} (hp : child ∈ l.children p) (hq : child ∈ l.children q) : p = q := by
  have hparent := (h.kin p child).2 hp
  rw [(h.kin q child).2 hq] at hparent
  exact (Option.some.inj hparent).symm

/-- A link closes a cycle exactly if it goes to the leaf itself or to one that it follows. -/
theorem closesCycle_iff (h : l.Sound) :
    l.closesCycle parent child = true ↔ parent = child ∨ child ∈ l.ancestors parent := by
  have hchildren : child ∈ l.ancestors parent → l.children child ≠ [] := by
    intro hmem
    obtain ⟨c, hc, -⟩ := Relation.TransGen.head'_iff.1 ((h.climbs parent).mem_iff.1 hmem)
    exact List.ne_nil_of_mem ((h.kin child c).1 hc)
  simp only [closesCycle, Bool.or_eq_true, beq_iff_eq, Bool.and_eq_true, Bool.not_eq_true',
    List.isEmpty_eq_false_iff, List.contains_iff_mem]
  exact or_congr_right ⟨And.right, fun hmem => ⟨hchildren hmem, hmem⟩⟩

end Sound

/-! ## Operations keep registers sound -/

theorem empty_sound : empty.Sound := by
  have hparent : ∀ leaf, empty.parent? leaf = none := by simp [parent?, empty]
  have hchildren : ∀ leaf, empty.children leaf = [] := by simp [children, empty]
  refine ⟨fun p c => by simp [hparent, hchildren], fun p => by simp [hchildren], fun p c hc => ?_,
    fun leaf => ⟨[], .top (hparent leaf)⟩⟩
  rw [hparent] at hc
  cases hc

namespace Sound

theorem add (h : l.Sound) (leaf : Nat) : (l.add leaf).Sound := by
  have hclimbs : ∀ {other path}, l.Climbs other path → (l.add leaf).Climbs other path := by
    intro other path hpath
    induction hpath with
    | top root => exact .top (parent?_add.trans root)
    | up follows _ ih => exact .up (parent?_add.trans follows) ih
  refine ⟨fun p c => ?_, fun p => ?_, fun p c hc => ?_, fun other => ?_⟩
  · rw [parent?_add, children_add]
    exact h.kin p c
  · rw [children_add]
    exact h.distinct p
  · rw [parent?_add] at hc
    exact ⟨contains_add.2 (.inr (h.known p c hc).1), contains_add.2 (.inr (h.known p c hc).2)⟩
  · obtain ⟨path, hpath⟩ := h.grounded other
    exact ⟨path, hclimbs hpath⟩

/-- Where a link is made, the way up from the leaves below it goes on with the way up from the new parent. -/
theorem grounded_insertLink (h : l.Sound) (hne : parent ≠ child) (hroot : l.parent? child = none)
    (hapart : child ∉ l.ancestors parent) (leaf : Nat) :
    ∃ path, (l.insertLink parent child).Climbs leaf path := by
  have hkept : ∀ {other path}, l.Climbs other path → other ≠ child → child ∉ path →
      (l.insertLink parent child).Climbs other path := by
    intro other path hpath
    induction hpath with
    | top root =>
      intro hother _
      exact .top (by rw [parent?_insertLink hne, if_neg hother, root])
    | up follows _ ih =>
      intro hother hpath
      obtain ⟨hnext, hrest⟩ := not_or.1 (mt List.mem_cons.2 hpath)
      exact .up (by rw [parent?_insertLink hne, if_neg hother, follows]) (ih (Ne.symm hnext) hrest)
  have hchild : (l.insertLink parent child).Climbs child (parent :: l.ancestors parent) :=
    .up (by rw [parent?_insertLink hne, if_pos rfl]) (hkept (h.climbs parent) hne hapart)
  obtain ⟨path, hpath⟩ := h.grounded leaf
  induction hpath with
  | @top leaf root =>
    by_cases hleaf : leaf = child
    · rw [hleaf]
      exact ⟨_, hchild⟩
    · exact ⟨[], .top (by rw [parent?_insertLink hne, if_neg hleaf, root])⟩
  | @up leaf next path follows _ ih =>
    -- The child followed nobody, so that this leaf is another one.
    have hleaf : leaf ≠ child := by
      rintro rfl
      rw [hroot] at follows
      cases follows
    obtain ⟨path', hpath'⟩ := ih
    exact ⟨_, .up (by rw [parent?_insertLink hne, if_neg hleaf, follows]) hpath'⟩

theorem link (h : l.Sound) (hlink : l.link parent child = .ok l') : l'.Sound := by
  obtain ⟨hparent, hchild, hroot, hcycle, rfl⟩ := link_eq_ok.1 hlink
  have hopen : ¬l.closesCycle parent child = true := by simp [hcycle]
  obtain ⟨hne, hapart⟩ := not_or.1 (mt h.closesCycle_iff.2 hopen)
  have hnew : child ∉ l.children parent := fun hmem => by
    rw [← h.kin, hroot] at hmem
    cases hmem
  refine ⟨fun p c => ?_, fun p => ?_, fun p c hc => ?_, h.grounded_insertLink hne hroot hapart⟩
  · rw [parent?_insertLink hne, children_insertLink]
    by_cases hc : c = child
    · subst hc
      have hnone : ∀ q, c ∉ l.children q := fun q hmem => by
        rw [← h.kin, hroot] at hmem
        cases hmem
      by_cases hp : p = parent
      · simp [hp]
      · simp [hp, Ne.symm hp, hnone]
    · rw [if_neg hc, h.kin]
      by_cases hp : p = parent
      · simp [hp, hc]
      · simp [hp]
  · rw [children_insertLink]
    split
    · exact List.nodup_cons.2 ⟨hnew, h.distinct parent⟩
    · exact h.distinct p
  · rw [contains_insertLink hparent hchild, contains_insertLink hparent hchild]
    rw [parent?_insertLink hne] at hc
    split at hc
    · rename_i heq
      cases hc
      exact ⟨hparent, heq ▸ hchild⟩
    · exact h.known p c hc

theorem apply (h : l.Sound) (operation : Operation) : (l.apply operation).Sound := by
  cases operation with
  | add leaf => exact h.add leaf
  | link parent child =>
    rw [Lineage.apply]
    split
    · rename_i l' hlink
      exact h.link hlink
    · exact h

theorem foldl_apply (h : l.Sound) (operations : List Operation) : (operations.foldl Lineage.apply l).Sound := by
  induction operations generalizing l with
  | nil => exact h
  | cons operation rest ih => exact ih (h.apply operation)

end Sound

theorem built_sound (operations : List Operation) : (built operations).Sound :=
  empty_sound.foldl_apply operations

/-! ## Counts -/

theorem mem_leavesAdded {operations : List Operation} :
    leaf ∈ leavesAdded operations ↔ .add leaf ∈ operations := by
  rw [leavesAdded, List.mem_dedup, List.mem_filterMap]
  constructor
  · rintro ⟨_ | _, hin, hleaf⟩
    · exact Option.some.inj hleaf ▸ hin
    · cases hleaf
  · exact fun hin => ⟨_, hin, rfl⟩

theorem nodup_leavesAdded (operations : List Operation) : (leavesAdded operations).Nodup := List.nodup_dedup _

theorem contains_apply {operation : Operation} :
    (l.apply operation).contains leaf = true ↔ operation = .add leaf ∨ l.contains leaf = true := by
  cases operation with
  | add other =>
    rw [apply, contains_add, Operation.add.injEq, eq_comm]
  | link parent child =>
    rw [apply]
    split
    · rename_i hlink
      obtain ⟨hparent, hchild, -, -, rfl⟩ := link_eq_ok.1 hlink
      simp [contains_insertLink hparent hchild]
    · simp

/-- The leaves of a register are those that have been added. -/
theorem contains_built (operations : List Operation) :
    (built operations).contains leaf = true ↔ leaf ∈ leavesAdded operations := by
  have hfold : ∀ l : Lineage, (operations.foldl apply l).contains leaf = true ↔
      .add leaf ∈ operations ∨ l.contains leaf = true := by
    induction operations with
    | nil => simp
    | cons operation rest ih =>
      intro l
      rw [List.foldl_cons, ih, contains_apply, List.mem_cons, eq_comm, or_left_comm, or_assoc]
  have hempty : empty.contains leaf = false := Std.TreeMap.contains_emptyc
  rw [built, hfold, mem_leavesAdded, hempty]
  simp

theorem keys_perm_leavesAdded (operations : List Operation) :
    (built operations).leaves.keys.Perm (leavesAdded operations) :=
  (List.perm_ext_iff_of_nodup (built operations).keys_nodup (nodup_leavesAdded operations)).2 fun _ =>
    mem_keys.trans (contains_built operations)

theorem leafCount_built (operations : List Operation) :
    (built operations).leafCount = (leavesAdded operations).length := by
  rw [← length_keys]
  exact (keys_perm_leavesAdded operations).length_eq

/-- The leaves that follow another, in ascending order. -/
def linked (l : Lineage) : List Nat := (l.leaves.toList.filter (·.2.parent.isSome)).map Prod.fst

theorem length_linked (l : Lineage) : l.linked.length = l.linkCount := by
  rw [linked, List.length_map, linkCount, List.countP_eq_length_filter]

theorem mem_linked : leaf ∈ l.linked ↔ (l.parent? leaf).isSome = true := by
  simp only [linked, List.mem_map, List.mem_filter, Prod.exists, exists_and_right, exists_eq_right,
    Std.TreeMap.mem_toList_iff_getElem?_eq_some, parent?]
  cases l.leaves[leaf]? <;> simp

theorem nodup_linked (l : Lineage) : l.linked.Nodup := by
  refine List.pairwise_map.2 (List.Pairwise.filter _ ?_)
  exact (Std.TreeMap.ordered_keys_toList (t := l.leaves)).imp fun hab =>
    Nat.ne_of_lt (compare_lt_iff_lt.1 hab)

theorem linkCount_add : (l.add leaf).linkCount = l.linkCount := by
  rw [← length_linked, ← length_linked]
  refine ((List.perm_ext_iff_of_nodup (nodup_linked _) (nodup_linked _)).2 fun other => ?_).length_eq
  rw [mem_linked, mem_linked, parent?_add]

/-- A link adds its lower leaf to those that follow another. -/
theorem linkCount_link (hlink : l.link parent child = .ok l') :
    l'.linkCount = l.linkCount + 1 := by
  obtain ⟨-, -, hroot, hcycle, rfl⟩ := link_eq_ok.1 hlink
  have hne := ne_of_closesCycle hcycle
  have hnew : child ∉ l.linked := by simp [mem_linked, hroot]
  have hperm : (l.insertLink parent child).linked.Perm (child :: l.linked) := by
    refine (List.perm_ext_iff_of_nodup (nodup_linked _) (List.nodup_cons.2 ⟨hnew, nodup_linked l⟩)).2
      fun other => ?_
    rw [List.mem_cons, mem_linked, mem_linked, parent?_insertLink hne]
    split
    · simp [*]
    · simp [*]
  rw [← length_linked, ← length_linked, hperm.length_eq, List.length_cons]

theorem linkCount_apply (operation : Operation) :
    (l.apply operation).linkCount = l.linkCount + if l.makesLink operation then 1 else 0 := by
  cases operation with
  | add leaf => exact linkCount_add
  | link parent child =>
    rw [apply, makesLink]
    cases hlink : l.link parent child with
    | ok l' => exact linkCount_link hlink
    | error => rfl

/-- Every link that is made counts, and no other. -/
theorem linkCount_built (operations : List Operation) :
    (built operations).linkCount = empty.linksMade operations := by
  have hfold : ∀ l : Lineage, (operations.foldl apply l).linkCount = l.linkCount + l.linksMade operations := by
    induction operations with
    | nil => exact fun _ => rfl
    | cons operation rest ih =>
      intro l
      rw [List.foldl_cons, ih, linkCount_apply, linksMade, Nat.add_assoc]
  have hempty : empty.linkCount = 0 := rfl
  rw [built, hfold empty, hempty, Nat.zero_add]

theorem mem_roots_iff : leaf ∈ l.roots ↔ l.contains leaf = true ∧ l.parent? leaf = none := by
  rw [mem_roots, contains_iff, parent?]
  cases l.leaves[leaf]? <;> simp

theorem nodup_roots (l : Lineage) : l.roots.Nodup := l.roots_ascending.imp Nat.ne_of_lt

theorem roots_perm_leavesAdded (operations : List Operation) : (built operations).roots.Perm
    ((leavesAdded operations).filter fun leaf => (built operations).parent? leaf = none) := by
  refine (List.perm_ext_iff_of_nodup (nodup_roots _) ((nodup_leavesAdded operations).filter _)).2 fun leaf => ?_
  rw [mem_roots_iff, List.mem_filter, contains_built, decide_eq_true_eq]

end Lineage
end Inquiry
