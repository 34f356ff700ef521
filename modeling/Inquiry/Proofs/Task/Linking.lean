import Inquiry.Proofs.Task.Forest

/-!
# Proofs.Task.Linking — which links are made

A link is refused if one of its leaves was never added, if the lower leaf follows another one already, or if the
upper leaf follows the lower one; of several reasons, the first in this order is told. A link that is refused
leaves no trace. One that is made puts the lower leaf in front of the other children of the upper one, and changes
nothing else.

* `Lineage.Refused`: the reasons against a link, told of what has been done to the register.
* `Lineage.LinkedBelow`: what a link changes, and what it leaves as it is.
* `Lineage.link_eq_error`, `Lineage.linkedBelow_of_link`: when a link is refused, and what comes of one that is made.
* `Lineage.link_decides`: all that linking does, in every register that can be built.
-/

namespace Inquiry
namespace Lineage

variable {l l' : Lineage} {parent child : Nat} {e : LineageError} {operations : List Operation}

/-! ## Reasons against a link -/

/-- What speaks against linking a leaf below another, once operations have been done. The reasons exclude each
other, since each of them supposes that those above it do not apply. -/
inductive Refused (operations : List Operation) (parent child : Nat) : LineageError → Prop where
  | unknownParent (neverAdded : .add parent ∉ operations) :
      Refused operations parent child (.leafNotFound parent)
  | unknownChild (added : .add parent ∈ operations) (neverAdded : .add child ∉ operations) :
      Refused operations parent child (.leafNotFound child)
  | taken {existing : Nat} (added : .add parent ∈ operations ∧ .add child ∈ operations)
      (follows : (built operations).Leads existing child) :
      Refused operations parent child (.sharedChild child existing)
  | cycle (added : .add parent ∈ operations ∧ .add child ∈ operations)
      (free : ∀ existing, ¬ (built operations).Leads existing child)
      (above : child = parent ∨ Relation.TransGen (built operations).Leads child parent) :
      Refused operations parent child (.cycleDetected parent child)

/-- When a link is refused, and why. -/
theorem link_eq_error : l.link parent child = .error e ↔
    l.contains parent = false ∧ .leafNotFound parent = e ∨
    (l.contains parent = true ∧ l.contains child = false) ∧ .leafNotFound child = e ∨
    (l.contains parent = true ∧ l.contains child = true) ∧
      (∃ existing, l.parent? child = some existing ∧ .sharedChild child existing = e) ∨
    (l.contains parent = true ∧ l.contains child = true) ∧
      (l.parent? child = none ∧ l.closesCycle parent child = true) ∧ .cycleDetected parent child = e := by
  -- What each of the four tests says decides which of the four cases it is.
  unfold link
  cases l.contains parent <;> cases l.contains child <;> cases l.parent? child <;>
    cases l.closesCycle parent child <;> simp

theorem contains_iff_added {leaf : Nat} : (built operations).contains leaf = true ↔ .add leaf ∈ operations :=
  (contains_built operations).trans mem_leavesAdded

theorem contains_eq_false {leaf : Nat} : (built operations).contains leaf = false ↔ .add leaf ∉ operations := by
  rw [← Bool.not_eq_true, contains_iff_added]

theorem closesCycle_built : (built operations).closesCycle parent child = true ↔
    child = parent ∨ Relation.TransGen (built operations).Leads child parent := by
  have hsound := built_sound operations
  rw [hsound.closesCycle_iff, (hsound.climbs parent).mem_iff, eq_comm]

/-- A link is refused for the reasons that there are against it. -/
theorem link_built_eq_error :
    (built operations).link parent child = .error e ↔ Refused operations parent child e := by
  rw [link_eq_error]
  simp only [contains_iff_added, contains_eq_false, closesCycle_built]
  constructor
  · rintro (⟨hparent, rfl⟩ | ⟨⟨hparent, hchild⟩, rfl⟩ | ⟨hadded, existing, hfollows, rfl⟩ |
      ⟨hadded, ⟨hfree, habove⟩, rfl⟩)
    · exact .unknownParent hparent
    · exact .unknownChild hparent hchild
    · exact .taken hadded hfollows
    · refine .cycle hadded (fun existing hfollows => ?_) habove
      rw [Leads, hfree] at hfollows
      cases hfollows
  · intro h
    cases h with
    | unknownParent hparent => exact .inl ⟨hparent, rfl⟩
    | unknownChild hparent hchild => exact .inr (.inl ⟨⟨hparent, hchild⟩, rfl⟩)
    | taken hadded hfollows => exact .inr (.inr (.inl ⟨hadded, _, hfollows, rfl⟩))
    | cycle hadded hfree habove =>
      exact .inr (.inr (.inr ⟨hadded, ⟨Option.eq_none_iff_forall_ne_some.2 hfree, habove⟩, rfl⟩))

/-! ## What a link changes -/

/-- A register comes from another by linking a leaf below a second one. -/
structure LinkedBelow (l l' : Lineage) (parent child : Nat) : Prop where
  follows : l'.parent? child = some parent
  /-- The leaf is the newest child, and those linked before it stay in their order. -/
  newest : l'.children parent = child :: l.children parent
  otherParents : ∀ other, other ≠ child → l'.parent? other = l.parent? other
  otherChildren : ∀ other, other ≠ parent → l'.children other = l.children other
  leaves : ∀ leaf, l'.contains leaf = true ↔ l.contains leaf = true
  leafCount : l'.leafCount = l.leafCount
  linkCount : l'.linkCount = l.linkCount + 1

theorem leafCount_congr (h : ∀ leaf, l'.contains leaf = true ↔ l.contains leaf = true) :
    l'.leafCount = l.leafCount := by
  rw [← length_keys, ← length_keys]
  refine ((List.perm_ext_iff_of_nodup l'.keys_nodup l.keys_nodup).2 fun leaf => ?_).length_eq
  rw [mem_keys, mem_keys, h]

/-- What comes of a link that is made. -/
theorem linkedBelow_of_link (hlink : l.link parent child = .ok l') :
    l.LinkedBelow l' parent child := by
  have hlinkCount := linkCount_link hlink
  obtain ⟨hparent, hchild, -, hcycle, rfl⟩ := link_eq_ok.1 hlink
  -- A leaf is never linked below itself, so that what is entered for one of the two is not overwritten.
  have hne := ne_of_closesCycle hcycle
  have hleaves : ∀ leaf, (l.insertLink parent child).contains leaf = true ↔ l.contains leaf = true :=
    fun _ => contains_insertLink hparent hchild
  exact {
    follows := by rw [parent?_insertLink hne, if_pos rfl]
    newest := by rw [children_insertLink, if_pos rfl]
    otherParents := fun other hother => by rw [parent?_insertLink hne, if_neg hother]
    otherChildren := fun other hother => by rw [children_insertLink, if_neg hother]
    leaves := hleaves
    leafCount := leafCount_congr hleaves
    linkCount := hlinkCount }

/-! ## Linking in registers that can be built -/

theorem built_append (operations later : List Operation) :
    built (operations ++ later) = later.foldl apply (built operations) := List.foldl_append

/-- A link that is refused might as well not have been tried. -/
theorem built_refused (h : (built operations).link parent child = .error e) (later : List Operation) :
    built (operations ++ .link parent child :: later) = built (operations ++ later) := by
  have hkept : (built operations).apply (.link parent child) = built operations := by rw [apply, h]
  rw [built_append, built_append, List.foldl_cons, hkept]

theorem built_linked (h : (built operations).link parent child = .ok l') :
    built (operations ++ [.link parent child]) = l' := by
  rw [built_append, List.foldl_cons, List.foldl_nil, apply, h]

/-- Whatever has been done to a register, a link is refused for the first reason that there is against it, and
then the register answers everything as before, now and after whatever is done later; if there is no reason, it is
made, and the register differs from what it was in this one link. -/
theorem link_decides (operations : List Operation) (parent child : Nat) :
    (∀ e, (built operations).link parent child = .error e ↔ Refused operations parent child e) ∧
    (∀ e, Refused operations parent child e → ∀ later,
      built (operations ++ .link parent child :: later) = built (operations ++ later)) ∧
    ((∀ e, ¬ Refused operations parent child e) →
      ∃ l', (built operations).link parent child = .ok l' ∧
        built (operations ++ [.link parent child]) = l' ∧
        (built operations).LinkedBelow l' parent child) := by
  refine ⟨fun _ => link_built_eq_error, fun e hrefused => ?_, fun hopen => ?_⟩
  · exact built_refused (link_built_eq_error.2 hrefused)
  · cases hlink : (built operations).link parent child with
    | error e => exact absurd (link_built_eq_error.1 hlink) (hopen e)
    | ok l' => exact ⟨l', rfl, built_linked hlink, linkedBelow_of_link hlink⟩

/-- A chain of three leaves, and a leaf on its own. -/
def chainAndLeaf : List Operation := [.add 3, .add 5, .add 4, .add 2, .link 3 5, .link 5 4]

/-- At the end of a chain its top is refused as closing a cycle, and the leaf below the top because it has a
parent, although it lies above as well. A second child of the top comes in front of the first. -/
theorem link_decides_chain :
    Refused chainAndLeaf 4 3 (.cycleDetected 4 3) ∧ Refused chainAndLeaf 4 5 (.sharedChild 5 3) ∧
      built (chainAndLeaf ++ [.link 4 3, .link 3 2]) = built (chainAndLeaf ++ [.link 3 2]) ∧
      (∀ e, ¬ Refused chainAndLeaf 3 2 e) ∧
      (built (chainAndLeaf ++ [.link 3 2])).children 3 = [2, 5] := by
  obtain ⟨hrefused, hunchanged, -⟩ := link_decides chainAndLeaf 4 3
  obtain ⟨hshared, -⟩ := link_decides chainAndLeaf 4 5
  obtain ⟨hmade, -, hlinks⟩ := link_decides chainAndLeaf 3 2
  have hcycle : Refused chainAndLeaf 4 3 (.cycleDetected 4 3) := (hrefused _).1 rfl
  have hopen : ∀ e, ¬ Refused chainAndLeaf 3 2 e := by
    intro e he
    cases (hmade e).2 he
  obtain ⟨l', -, rfl, hlinked⟩ := hlinks hopen
  exact ⟨hcycle, (hshared _).1 rfl, hunchanged _ hcycle [.link 3 2], hopen, hlinked.newest⟩

end Lineage
end Inquiry
