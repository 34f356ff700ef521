import Inquiry.Proofs.Task.Numbering

/-!
# Proofs.Task.Register — new leaves can be linked

A leaf that has just been registered follows nobody, and nobody follows it, so that it can be linked below
every other leaf. A compiled configuration registers each of its leaves only once, and therefore none of
its links is refused.

* `Lineage.link_add`: a new leaf is linked below a registered one.
* `Config.register_isOk`: chains of new leaves are registered.
-/

namespace Inquiry
namespace Lineage

variable {l : Lineage} {leaf parent child other : Nat}

/-! ## What is known of a leaf -/

theorem contains_iff : l.contains leaf = true ↔ (l.leaves[leaf]?).isSome = true := by
  rw [contains, Std.TreeMap.isSome_getElem?_eq_contains]

theorem getElem?_of_isNew (hnew : l.contains leaf = false) : l.leaves[leaf]? = none := by
  rw [← Option.not_isSome_iff_eq_none, ← contains_iff, hnew]
  exact Bool.false_ne_true

theorem getElem?_add (hnew : l.contains leaf = false) :
    (l.add leaf).leaves[other]? = if leaf = other then some ⟨none, []⟩ else l.leaves[other]? := by
  rw [add, if_neg (by simp [hnew]), Std.TreeMap.getElem?_insert]
  simp

theorem contains_add : (l.add leaf).contains other = true ↔ other = leaf ∨ l.contains other = true := by
  cases h : l.contains leaf with
  | true =>
    have hsame : l.add leaf = l := if_pos h
    rw [hsame]
    refine ⟨.inr, ?_⟩
    rintro (rfl | hother)
    · exact h
    · exact hother
  | false =>
    rw [contains_iff, getElem?_add h, contains_iff]
    by_cases heq : leaf = other
    · simp [heq]
    · simp [heq, Ne.symm heq]

theorem contains_insertLink (hparent : l.contains parent = true) (hchild : l.contains child = true) :
    (l.insertLink parent child).contains other = true ↔ l.contains other = true := by
  simp only [contains, insertLink, Std.TreeMap.contains_insert] at *
  by_cases hp : parent = other
  · simp [← hp, hparent]
  · by_cases hc : child = other
    · simp [← hc, hchild]
    · simp [hp, hc]

/-! ## Links -/

/-- A new leaf can be linked below every registered one. -/
theorem link_add (hparent : l.contains parent = true) (hnew : l.contains child = false) :
    (l.add child).link parent child = .ok ((l.add child).insertLink parent child) := by
  have hne : parent ≠ child := by
    rintro rfl
    rw [hparent] at hnew
    cases hnew
  have hown : (l.add child).leaves[child]? = some ⟨none, []⟩ := by
    rw [getElem?_add hnew, if_pos rfl]
  have hcontains : (l.add child).contains parent = true ∧ (l.add child).contains child = true :=
    ⟨contains_add.2 (.inr hparent), contains_add.2 (.inl rfl)⟩
  -- The leaf has no parent that the link could take it from, and no children that lead back.
  have hparent? : (l.add child).parent? child = none := by
    rw [parent?, hown]
    rfl
  have hchildren : (l.add child).children child = [] := by
    rw [children, hown]
    rfl
  have hcycle : (l.add child).closesCycle parent child = false := by
    simp [closesCycle, hne, hchildren]
  simp [link, hcontains, hparent?, hcycle]

end Lineage

namespace Config

/-- The leaves behind a registered one are registered, if they are new. -/
theorem registerFrom_isOk {l : Lineage} {parent : Leaf} {leaves : List Leaf}
    (hparent : l.contains parent.id = true) (hnodup : (leaves.map Leaf.id).Nodup)
    (hnew : ∀ leaf ∈ leaves, l.contains leaf.id = false) :
    ∃ l', registerFrom l parent leaves = .ok l' ∧
      ∀ id, l'.contains id = true ↔ id ∈ leaves.map Leaf.id ∨ l.contains id = true := by
  induction leaves generalizing l parent with
  | nil => exact ⟨l, rfl, by simp⟩
  | cons leaf rest ih =>
    obtain ⟨hfirst, hrest⟩ := List.nodup_cons.1 hnodup
    -- Linking one leaf registers that leaf only, so that those behind it stay new.
    have hlink := Lineage.link_add hparent (hnew leaf List.mem_cons_self)
    have hcontains : ∀ id, ((l.add leaf.id).insertLink parent.id leaf.id).contains id = true ↔
        id = leaf.id ∨ l.contains id = true := by
      intro id
      rw [Lineage.contains_insertLink (Lineage.contains_add.2 (.inr hparent))
        (Lineage.contains_add.2 (.inl rfl)), Lineage.contains_add]
    have hfresh : ∀ other ∈ rest,
        ((l.add leaf.id).insertLink parent.id leaf.id).contains other.id = false := by
      intro other hother
      rw [← Bool.not_eq_true, hcontains, not_or]
      refine ⟨fun hid => hfirst ?_, by simp [hnew other (List.mem_cons_of_mem _ hother)]⟩
      exact hid ▸ List.mem_map_of_mem hother
    obtain ⟨l', hregister, hl'⟩ := ih ((hcontains leaf.id).2 (.inl rfl)) hrest hfresh
    refine ⟨l', ?_, fun id => ?_⟩
    · rw [registerFrom, hlink]
      exact hregister
    · rw [hl', hcontains, List.map_cons, List.mem_cons, or_left_comm, or_assoc]

/-- Chains of new leaves are registered. -/
theorem register_isOk {l : Lineage} {chains : List Chain} (hnodup : (chains.flatMap Chain.ids).Nodup)
    (hnew : ∀ id ∈ chains.flatMap Chain.ids, l.contains id = false) :
    ∃ l', register l chains = .ok l' := by
  induction chains generalizing l with
  | nil => exact ⟨l, rfl⟩
  | cons chain rest ih =>
    have hids : chain.ids = chain.head.id :: (chain.toList.drop 1).map Leaf.id := by
      rw [Chain.ids, chain.toList_eq_cons]
      rfl
    rw [List.flatMap_cons, hids, List.cons_append, List.nodup_cons] at hnodup
    obtain ⟨hhead, htail⟩ := hnodup
    obtain ⟨hbehind, hrest, hdisjoint⟩ := List.nodup_append.1 htail
    have hnew' : ∀ leaf ∈ chain.toList.drop 1, (l.add chain.head.id).contains leaf.id = false := by
      intro leaf hleaf
      have hid : leaf.id ∈ (chain.toList.drop 1).map Leaf.id := List.mem_map_of_mem hleaf
      rw [← Bool.not_eq_true, Lineage.contains_add, not_or]
      refine ⟨fun heq => hhead (List.mem_append_left _ (heq ▸ hid)), ?_⟩
      have hin : leaf.id ∈ (chain :: rest).flatMap Chain.ids := by
        rw [List.flatMap_cons, hids]
        exact List.mem_append_left _ (List.mem_cons_of_mem _ hid)
      simp [hnew leaf.id hin]
    obtain ⟨l', hchain, hl'⟩ := registerFrom_isOk (Lineage.contains_add.2 (.inl rfl)) hbehind hnew'
    have hlater : ∀ id ∈ rest.flatMap Chain.ids, l'.contains id = false := by
      intro id hid
      rw [← Bool.not_eq_true, hl', Lineage.contains_add, not_or, not_or]
      refine ⟨fun hin => hdisjoint id hin id hid rfl, fun heq => ?_, ?_⟩
      · exact hhead (List.mem_append_right _ (heq ▸ hid))
      · simp [hnew id (by simp [hid])]
    obtain ⟨l'', hregister⟩ := ih hrest hlater
    refine ⟨l'', ?_⟩
    rw [register, hchain]
    exact hregister

end Config
end Inquiry
