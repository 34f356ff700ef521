import Inquiry.Task.Graph

/-!
# Proofs.Task.Links — the leaves of a chain

* `Chain.toList_eq_cons`: a chain starts with its head.
* `Chain.toList_link`: the chain behind the head follows it.
* `Chain.toList_injective`: a chain is determined by its leaves.
-/

namespace Inquiry
namespace Chain

theorem toListAfter_eq (c : Chain) (done : List Leaf) : c.toListAfter done = done.reverse ++ c.toList := by
  induction c generalizing done with
  | last leaf => simp [toList, toListAfter]
  | link leaf next ih =>
    have hnext := ih [leaf]
    simp only [toList, toListAfter] at ih hnext ⊢
    rw [ih, hnext]
    simp

theorem toList_link (leaf : Leaf) (next : Chain) : (link leaf next).toList = leaf :: next.toList := by
  rw [toList, toListAfter, toListAfter_eq]
  rfl

theorem toList_eq_cons (c : Chain) : c.toList = c.head :: c.toList.drop 1 := by
  cases c with
  | last leaf => rfl
  | link leaf next => rw [toList_link]; rfl

theorem toList_prepend (front : List Leaf) (c : Chain) :
    (prepend front c).toList = front.reverse ++ c.toList := by
  induction front generalizing c with
  | nil => rfl
  | cons leaf front ih =>
    rw [prepend, ih, toList_link, List.reverse_cons, List.append_assoc]
    rfl

theorem toList_ofLeaves (leaf : Leaf) (rest : List Leaf) : (ofLeaves leaf rest).toList = leaf :: rest := by
  unfold ofLeaves
  split
  · rename_i hrest
    rw [List.reverse_eq_nil_iff.1 hrest]
    rfl
  · rename_i tail front hrest
    have hback : rest = front.reverse ++ [tail] := by
      rw [← List.reverse_reverse rest, hrest, List.reverse_cons]
    rw [toList_prepend, List.reverse_append, hback]
    rfl

/-- A chain is determined by its leaves. -/
theorem toList_injective {c d : Chain} (h : c.toList = d.toList) : c = d := by
  induction c generalizing d with
  | last leaf =>
    cases d with
    | last leaf' =>
      cases h
      rfl
    | link leaf' next' =>
      rw [toList_link, toList_eq_cons next'] at h
      cases h
  | link leaf next ih =>
    rw [toList_link] at h
    cases d with
    | last leaf' =>
      rw [toList_eq_cons next] at h
      cases h
    | link leaf' next' =>
      rw [toList_link] at h
      obtain ⟨rfl, hnext⟩ := List.cons_eq_cons.1 h
      rw [ih hnext]

end Chain
end Inquiry
