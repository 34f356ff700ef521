import Inquiry.Proofs.Task.Links

/-!
# Proofs.Task.Copy — chains are copied and compared as they are built

The leaves of a chain are listed and counted by going along it, a copy is put together from the last leaf on, and
two chains are compared leaf by leaf. A chain itself is built by putting one link in front of another. The two
views agree, for chains of any length.

* `Chain.Walk`, `Chain.Abreast`: going along one chain, and along two chains side by side.
* `Chain.leafCount`, `Chain.leafAt?`: the number of leaves and the leaf at a depth, link by link.
* `Chain.Matches`: chains of one length with the same four fields at every link.
* `Chain.IsStartOf`, `Chain.IsEndOf`: what is left of a chain that is cut off behind a leaf, or in front of one.
* `Chain.loops_follow_structure`: a copy is the chain itself, and chains compare equal exactly if they are.
-/

namespace Inquiry

/-- Two leaves have the same fields. -/
structure Leaf.SameFields (a b : Leaf) : Prop where
  id : a.id = b.id
  position : a.position = b.position
  spec : a.spec = b.spec
  mergeKey : a.mergeKey = b.mergeKey

theorem Leaf.sameFields_iff {a b : Leaf} : a.SameFields b ↔ a = b := by
  constructor
  · intro h
    cases a
    cases b
    cases h.id
    cases h.position
    cases h.spec
    cases h.mergeKey
    rfl
  · rintro rfl
    exact ⟨rfl, rfl, rfl, rfl⟩

namespace Chain

variable {c d : Chain} {leaves : List Leaf}

/-! ## Going along a chain -/

/-- A walk along what is left of a chain comes across leaves: the head, and then those behind. -/
inductive Walk : Option Chain → List Leaf → Prop where
  | ends : Walk none []
  | goesOn {c : Chain} {leaves : List Leaf} (behind : Walk c.next? leaves) : Walk (some c) (c.head :: leaves)

/-- Two walks side by side come across leaves with the same fields, and end together. -/
inductive Abreast : Option Chain → Option Chain → Prop where
  | ends : Abreast none none
  | goesOn {c d : Chain} (heads : c.head.SameFields d.head) (behind : Abreast c.next? d.next?) :
      Abreast (some c) (some d)

theorem walk_toList (c : Chain) : Walk (some c) c.toList := by
  induction c with
  | last leaf => exact .goesOn (c := last leaf) .ends
  | link leaf next ih =>
    rw [toList_link]
    exact .goesOn (c := link leaf next) ih

/-- A walk comes across the leaves that are listed, and across no other. -/
theorem walk_iff : Walk (some c) leaves ↔ leaves = c.toList := by
  constructor
  · intro h
    induction c generalizing leaves with
    | last leaf =>
      obtain _ | ⟨⟨⟩⟩ := h
      rfl
    | link leaf next ih =>
      obtain _ | ⟨hbehind⟩ := h
      rw [toList_link, ← ih hbehind]
      rfl
  · rintro rfl
    exact c.walk_toList

/-- Two walks can be side by side all the way only along one chain. -/
theorem abreast_iff : Abreast (some c) (some d) ↔ c = d := by
  constructor
  · intro h
    -- Along the first chain: where one of the two ends before the other, no walk goes on.
    induction c generalizing d with
    | last leaf =>
      obtain _ | ⟨hheads, hbehind⟩ := h
      cases d with
      | last leaf' => exact congrArg last (Leaf.sameFields_iff.1 hheads)
      | link leaf' next' => cases hbehind
    | link leaf next ih =>
      obtain _ | ⟨hheads, hbehind⟩ := h
      cases d with
      | last leaf' => cases hbehind
      | link leaf' next' =>
        obtain rfl : leaf = leaf' := Leaf.sameFields_iff.1 hheads
        rw [ih hbehind]
  · rintro rfl
    induction c with
    | last leaf => exact .goesOn (Leaf.sameFields_iff.2 rfl) .ends
    | link leaf next ih => exact .goesOn (Leaf.sameFields_iff.2 rfl) ih

/-! ## Link by link -/

/-- The number of leaves. -/
def leafCount : Chain → Nat
  | last _ => 1
  | link _ next => next.leafCount + 1

/-- The leaf a number of links behind the head. -/
def leafAt? : Chain → Nat → Option Leaf
  | last leaf, 0 => some leaf
  | last _, _ + 1 => none
  | link leaf _, 0 => some leaf
  | link _ next, k + 1 => next.leafAt? k

/-- Two chains have the same number of leaves, and leaves with the same fields at every link. -/
structure Matches (c d : Chain) : Prop where
  leafCount : c.leafCount = d.leafCount
  leaves : ∀ k a b, c.leafAt? k = some a → d.leafAt? k = some b → a.SameFields b

theorem leafCount_pos (c : Chain) : 0 < c.leafCount := by
  cases c <;> exact Nat.succ_pos _

theorem length_eq_leafCount (c : Chain) : c.length = c.leafCount := by
  induction c with
  | last leaf => rfl
  | link leaf next ih =>
    rw [length] at ih ⊢
    rw [toList_link, List.length_cons, ih, leafCount]

theorem getElem?_toList (c : Chain) (k : Nat) : c.toList[k]? = c.leafAt? k := by
  induction c generalizing k with
  | last leaf => cases k <;> rfl
  | link leaf next ih =>
    rw [toList_link]
    cases k with
    | zero => rfl
    | succ k => exact ih k

theorem matches_iff : c.Matches d ↔ c = d := by
  constructor
  · rintro ⟨hcount, hleaves⟩
    rw [← c.length_eq_leafCount, ← d.length_eq_leafCount] at hcount
    refine toList_injective (List.ext_getElem hcount fun k hc hd => ?_)
    refine Leaf.sameFields_iff.1 (hleaves k _ _ ?_ ?_)
    · rw [← c.getElem?_toList, List.getElem?_eq_getElem hc]
    · rw [← d.getElem?_toList, List.getElem?_eq_getElem hd]
  · rintro rfl
    refine ⟨rfl, fun k a b ha hb => ?_⟩
    rw [ha] at hb
    exact Leaf.sameFields_iff.2 (Option.some.inj hb)

/-! ## Copies and comparisons -/

/-- Putting the leaves together again from the last one on makes the chain that they were taken from. -/
theorem copy_eq (c : Chain) : c.copy = c := by
  refine toList_injective ?_
  rw [copy, toList_ofLeaves]
  exact c.toList_eq_cons.symm

theorem agrees_iff : c.agrees d = true ↔ c = d := by
  rw [agrees, beq_iff_eq]
  exact ⟨toList_injective, congrArg toList⟩

/-! ## Parts of a chain -/

/-- A chain is what is left of another that is cut off behind a leaf. -/
inductive IsStartOf : Chain → Chain → Prop where
  | head (leaf : Leaf) (next : Chain) : IsStartOf (last leaf) (link leaf next)
  | link (leaf : Leaf) {start next : Chain} (h : IsStartOf start next) : IsStartOf (link leaf start) (link leaf next)

/-- A chain is what is left of another behind a leaf. -/
inductive IsEndOf : Chain → Chain → Prop where
  | next (leaf : Leaf) (next : Chain) : IsEndOf next (link leaf next)
  | behind (leaf : Leaf) {ending next : Chain} (h : IsEndOf ending next) : IsEndOf ending (link leaf next)

theorem IsStartOf.leafCount_lt (h : d.IsStartOf c) : d.leafCount < c.leafCount := by
  induction h with
  | head leaf next => exact Nat.succ_lt_succ next.leafCount_pos
  | link leaf _ ih => exact Nat.succ_lt_succ ih

theorem IsEndOf.leafCount_lt (h : d.IsEndOf c) : d.leafCount < c.leafCount := by
  induction h with
  | next leaf next => exact Nat.lt_succ_self _
  | behind leaf _ ih => exact Nat.lt_succ_of_lt ih

theorem agrees_of_leafCount_ne (h : c.leafCount ≠ d.leafCount) : c.agrees d = false := by
  rw [← Bool.not_eq_true, agrees_iff]
  rintro rfl
  exact h rfl

/-- However long a chain is, the list of its leaves is what a walk comes across, their number is that of its links,
and a copy is the chain itself. Two chains compare equal exactly if walks along them keep abreast, that is, if they
have the same number of leaves with the same fields, that is, if they are one and the same. A chain never compares
equal to a part of it. -/
theorem loops_follow_structure :
    (∀ c : Chain, (∀ leaves, Walk (some c) leaves ↔ leaves = c.toList) ∧ (∀ k, c.toList[k]? = c.leafAt? k) ∧
      c.length = c.leafCount ∧ c.copy = c) ∧
    (∀ c d : Chain, (c.agrees d = true ↔ Abreast (some c) (some d)) ∧ (c.agrees d = true ↔ c.Matches d) ∧
      (c.agrees d = true ↔ c = d)) ∧
    ∀ c d : Chain, d.IsStartOf c ∨ d.IsEndOf c → c.agrees d = false ∧ d.agrees c = false := by
  refine ⟨fun c => ⟨fun leaves => walk_iff, c.getElem?_toList, c.length_eq_leafCount, c.copy_eq⟩,
    fun c d => ⟨agrees_iff.trans abreast_iff.symm, agrees_iff.trans matches_iff.symm, agrees_iff⟩,
    fun c d hpart => ?_⟩
  have hlt : d.leafCount < c.leafCount := hpart.elim IsStartOf.leafCount_lt IsEndOf.leafCount_lt
  exact ⟨agrees_of_leafCount_ne (Nat.ne_of_gt hlt), agrees_of_leafCount_ne (Nat.ne_of_lt hlt)⟩

/-- A chain of three leaves, cut off behind the second, and what is left of it behind the first. -/
theorem loops_follow_structure_three :
    let leaf (id : Nat) : Leaf := .of id "timeSeries[0]" ⟨.timeSeries, none, none, .timeSeries .day 1⟩
    let c : Chain := .link (leaf 0) (.link (leaf 1) (.last (leaf 2)))
    let start : Chain := .link (leaf 0) (.last (leaf 1))
    let ending : Chain := .link (leaf 1) (.last (leaf 2))
    (start.IsStartOf c ∧ c.agrees start = false ∧ start.agrees c = false) ∧
      ending.IsEndOf c ∧ c.agrees ending = false ∧ ending.agrees c = false := by
  intro leaf c start ending
  have hstart : start.IsStartOf c := .link _ (.head _ _)
  have hending : ending.IsEndOf c := .next _ _
  exact ⟨⟨hstart, loops_follow_structure.2.2 c start (.inl hstart)⟩,
    hending, loops_follow_structure.2.2 c ending (.inr hending)⟩

end Chain
end Inquiry
