import Inquiry.Corpus.Tally
import Mathlib.Algebra.GroupWithZero.Nat
import Mathlib.Data.Finset.Card
import Mathlib.Data.List.Permutation

/-!
# Proofs.Corpus.Tally — tallies are exact

Tallies are built item by item. What they hold of the items so far is an invariant: one tally for each key
that has occurred, which counts the items of the key and remembers each of their authors once.

* `Tallies.group` are the items of a key, `Tallies.audience` is the number of distinct authors of items.
* `Tally.Counts` relates a tally to the items that it counts, `Tallies.Exact` tallies to all items.
* `Tallies.exact_ofItems`: the tallies of a list of items are exact.
* `Tallies.Exact.mem_keys_filter`: which keys have a tally with so many authors.
* `Tallies.total_ofItems`: all items that have a key are counted.
-/

namespace Inquiry

variable {α κ : Type} {author : α → String} {items : List α}

namespace Tallies

/-- The items of a key. -/
def group [DecidableEq κ] (key : α → Option κ) (items : List α) (k : κ) : List α :=
  items.filter fun item => key item = some k

/-- The number of distinct authors of items. -/
def audience (author : α → String) (items : List α) : Nat := (items.map author).toFinset.card

theorem audience_le_length : audience author items ≤ items.length :=
  (List.toFinset_card_le _).trans_eq (List.length_map author)

theorem audience_pos (h : items ≠ []) : 0 < audience author items := by
  obtain ⟨item, hitem⟩ := List.exists_mem_of_ne_nil items h
  exact Finset.card_pos.2 ⟨author item, List.mem_toFinset.2 (List.mem_map_of_mem hitem)⟩

theorem audience_perm {items' : List α} (h : items.Perm items') : audience author items = audience author items' :=
  congrArg Finset.card (List.toFinset_eq_of_perm _ _ (h.map author))

end Tallies

/-! ## One tally -/

namespace Tally

/-- A tally counts items by their number, and each of their authors once. -/
structure Counts (t : Tally) (author : α → String) (items : List α) : Prop where
  interactions : t.interactions = items.length
  nodup : t.authors.Nodup
  mem_authors : ∀ name, name ∈ t.authors ↔ name ∈ items.map author

theorem counts_empty (author : α → String) : Tally.empty.Counts author [] :=
  ⟨rfl, .nil, fun _ => .rfl⟩

theorem Counts.add {t : Tally} (h : t.Counts author items) (item : α) :
    (t.add (author item)).Counts author (items ++ [item]) := by
  have hnames : ∀ name, name ∈ (items ++ [item]).map author ↔ name = author item ∨ name ∈ t.authors := by
    intro name
    simp [h.mem_authors, or_comm]
  have hcount : (t.add (author item)).interactions = (items ++ [item]).length := by
    simp [Tally.add, h.interactions]
  by_cases hold : author item ∈ t.authors
  · have hauthors : (t.add (author item)).authors = t.authors := if_pos hold
    refine ⟨hcount, hauthors ▸ h.nodup, fun name => ?_⟩
    rw [hauthors, hnames, iff_or_self]
    -- The author is remembered from an item before.
    rintro rfl
    exact hold
  · have hauthors : (t.add (author item)).authors = author item :: t.authors := if_neg hold
    refine ⟨hcount, hauthors ▸ h.nodup.cons hold, fun name => ?_⟩
    rw [hauthors, hnames, List.mem_cons]

theorem Counts.uniqueAuthors {t : Tally} (h : t.Counts author items) :
    t.uniqueAuthors = Tallies.audience author items := by
  have hsame : t.authors.toFinset = (items.map author).toFinset := by
    ext name
    rw [List.mem_toFinset, List.mem_toFinset, h.mem_authors]
  rw [Tallies.audience, ← hsame, List.toFinset_card_of_nodup h.nodup]
  rfl

end Tally

/-! ## One tally for each key -/

namespace Tallies

variable [DecidableEq κ] {key : α → Option κ} {tallies : Tallies κ} {k : κ}

theorem group_append_of_eq {item : α} (h : key item = some k) :
    group key (items ++ [item]) k = group key items k ++ [item] := by
  simp [group, List.filter_append, h]

theorem group_append_of_ne {item : α} (h : key item ≠ some k) :
    group key (items ++ [item]) k = group key items k := by
  simp [group, List.filter_append, h]

theorem group_ne_nil_iff : group key items k ≠ [] ↔ ∃ item ∈ items, key item = some k := by
  simp [group]

/-- Tallies hold items: one tally for each key that occurs, which counts the items of the key. -/
structure Exact (key : α → Option κ) (author : α → String) (items : List α) (tallies : Tallies κ) :
    Prop where
  nodup : (tallies.map Prod.fst).Nodup
  mem_keys : ∀ k, k ∈ tallies.map Prod.fst ↔ group key items k ≠ []
  counts : ∀ k t, (k, t) ∈ tallies → t.Counts author (group key items k)

/-- A key that is new has its tally at the end. -/
theorem add_of_not_mem {name : String} (h : k ∉ tallies.map Prod.fst) :
    add k name tallies = tallies ++ [(k, Tally.empty.add name)] := by
  induction tallies with
  | nil => rfl
  | cons entry rest ih =>
    rw [List.map_cons, List.mem_cons, not_or] at h
    rw [add, if_neg h.1, ih h.2]
    rfl

/-- Of a key that there is, the tally is replaced in its place. -/
theorem add_of_mem (name : String) (h : k ∈ tallies.map Prod.fst) :
    ∃ front t back, tallies = front ++ (k, t) :: back ∧
      add k name tallies = front ++ (k, t.add name) :: back := by
  induction tallies with
  | nil => cases h
  | cons entry rest ih =>
    obtain ⟨k', t⟩ := entry
    by_cases hk : k = k'
    · subst hk
      exact ⟨[], t, rest, rfl, if_pos rfl⟩
    · obtain ⟨front, t', back, rfl, hadd⟩ := ih ((List.mem_cons.1 h).resolve_left hk)
      refine ⟨(k', t) :: front, t', back, rfl, ?_⟩
      rw [add, if_neg hk, hadd]
      rfl

theorem keys_add {name : String} {k' : κ} :
    k' ∈ (add k name tallies).map Prod.fst ↔ k' = k ∨ k' ∈ tallies.map Prod.fst := by
  by_cases h : k ∈ tallies.map Prod.fst
  · have hkeys : (add k name tallies).map Prod.fst = tallies.map Prod.fst := by
      obtain ⟨front, t, back, rfl, hadd⟩ := add_of_mem name h
      rw [hadd, List.map_append, List.map_append]
      rfl
    rw [hkeys, iff_or_self]
    rintro rfl
    exact h
  · rw [add_of_not_mem h, List.map_append, List.mem_append, or_comm]
    exact or_congr_left List.mem_singleton

theorem nodup_add {name : String} (h : (tallies.map Prod.fst).Nodup) :
    ((add k name tallies).map Prod.fst).Nodup := by
  by_cases hk : k ∈ tallies.map Prod.fst
  · obtain ⟨front, t, back, rfl, hadd⟩ := add_of_mem name hk
    rw [hadd, List.map_append]
    rwa [List.map_append] at h
  · rw [add_of_not_mem hk, List.map_append, List.map_singleton, ← List.concat_eq_append]
    exact h.concat hk

/-- A tally is one that was there before, unless its key is the one that is counted. -/
theorem mem_add {name : String} {k' : κ} {t' : Tally} (hnodup : (tallies.map Prod.fst).Nodup)
    (h : (k', t') ∈ add k name tallies) : k' ≠ k ∧ (k', t') ∈ tallies ∨
      k' = k ∧ ∃ t, t' = t.add name ∧ ((k, t) ∈ tallies ∨ k ∉ tallies.map Prod.fst ∧ t = .empty) := by
  by_cases hk : k ∈ tallies.map Prod.fst
  · obtain ⟨front, t, back, rfl, hadd⟩ := add_of_mem name hk
    have hmem : (k, t) ∈ front ++ (k, t) :: back := List.mem_append_right _ List.mem_cons_self
    -- No other tally has the key.
    have hother : ∀ entry ∈ front ++ back, entry.1 ≠ k := by
      have hrest := (List.perm_middle.map Prod.fst).nodup_iff.1 hnodup
      rintro entry hentry rfl
      have hname : entry.1 ∈ (front ++ back).map Prod.fst := List.mem_map_of_mem hentry
      exact (List.nodup_cons.1 hrest).1 hname
    rw [hadd] at h
    rcases List.mem_cons.1 (List.perm_middle.mem_iff.1 h) with heq | hrest
    · cases heq
      exact .inr ⟨rfl, t, rfl, .inl hmem⟩
    · exact .inl ⟨hother _ hrest, List.perm_middle.mem_iff.2 (List.mem_cons_of_mem _ hrest)⟩
  · rw [add_of_not_mem hk] at h
    rcases List.mem_append.1 h with hold | hnew
    · refine .inl ⟨?_, hold⟩
      rintro rfl
      exact hk (List.mem_map_of_mem hold)
    · cases List.mem_singleton.1 hnew
      exact .inr ⟨rfl, .empty, rfl, .inr ⟨hk, rfl⟩⟩

/-! ## Counting a list of items -/

namespace Exact

/-- An item that has a key is counted under it. -/
theorem add {item : α} (h : Exact key author items tallies) (hk : key item = some k) :
    Exact key author (items ++ [item]) (add k (author item) tallies) := by
  have hsame : ∀ {k'}, k' ≠ k → group key (items ++ [item]) k' = group key items k' := by
    intro k' hne
    apply group_append_of_ne
    rw [hk]
    exact fun heq => hne (Option.some.inj heq).symm
  refine ⟨nodup_add h.nodup, fun k' => ?_, fun k' t' hmem => ?_⟩
  · rw [keys_add]
    by_cases hk' : k' = k
    · subst hk'
      simp [group_append_of_eq hk]
    · rw [hsame hk', h.mem_keys]
      exact or_iff_right hk'
  · rcases mem_add h.nodup hmem with ⟨hne, hold⟩ | ⟨rfl, t, rfl, hold | ⟨hnew, rfl⟩⟩
    · rw [hsame hne]
      exact h.counts _ _ hold
    · rw [group_append_of_eq hk]
      exact (h.counts _ _ hold).add item
    · -- A key without a tally has not occurred, so that the item is the first of its group.
      have hempty : group key items k' = [] := not_not.1 (mt (h.mem_keys _).2 hnew)
      rw [group_append_of_eq hk, hempty]
      exact (Tally.counts_empty author).add item

/-- An item without a key is not counted. -/
theorem skip {item : α} (h : Exact key author items tallies) (hk : key item = none) :
    Exact key author (items ++ [item]) tallies := by
  have hsame : ∀ k', group key (items ++ [item]) k' = group key items k' :=
    fun _ => group_append_of_ne (by simp [hk])
  refine ⟨h.nodup, fun k' => ?_, fun k' t' hmem => ?_⟩
  · rw [hsame, h.mem_keys]
  · rw [hsame]
    exact h.counts _ _ hmem

end Exact

theorem ofItems_append (item : α) : ofItems key author (items ++ [item]) =
    match key item with
    | some k => add k (author item) (ofItems key author items)
    | none => ofItems key author items := List.foldl_concat ..

theorem exact_ofItems (key : α → Option κ) (author : α → String) (items : List α) :
    Exact key author items (ofItems key author items) := by
  -- Items are added at the end, as they are counted.
  induction items using List.reverseRecOn with
  | nil =>
    refine ⟨.nil, fun k => ?_, fun k t h => nomatch h⟩
    simp [ofItems, group]
  | append_singleton items item ih =>
    rw [ofItems_append]
    cases hk : key item with
    | some k => exact ih.add hk
    | none => exact ih.skip hk

/-- Which keys have a tally whose number of authors passes a test. -/
theorem Exact.mem_keys_filter (h : Exact key author items tallies) (test : Tally → Bool) (passes : Nat → Prop)
    (htest : ∀ t, test t = true ↔ passes t.uniqueAuthors) :
    k ∈ (tallies.filter fun entry => test entry.2).map Prod.fst ↔
      group key items k ≠ [] ∧ passes (audience author (group key items k)) := by
  constructor
  · intro hk
    obtain ⟨⟨k, t⟩, hentry, rfl⟩ := List.mem_map.1 hk
    obtain ⟨hmem, hpass⟩ := List.mem_filter.1 hentry
    refine ⟨(h.mem_keys k).1 (List.mem_map_of_mem hmem), ?_⟩
    rw [← (h.counts k t hmem).uniqueAuthors]
    exact (htest t).1 hpass
  · rintro ⟨hgroup, hpass⟩
    obtain ⟨⟨k, t⟩, hmem, rfl⟩ := List.mem_map.1 ((h.mem_keys k).2 hgroup)
    rw [← (h.counts k t hmem).uniqueAuthors] at hpass
    exact List.mem_map_of_mem (List.mem_filter.2 ⟨hmem, (htest t).2 hpass⟩)

/-- What is made of tallies is made of the counts of their groups. -/
theorem Exact.map_counts {β : Type} {entries : Tallies κ} (h : Exact key author items tallies)
    (hsub : entries ⊆ tallies) (make : κ → Nat → Nat → β) :
    entries.map (fun entry => make entry.1 entry.2.interactions entry.2.uniqueAuthors) =
      (entries.map Prod.fst).map fun k =>
        make k (group key items k).length (audience author (group key items k)) := by
  rw [List.map_map]
  refine List.map_congr_left fun entry hentry => ?_
  have hcounts := h.counts entry.1 entry.2 (hsub hentry)
  rw [hcounts.interactions, hcounts.uniqueAuthors]
  rfl

/-! ## How much is counted -/

/-- The number of items that tallies count. -/
def total (tallies : Tallies κ) : Nat := (tallies.map fun entry => entry.2.interactions).sum

theorem total_add {name : String} : total (add k name tallies) = total tallies + 1 := by
  induction tallies with
  | nil => rfl
  | cons entry rest ih =>
    obtain ⟨k', t⟩ := entry
    rw [add]
    split
    · exact Nat.add_right_comm ..
    · calc total ((k', t) :: add k name rest)
          = t.interactions + total (add k name rest) := List.sum_cons
        _ = t.interactions + (total rest + 1) := by rw [ih]
        _ = total ((k', t) :: rest) + 1 := (Nat.add_assoc ..).symm

/-- All items that have a key are counted. -/
theorem total_ofItems (key : α → Option κ) (author : α → String) (items : List α) :
    total (ofItems key author items) = items.countP fun item => (key item).isSome := by
  induction items using List.reverseRecOn with
  | nil => rfl
  | append_singleton items item ih =>
    rw [ofItems_append, List.countP_append, ← ih, List.countP_singleton]
    cases hk : key item with
    | some k => exact total_add
    | none => rfl

end Tallies
end Inquiry
