import Inquiry.Text.Keyed
import Mathlib.Data.List.Nodup
import Mathlib.Data.List.Sort

/-!
# Proofs.Text.Keyed — the maps and sets that lists stand for

Entries in ascending order of names have one entry of a name at most, so that looking a name up and
finding its entry come to the same.

* `Keyed.ascending_ofEntries`: the map of any entries is in ascending order.
* `Keyed.find?_ofEntries`: it has the values that the entries have.
* `Keyed.mem_ofEntries`: its entries are the names with their last values.
* `Keyed.find?_filterMap`: entries that are changed or dropped one by one are found as they are then.
* `TextSet.ofList_toList`: a set of texts is that of its texts, which determine it.
-/

namespace Inquiry
namespace Keyed

variable {α : Type}

instance (entries : Keyed α) : Decidable entries.Ascending :=
  inferInstanceAs (Decidable ((entries.map Prod.fst).Pairwise (· < ·)))

theorem exists_of_find? {name : String} {v : α} {entries : Keyed α} (h : entries.find? name = some v) :
    (name, v) ∈ entries := by
  induction entries with
  | nil => cases h
  | cons entry rest ih =>
    obtain ⟨k, w⟩ := entry
    simp only [find?, Option.or_eq_some_iff] at h
    rcases h with h | ⟨-, h⟩
    · exact List.mem_cons_of_mem _ (ih h)
    · split at h
      · rename_i hname
        cases h
        rw [hname]
        exact List.mem_cons_self
      · cases h

theorem find?_eq_none_iff {name : String} {entries : Keyed α} :
    entries.find? name = none ↔ name ∉ entries.map Prod.fst := by
  induction entries with
  | nil => simp [find?]
  | cons entry rest ih =>
    obtain ⟨k, w⟩ := entry
    rw [find?, Option.or_eq_none_iff, ih, List.map_cons, List.mem_cons, not_or]
    by_cases hname : k = name
    · simp [hname]
    · simp [hname, Ne.symm hname]

theorem Ascending.nodup {entries : Keyed α} (h : entries.Ascending) : (entries.map Prod.fst).Nodup := by
  refine List.Pairwise.imp ?_ h
  rintro a b hab rfl
  exact String.lt_irrefl a hab

/-- Entries in ascending order are determined by what entries there are. -/
theorem Ascending.eq_of_perm {entries entries' : Keyed α} (h : entries.Ascending)
    (h' : entries'.Ascending) (hperm : entries.Perm entries') : entries = entries' := by
  refine hperm.eq_of_pairwise ?_ (List.pairwise_map.1 h) (List.pairwise_map.1 h')
  intro a b _ _ hab hba
  exact absurd (String.lt_trans hab hba) (String.lt_irrefl a.1)

/-! ## Adding an entry -/

theorem names_insertNew {k name : String} {v : α} {entries : Keyed α} :
    name ∈ (insertNew k v entries).map Prod.fst ↔ name = k ∨ name ∈ entries.map Prod.fst := by
  induction entries with
  | nil => simp [insertNew]
  | cons entry rest ih =>
    obtain ⟨k', v'⟩ := entry
    simp only [insertNew]
    by_cases hlt : k < k'
    · simp [hlt]
    · by_cases hsame : k = k'
      · simp [hsame]
      · simp only [hlt, hsame, if_false, List.map_cons, List.mem_cons, ih]
        exact or_left_comm

theorem ascending_insertNew (k : String) (v : α) {entries : Keyed α} (h : entries.Ascending) :
    (insertNew k v entries).Ascending := by
  induction entries with
  | nil => exact List.pairwise_singleton _ _
  | cons entry rest ih =>
    obtain ⟨k', v'⟩ := entry
    obtain ⟨hfirst, hrest⟩ := List.pairwise_cons.1 h
    simp only [insertNew]
    by_cases hlt : k < k'
    · rw [if_pos hlt]
      refine List.pairwise_cons.2 ⟨?_, h⟩
      intro name hname
      rcases List.mem_cons.1 hname with rfl | hname
      · exact hlt
      · exact String.lt_trans hlt (hfirst name hname)
    · by_cases hsame : k = k'
      · simpa [hsame] using h
      · rw [if_neg hlt, if_neg hsame]
        refine List.pairwise_cons.2 ⟨?_, ih hrest⟩
        intro name hname
        rcases names_insertNew.1 hname with rfl | hname
        · have hle : k' ≤ name := String.not_lt.1 hlt
          apply Decidable.byContradiction
          intro hnot
          exact hsame (String.le_antisymm (String.not_lt.1 hnot) hle)
        · exact hfirst name hname

/-- An entry of a new name is added to those that there are. -/
theorem insertNew_perm {k : String} {v : α} {entries : Keyed α} (hnew : k ∉ entries.map Prod.fst) :
    (insertNew k v entries).Perm ((k, v) :: entries) := by
  induction entries with
  | nil => exact .refl _
  | cons entry rest ih =>
    obtain ⟨k', v'⟩ := entry
    rw [List.map_cons, List.mem_cons, not_or] at hnew
    obtain ⟨hne, hrest⟩ := hnew
    simp only [insertNew]
    by_cases hlt : k < k'
    · rw [if_pos hlt]
    · rw [if_neg hlt, if_neg hne]
      exact ((ih hrest).cons _).trans (.swap _ _ _)

/-- Where names ascend, the entry that is added is found unless there was one of its name. -/
theorem find?_insertNew {k name : String} {v : α} {entries : Keyed α} (h : entries.Ascending) :
    (insertNew k v entries).find? name = (entries.find? name).or (if k = name then some v else none) := by
  induction entries with
  | nil => rfl
  | cons entry rest ih =>
    obtain ⟨k', v'⟩ := entry
    obtain ⟨hfirst, hrest⟩ := List.pairwise_cons.1 h
    simp only [insertNew]
    by_cases hlt : k < k'
    · rw [if_pos hlt]
      rfl
    · by_cases hsame : k = k'
      · -- The entry that was there stays.
        rw [if_neg hlt, if_pos hsame, hsame, find?, Option.or_assoc]
        by_cases hname : k' = name
        · simp [hname]
        · simp [hname]
      · rw [if_neg hlt, if_neg hsame, find?, find?, ih hrest]
        by_cases hname : k = name
        · have hother : k' ≠ name := fun heq => hsame (hname.trans heq.symm)
          simp [hother]
        · simp [hname]

/-! ## The map of entries -/

theorem ascending_ofEntries (entries : Keyed α) : (ofEntries entries).Ascending := by
  induction entries with
  | nil => exact List.Pairwise.nil
  | cons entry rest ih => exact ascending_insertNew entry.1 entry.2 ih

theorem find?_ofEntries (name : String) (entries : Keyed α) :
    (ofEntries entries).find? name = entries.find? name := by
  induction entries with
  | nil => rfl
  | cons entry rest ih =>
    rw [ofEntries, find?_insertNew (ascending_ofEntries rest), ih]
    rfl

/-- In ascending order there is one entry of a name at most. -/
theorem mem_iff_find? {k : String} {v : α} {entries : Keyed α} (h : entries.Ascending) :
    (k, v) ∈ entries ↔ entries.find? k = some v := by
  refine ⟨fun hmem => ?_, exists_of_find?⟩
  induction entries with
  | nil => cases hmem
  | cons entry rest ih =>
    obtain ⟨hfirst, hrest⟩ := List.pairwise_cons.1 h
    rcases List.mem_cons.1 hmem with rfl | hmem
    · have hnone : find? k rest = none := by
        refine find?_eq_none_iff.2 fun hname => ?_
        exact String.lt_irrefl k (hfirst k hname)
      simp [find?, hnone]
    · rw [find?, ih hrest hmem]
      rfl

theorem mem_ofEntries {k : String} {v : α} {entries : Keyed α} :
    (k, v) ∈ ofEntries entries ↔ entries.find? k = some v := by
  rw [mem_iff_find? (ascending_ofEntries entries), find?_ofEntries]

theorem ofEntries_eq_nil_iff {entries : Keyed α} : ofEntries entries = [] ↔ entries = [] := by
  constructor
  · intro h
    cases entries with
    | nil => rfl
    | cons entry rest =>
      have hname : entry.1 ∈ (ofEntries (entry :: rest)).map Prod.fst := names_insertNew.2 (.inl rfl)
      rw [h] at hname
      cases hname
  · rintro rfl
    rfl

/-- Entries in ascending order are determined by the values of their names. -/
theorem eq_of_find? {entries entries' : Keyed α} (h : entries.Ascending) (h' : entries'.Ascending)
    (hsame : ∀ name, entries.find? name = entries'.find? name) : entries = entries' := by
  refine h.eq_of_perm h' ((List.perm_ext_iff_of_nodup (h.nodup.of_map _) (h'.nodup.of_map _)).2 ?_)
  intro entry
  rw [mem_iff_find? h, mem_iff_find? h', hsame]

/-- The map of entries in ascending order is these entries. -/
theorem ofEntries_of_ascending {entries : Keyed α} (h : entries.Ascending) : ofEntries entries = entries :=
  eq_of_find? (ascending_ofEntries entries) h fun name => find?_ofEntries name entries

/-! ## Changing the values of a map -/

variable {β : Type}

theorem ascending_filterMap (f : String → α → Option β) {entries : Keyed α} (h : entries.Ascending) :
    Ascending (entries.filterMap fun entry => (f entry.1 entry.2).map (entry.1, ·)) := by
  refine List.pairwise_map.2 ((List.pairwise_map.1 h).filterMap _ ?_)
  intro a a' hlt b hb b' hb'
  obtain ⟨v, -, rfl⟩ := Option.map_eq_some_iff.1 hb
  obtain ⟨v', -, rfl⟩ := Option.map_eq_some_iff.1 hb'
  exact hlt

theorem find?_filterMap (f : String → α → Option β) {entries : Keyed α} (h : entries.Ascending)
    (name : String) :
    find? name (entries.filterMap fun entry => (f entry.1 entry.2).map (entry.1, ·)) =
      (entries.find? name).bind (f name) := by
  ext v
  simp only [← mem_iff_find? (ascending_filterMap f h), List.mem_filterMap, Option.map_eq_some_iff,
    Option.bind_eq_some_iff, ← mem_iff_find? h, Prod.exists, Prod.mk.injEq]
  constructor
  · rintro ⟨k, w, hmem, _, hv, rfl, rfl⟩
    exact ⟨w, hmem, hv⟩
  · rintro ⟨w, hmem, hv⟩
    exact ⟨name, w, hmem, v, hv, rfl, rfl⟩

end Keyed

/-! ## Sets of texts -/

namespace TextSet

/-- Texts in ascending order are those of their set. -/
theorem toList_ofList {texts : List String} (h : texts.Pairwise (· < ·)) :
    (ofList texts).toList = texts := by
  induction texts with
  | nil => rfl
  | cons text texts ih =>
    obtain ⟨hfirst, hrest⟩ := List.pairwise_cons.1 h
    have hinsert : (ofList (text :: texts)).toList = insertOrdered text texts :=
      congrArg (insertOrdered text) (ih hrest)
    rw [hinsert]
    cases texts with
    | nil => rfl
    | cons next texts => exact if_pos (hfirst next List.mem_cons_self)

theorem toList_injective : Function.Injective toList := by
  rintro ⟨texts, _⟩ ⟨texts', _⟩ rfl
  rfl

theorem ofList_toList (set : TextSet) : ofList set.toList = set :=
  toList_injective (toList_ofList set.ascending)

theorem eq_of_mem_iff {set set' : TextSet} (h : ∀ text, text ∈ set.toList ↔ text ∈ set'.toList) : set = set' :=
  toList_injective (set.ascending.eq_of_mem_iff set'.ascending h)

theorem eq_empty_iff {set : TextSet} : set = .empty ↔ ∀ text, text ∉ set.toList := by
  constructor
  · rintro rfl text
    exact List.not_mem_nil
  · intro h
    obtain ⟨texts, hascending⟩ := set
    cases List.eq_nil_iff_forall_not_mem.2 h
    rfl

end TextSet
end Inquiry
