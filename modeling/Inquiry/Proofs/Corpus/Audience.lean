import Inquiry.Corpus.Analyze
import Inquiry.Proofs.Corpus.Tally

/-!
# Proofs.Corpus.Audience — what a corpus tells and what it withholds

Of the groups that interactions fall into, a corpus tells those with an audience that is large enough, and
withholds the others. The tallies of the groups are split accordingly.

* `Corpus.Told` and `Corpus.Withheld` are the two sorts of groups.
* `Corpus.mem_told`, `Corpus.mem_withheld`: the keys of the tallies on either side.
* `Corpus.total_told_add_withheld`: nothing that is counted is lost between them.
* `Corpus.map_toldKeys`: records that are made of sorted tallies have the counts of the groups of their keys.
-/

namespace Inquiry
namespace Corpus

open Tallies (group audience)

theorem select_eq {c : Corpus} {spec : Spec} {context : Option Result} {filter : Option Filter}
    (h : filterOf spec = .ok filter) :
    c.select spec context = .ok (c.interactions.filter (passes filter context)) := by
  rw [select, h]
  rfl

variable {κ : Type} {tallies : Tallies κ} {c : Corpus}

/-- Interactions whose count is told: there are some, and they have enough authors. -/
def Told (c : Corpus) (is : List Interaction) : Prop :=
  is ≠ [] ∧ c.minAudience ≤ audience Interaction.author is

/-- Interactions whose count is withheld: there are some, and they have too few authors. -/
def Withheld (c : Corpus) (is : List Interaction) : Prop :=
  is ≠ [] ∧ audience Interaction.author is < c.minAudience

instance (c : Corpus) : DecidablePred c.Told := fun _ => inferInstanceAs (Decidable (_ ∧ _))

instance (c : Corpus) : DecidablePred c.Withheld := fun _ => inferInstanceAs (Decidable (_ ∧ _))

theorem Told.not_withheld {is : List Interaction} (h : c.Told is) : ¬ c.Withheld is :=
  fun hwithheld => Nat.not_lt.2 h.2 hwithheld.2

/-- The tallies that are told. -/
def told (c : Corpus) (tallies : Tallies κ) : Tallies κ :=
  tallies.filter fun entry => !c.withholds entry.2

/-- The tallies that are withheld. -/
def withheld (c : Corpus) (tallies : Tallies κ) : Tallies κ :=
  tallies.filter fun entry => c.withholds entry.2

theorem partition_withholds :
    tallies.partition (fun entry => c.withholds entry.2) = (c.withheld tallies, c.told tallies) :=
  List.partition_eq_filter_filter

/-- What is told and what is withheld add up to all that is counted. -/
theorem total_told_add_withheld :
    Tallies.total (c.told tallies) + Tallies.total (c.withheld tallies) = Tallies.total tallies := by
  have hperm := List.filter_append_perm (fun entry => c.withholds entry.2) tallies
  have hsum := (hperm.map fun entry => entry.2.interactions).sum_nat
  rw [List.map_append, List.sum_append, Nat.add_comm] at hsum
  exact hsum

theorem sorted_subset {before : κ × Tally → κ × Tally → Bool} :
    (c.told tallies).mergeSort before ⊆ tallies :=
  fun _ hentry => List.mem_of_mem_filter ((List.mergeSort_perm ..).mem_iff.1 hentry)

variable [DecidableEq κ] {key : Interaction → Option κ} {selected : List Interaction} {k : κ}

theorem mem_told (h : tallies.Exact key Interaction.author selected) :
    k ∈ (c.told tallies).map Prod.fst ↔ c.Told (group key selected k) := by
  refine h.mem_keys_filter (fun t => !c.withholds t) (c.minAudience ≤ ·) fun t => ?_
  simp [withholds]

theorem mem_withheld (h : tallies.Exact key Interaction.author selected) :
    k ∈ (c.withheld tallies).map Prod.fst ↔ c.Withheld (group key selected k) := by
  refine h.mem_keys_filter c.withholds (· < c.minAudience) fun t => ?_
  simp [withholds]

theorem nodup_withheld (h : tallies.Exact key Interaction.author selected) :
    ((c.withheld tallies).map Prod.fst).Nodup :=
  h.nodup.sublist (List.filter_sublist.map Prod.fst)

/-! ## What is told in order -/

variable {before : κ × Tally → κ × Tally → Bool}

/-- The keys of the tallies that are told, sorted. -/
def toldKeys (c : Corpus) (before : κ × Tally → κ × Tally → Bool) (tallies : Tallies κ) : List κ :=
  ((c.told tallies).mergeSort before).map Prod.fst

theorem mem_toldKeys (h : tallies.Exact key Interaction.author selected) :
    k ∈ c.toldKeys before tallies ↔ c.Told (group key selected k) :=
  (((List.mergeSort_perm ..).map Prod.fst).mem_iff).trans (mem_told h)

theorem nodup_toldKeys (h : tallies.Exact key Interaction.author selected) :
    (c.toldKeys before tallies).Nodup :=
  ((List.mergeSort_perm ..).map Prod.fst).nodup_iff.2 (h.nodup.sublist (List.filter_sublist.map Prod.fst))

theorem map_toldKeys {β : Type} (h : tallies.Exact key Interaction.author selected)
    (make : κ → Nat → Nat → β) :
    ((c.told tallies).mergeSort before).map
        (fun entry => make entry.1 entry.2.interactions entry.2.uniqueAuthors) =
      (c.toldKeys before tallies).map fun k =>
        make k (group key selected k).length (audience Interaction.author (group key selected k)) :=
  h.map_counts sorted_subset make

end Corpus
end Inquiry
