import Inquiry.Proofs.Corpus.Audience
import Inquiry.Proofs.Text.ByteOrder

/-!
# Proofs.Corpus.Frequencies — a frequency distribution is exact

The values of a field are told with the exact numbers of their interactions and authors, the most frequent
first, and values with too few authors are withheld before the list is cut off.

* `Corpus.Distribution`: what a result tells of values, each with the interactions that have it.
* `Corpus.Precedes`: which of two values is in front of the other.
* `Corpus.ranking_pairwise`: the sorted tallies are in this order.
* `Corpus.analyze_distribution`: a frequency distribution is answered with such a result.
-/

namespace Inquiry
namespace Corpus

open Tallies (group audience)

/-- The interactions that have a text at a path. -/
def holders (selected : List Interaction) (target : String) : String → List Interaction :=
  group (Interaction.fieldText? · target) selected

/-- A value is in front of another if more interactions have it, and if as many have both and its bytes are
in front. -/
def Precedes (holders : String → List Interaction) (value value' : String) : Prop :=
  (holders value').length < (holders value).length ∨
    (holders value).length = (holders value').length ∧ Text.bytes value < Text.bytes value'

/-- A result tells the values of a field that are most frequent, each with its interactions. -/
structure Distribution (c : Corpus) (selected : List Interaction) (target : String) (threshold : UInt32)
    (r : Result) : Prop where
  /-- The records are the first ones of all values that may be told. -/
  records : ∃ ranking : List String, (∀ value, value ∈ ranking ↔ c.Told (holders selected target value)) ∧
    ranking.Pairwise (Precedes (holders selected target)) ∧
    r.records = (ranking.take threshold.toNat).map fun value =>
      .frequency value (holders selected target value).length
        (audience Interaction.author (holders selected target value))
  /-- What is withheld does not depend on the threshold. -/
  redacted : ∀ value, value ∈ r.redacted.toList ↔ c.Withheld (holders selected target value)
  nodup : r.keys.Nodup
  disjoint : ∀ value ∈ r.keys, value ∉ r.redacted.toList
  audience_ge : ∀ record ∈ r.records, c.minAudience ≤ record.uniqueAuthors

variable {c : Corpus} {selected : List Interaction} {target : String} {tallies : Tallies String}

/-! ## The order of tallies -/

theorem ranksBefore_trans (a b d : String × Tally) (hab : ranksBefore a b = true)
    (hbd : ranksBefore b d = true) : ranksBefore a d = true := by
  simp only [ranksBefore, Bool.or_eq_true, Bool.and_eq_true, decide_eq_true_eq, beq_iff_eq] at *
  rcases hab with hab | ⟨hab, hle⟩
  · left
    rcases hbd with hbd | ⟨hbd, -⟩
    · exact hbd.trans hab
    · exact hbd ▸ hab
  · rcases hbd with hbd | ⟨hbd, hle'⟩
    · exact .inl (hab ▸ hbd)
    · exact .inr ⟨hbd.trans hab, String.le_trans hle hle'⟩

theorem ranksBefore_total (a b : String × Tally) : (ranksBefore a b || ranksBefore b a) = true := by
  simp only [ranksBefore, Bool.or_eq_true, Bool.and_eq_true, decide_eq_true_eq, beq_iff_eq]
  rcases Nat.lt_trichotomy a.2.interactions b.2.interactions with hlt | heq | hgt
  · exact .inr (.inl hlt)
  · rcases String.le_total a.1 b.1 with hle | hle
    · exact .inl (.inr ⟨heq.symm, hle⟩)
    · exact .inr (.inr ⟨heq, hle⟩)
  · exact .inl (.inl hgt)

/-- Where no value has two tallies, one of two values precedes the other. -/
theorem ranking_pairwise (h : tallies.Exact (Interaction.fieldText? · target) Interaction.author selected) :
    (c.toldKeys ranksBefore tallies).Pairwise (Precedes (holders selected target)) := by
  have hsorted := List.pairwise_mergeSort ranksBefore_trans ranksBefore_total (c.told tallies)
  have hnodup : (c.toldKeys ranksBefore tallies).Nodup := nodup_toldKeys h
  have hcount : ∀ entry ∈ (c.told tallies).mergeSort ranksBefore,
      (holders selected target entry.1).length = entry.2.interactions :=
    fun entry hentry => (h.counts _ _ (sorted_subset hentry)).interactions.symm
  refine List.pairwise_map.2 ((hsorted.and (List.pairwise_map.1 hnodup)).imp_of_mem ?_)
  rintro a b ha hb ⟨hranks, hne⟩
  rw [Precedes, hcount a ha, hcount b hb, ← Text.lt_iff_bytes_lt]
  simp only [ranksBefore, Bool.or_eq_true, Bool.and_eq_true, decide_eq_true_eq, beq_iff_eq] at hranks
  -- Between equal numbers the values decide, and no two are the same.
  refine hranks.imp_right fun hsame => ⟨hsame.1.symm, ?_⟩
  apply String.not_le.1
  intro hle
  exact hne (String.le_antisymm hsame.2 hle)

/-! ## The result -/

/-- The record of the tally of a value. -/
def frequencyRecord (entry : String × Tally) : Record :=
  .frequency entry.1 entry.2.interactions entry.2.uniqueAuthors

theorem frequencies_eq (c : Corpus) (selected : List Interaction) (target : String) (threshold : UInt32) :
    let tallies := Tallies.ofItems (Interaction.fieldText? · target) Interaction.author selected
    c.frequencies selected target threshold =
      ((((c.told tallies).mergeSort ranksBefore).take threshold.toNat).map frequencyRecord,
        .ofList ((c.withheld tallies).map Prod.fst)) := by
  simp only [frequencies, partition_withholds]
  rfl

theorem keys_map_frequencyRecord (entries : Tallies String) :
    (entries.map frequencyRecord).filterMap Record.key? = entries.map Prod.fst := by
  rw [List.filterMap_map]
  exact congrFun List.filterMap_eq_map entries

/-- The frequency distribution of selected interactions. -/
theorem distribution_frequencies (c : Corpus) (selected : List Interaction) (target : String)
    (threshold : UInt32) (kind : Kind) (parameters : Parameters) :
    c.Distribution selected target threshold
      ⟨kind, parameters, (c.frequencies selected target threshold).1,
        (c.frequencies selected target threshold).2⟩ := by
  have hexact := Tallies.exact_ofItems (Interaction.fieldText? · target) Interaction.author selected
  rw [frequencies_eq]
  generalize Tallies.ofItems (Interaction.fieldText? · target) Interaction.author selected = tallies at hexact
  have hrecords : (((c.told tallies).mergeSort ranksBefore).take threshold.toNat).map frequencyRecord =
      ((c.toldKeys ranksBefore tallies).take threshold.toNat).map fun value =>
        .frequency value (holders selected target value).length
          (audience Interaction.author (holders selected target value)) := by
    rw [List.map_take, List.map_take]
    exact congrArg (List.take _) (map_toldKeys hexact Record.frequency)
  have hkeys : ((((c.told tallies).mergeSort ranksBefore).take threshold.toNat).map frequencyRecord).filterMap
      Record.key? = (c.toldKeys ranksBefore tallies).take threshold.toNat :=
    (keys_map_frequencyRecord _).trans List.map_take
  have hredacted : ∀ value, value ∈ (TextSet.ofList ((c.withheld tallies).map Prod.fst)).toList ↔
      c.Withheld (holders selected target value) :=
    fun _ => TextSet.mem_toList_ofList.trans (mem_withheld hexact)
  have htold : ∀ value ∈ (c.toldKeys ranksBefore tallies).take threshold.toNat,
      c.Told (holders selected target value) :=
    fun value hvalue => (mem_toldKeys hexact).1 (List.mem_of_mem_take hvalue)
  refine ⟨⟨_, fun _ => mem_toldKeys hexact, ranking_pairwise hexact, hrecords⟩, hredacted, ?_, ?_, ?_⟩
  · rw [Result.keys, hkeys]
    exact (nodup_toldKeys hexact).sublist (List.take_sublist ..)
  · intro value hvalue
    rw [Result.keys, hkeys] at hvalue
    rw [hredacted]
    exact (htold value hvalue).not_withheld
  · intro record hrecord
    obtain ⟨value, hvalue, rfl⟩ := List.mem_map.1 (hrecords ▸ hrecord)
    exact (htold value hvalue).2

/-- A frequency distribution with a good filter is answered with the distribution of the interactions that
pass the filter and the restriction of the context. -/
theorem analyze_distribution (c : Corpus) {spec : Spec} (context : Option Result) {filter : Option Filter}
    {threshold : UInt32} (hparameters : spec.parameters = .freqDist target threshold)
    (hfilter : filterOf spec = .ok filter) :
    ∃ r, c.analyze spec context = .ok r ∧ r.kind = spec.kind ∧ r.parameters = spec.parameters ∧
      c.Distribution (c.interactions.filter (passes filter context)) target threshold r := by
  refine ⟨_, ?_, rfl, rfl, distribution_frequencies c _ target threshold spec.kind spec.parameters⟩
  rw [analyze, select_eq hfilter, hparameters]

/-- An interaction of an author that mentions a brand. -/
def mention (author brand : String) : Interaction := ⟨.ofSecond 0, author, .object [("brand", .string brand)]⟩

/-- Mentions of two brands, of which only one is mentioned by two authors. -/
def mentions : Corpus := ⟨[mention "ann" "ford", mention "bob" "ford", mention "ann" "honda"], 2⟩

/-- The brand with one author is withheld, though there is room for its record. -/
theorem analyze_distribution_mentions : ∃ r,
    mentions.analyze ⟨.freqDist, none, some "brand exists", .freqDist "brand" 2⟩ none = .ok r ∧
      mentions.Distribution (mentions.interactions.filter (passes (some ⟨[.present "brand"]⟩) none))
        "brand" 2 r ∧
      "honda" ∈ r.redacted.toList ∧ "ford" ∉ r.redacted.toList := by
  have hfilter : filterOf ⟨.freqDist, none, some "brand exists", .freqDist "brand" 2⟩ =
      .ok (some ⟨[.present "brand"]⟩) := by
    have hparse : Filter.parse "brand exists" = .ok ⟨[.present "brand"]⟩ := by decide +kernel
    simp only [filterOf, hparse]
  obtain ⟨r, hanswer, -, -, hr⟩ := mentions.analyze_distribution none rfl hfilter
  refine ⟨r, hanswer, hr, (hr.redacted "honda").2 ?_, mt (hr.redacted "ford").1 ?_⟩
  · decide +kernel
  · decide +kernel

end Corpus
end Inquiry
