import Inquiry.Proofs.Corpus.Audience
import Inquiry.Proofs.Corpus.Bucket
import Mathlib.Algebra.BigOperators.Group.Finset.Basic

/-!
# Proofs.Corpus.TimeSeries — a time series is exact

The buckets of a time series are told with the exact numbers of their interactions and authors, in the order
of time, or withheld. Each selected interaction is in one of them.

* `Corpus.Series`: what a result tells of buckets, each with the interactions that lie in it.
* `Corpus.starts_pairwise`: the sorted tallies are in the order of time.
* `Corpus.total_withheld`: the withheld tallies count the interactions of the withheld buckets.
* `Corpus.analyze_series`: a time series is answered with such a result.
-/

namespace Inquiry
namespace Corpus

open Tallies (group audience)

/-- The bucket that an interaction lies in. -/
def bucketOf (interval : Interval) (span : UInt32) (i : Interaction) : Int :=
  interval.bucketStart span i.createdAt

/-- The interactions that lie in a bucket. -/
def inBucket (selected : List Interaction) (interval : Interval) (span : UInt32) : Int → List Interaction :=
  group (fun i => some (bucketOf interval span i)) selected

/-- A result tells the buckets of a series, each with its interactions. -/
structure Series (c : Corpus) (selected : List Interaction) (interval : Interval) (span : UInt32)
    (r : Result) : Prop where
  /-- The records are those of all buckets that may be told, the earliest first. -/
  records : ∃ starts : List Int, (∀ start, start ∈ starts ↔ c.Told (inBucket selected interval span start)) ∧
    starts.Pairwise (· < ·) ∧ (r.records.filterMap Record.timestamp?).map Int64.toInt = starts ∧
    r.records = starts.map fun start =>
      .bucket (Int64.ofInt start) (inBucket selected interval span start).length
        (audience Interaction.author (inBucket selected interval span start))
  ascending : (r.records.filterMap Record.timestamp?).Pairwise (· < ·)
  redacted : ∀ text, text ∈ r.redacted.toList ↔
    ∃ start, c.Withheld (inBucket selected interval span start) ∧ toString start = text
  bounds : ∀ record ∈ r.records, 1 ≤ record.uniqueAuthors ∧ record.uniqueAuthors ≤ record.interactions
  /-- The interactions that are told and those that are withheld are all that are selected. -/
  conserved : (r.records.map Record.interactions).sum +
    ∑ start ∈ (selected.map (bucketOf interval span)).toFinset with
      c.Withheld (inBucket selected interval span start), (inBucket selected interval span start).length =
    selected.length

variable {c : Corpus} {selected : List Interaction} {interval : Interval} {span : UInt32}
  {tallies : Tallies Int}

/-! ## The records of tallies -/

/-- Whether the first of two tallies is of an earlier bucket. -/
def startsBefore (a b : Int × Tally) : Bool := a.1 ≤ b.1

/-- The record of the tally of a bucket. -/
def bucketRecord (entry : Int × Tally) : Record :=
  .bucket (Int64.ofInt entry.1) entry.2.interactions entry.2.uniqueAuthors

theorem timeSeries_eq (c : Corpus) (selected : List Interaction) (interval : Interval) (span : UInt32) :
    let tallies := Tallies.ofItems (fun i => some (bucketOf interval span i)) Interaction.author selected
    c.timeSeries selected interval span = (((c.told tallies).mergeSort startsBefore).map bucketRecord,
      .ofList (((c.withheld tallies).map Prod.fst).map toString)) := by
  simp only [timeSeries, partition_withholds, List.map_map]
  rfl

theorem timestamps_map_bucketRecord (entries : Tallies Int) :
    (entries.map bucketRecord).filterMap Record.timestamp? = (entries.map Prod.fst).map Int64.ofInt := by
  rw [List.filterMap_map, List.map_map]
  exact congrFun List.filterMap_eq_map entries

theorem sum_map_bucketRecord {entries entries' : Tallies Int} (h : entries.Perm entries') :
    ((entries.map bucketRecord).map Record.interactions).sum = Tallies.total entries' := by
  rw [List.map_map]
  exact (h.map _).sum_nat

theorem startsBefore_trans (a b d : Int × Tally) (hab : startsBefore a b = true)
    (hbd : startsBefore b d = true) : startsBefore a d = true :=
  decide_eq_true (Int.le_trans (of_decide_eq_true hab) (of_decide_eq_true hbd))

theorem startsBefore_total (a b : Int × Tally) : (startsBefore a b || startsBefore b a) = true := by
  simpa [startsBefore] using Int.le_total a.1 b.1

/-- Where no bucket has two tallies, one of two buckets is before the other. -/
theorem starts_pairwise
    (h : tallies.Exact (fun i => some (bucketOf interval span i)) Interaction.author selected) :
    (c.toldKeys startsBefore tallies).Pairwise (· < ·) := by
  have hsorted : (c.toldKeys startsBefore tallies).Pairwise (· ≤ ·) := by
    have hle := List.pairwise_mergeSort startsBefore_trans startsBefore_total (c.told tallies)
    exact List.pairwise_map.2 (hle.imp of_decide_eq_true)
  exact (hsorted.and (nodup_toldKeys h)).imp Int.lt_iff_le_and_ne.2

/-- Every bucket in which there are interactions has a start of 64 bits. -/
theorem toInt_start {start : Int} (h : inBucket selected interval span start ≠ []) :
    (Int64.ofInt start).toInt = start := by
  obtain ⟨i, -, hi⟩ := Tallies.group_ne_nil_iff.1 h
  cases hi
  exact Interval.toInt_bucketStart interval span i.createdAt

/-- The tallies that are withheld count the interactions of the buckets that are. -/
theorem total_withheld
    (h : tallies.Exact (fun i => some (bucketOf interval span i)) Interaction.author selected) :
    Tallies.total (c.withheld tallies) = ∑ start ∈ (selected.map (bucketOf interval span)).toFinset with
      c.Withheld (inBucket selected interval span start), (inBucket selected interval span start).length := by
  have hset : (selected.map (bucketOf interval span)).toFinset.filter
      (fun start => c.Withheld (inBucket selected interval span start)) =
        ((c.withheld tallies).map Prod.fst).toFinset := by
    ext start
    rw [List.mem_toFinset, Finset.mem_filter, List.mem_toFinset, mem_withheld h]
    -- A bucket that is withheld has interactions, and each of them was selected.
    refine and_iff_right_of_imp fun hwithheld => ?_
    obtain ⟨i, hi, hstart⟩ := Tallies.group_ne_nil_iff.1 hwithheld.1
    cases hstart
    exact List.mem_map_of_mem hi
  have hsub : c.withheld tallies ⊆ tallies := fun _ => List.mem_of_mem_filter
  have hcounts := h.map_counts hsub fun _ n _ => n
  rw [hset, List.sum_toFinset _ (nodup_withheld h), Tallies.total, hcounts]
  rfl

/-! ## The result -/

/-- The time series of selected interactions. -/
theorem series_timeSeries (c : Corpus) (selected : List Interaction) (interval : Interval) (span : UInt32)
    (kind : Kind) (parameters : Parameters) :
    c.Series selected interval span
      ⟨kind, parameters, (c.timeSeries selected interval span).1, (c.timeSeries selected interval span).2⟩ := by
  have hexact := Tallies.exact_ofItems (fun i => some (bucketOf interval span i)) Interaction.author selected
  have htotal := Tallies.total_ofItems (fun i => some (bucketOf interval span i)) Interaction.author selected
  rw [timeSeries_eq]
  generalize Tallies.ofItems (fun i => some (bucketOf interval span i)) Interaction.author selected = tallies
    at hexact htotal
  have htold : ∀ start ∈ c.toldKeys startsBefore tallies, c.Told (inBucket selected interval span start) :=
    fun start hstart => (mem_toldKeys hexact).1 hstart
  have hstarts : ∀ start ∈ c.toldKeys startsBefore tallies, (Int64.ofInt start).toInt = start :=
    fun start hstart => toInt_start (htold start hstart).1
  have hrecords : ((c.told tallies).mergeSort startsBefore).map bucketRecord = _ :=
    map_toldKeys hexact fun start => Record.bucket (Int64.ofInt start)
  have htimestamps := timestamps_map_bucketRecord ((c.told tallies).mergeSort startsBefore)
  have hsum := sum_map_bucketRecord (List.mergeSort_perm (c.told tallies) startsBefore)
  refine ⟨⟨_, fun _ => mem_toldKeys hexact, starts_pairwise hexact, ?_, hrecords⟩, ?_, ?_, ?_, ?_⟩
  · rw [htimestamps, List.map_map]
    exact (List.map_congr_left hstarts).trans (List.map_id _)
  · -- Told starts fit in 64 bits, so that their order survives.
    rw [htimestamps]
    refine List.pairwise_map.2 ((starts_pairwise hexact).imp_of_mem fun ha hb hlt => ?_)
    rw [Int64.lt_iff_toInt_lt, hstarts _ ha, hstarts _ hb]
    exact hlt
  · intro text
    rw [TextSet.mem_toList_ofList, List.mem_map]
    exact exists_congr fun start => and_congr_left' (mem_withheld hexact)
  · intro record hrecord
    obtain ⟨start, hstart, rfl⟩ := List.mem_map.1 (hrecords ▸ hrecord)
    exact ⟨Tallies.audience_pos (htold start hstart).1, Tallies.audience_le_length⟩
  · -- Every interaction has a bucket, so that all are counted.
    have hall : Tallies.total tallies = selected.length :=
      htotal.trans (List.countP_eq_length.2 fun _ _ => rfl)
    rw [hsum, ← total_withheld hexact, total_told_add_withheld, hall]

/-- A time series with a good filter and a span is answered with the series of the interactions that pass the
filter and the restriction of the context. -/
theorem analyze_series (c : Corpus) {spec : Spec} (context : Option Result) {filter : Option Filter}
    (hparameters : spec.parameters = .timeSeries interval span) (hspan : span ≠ 0)
    (hfilter : filterOf spec = .ok filter) :
    ∃ r, c.analyze spec context = .ok r ∧ r.kind = spec.kind ∧ r.parameters = spec.parameters ∧
      c.Series (c.interactions.filter (passes filter context)) interval span r := by
  refine ⟨_, ?_, rfl, rfl, series_timeSeries c _ interval span spec.kind spec.parameters⟩
  rw [analyze, select_eq hfilter, hparameters]
  exact if_neg hspan

/-- An interaction of an author at a second. -/
def post (author : String) (second : Int) : Interaction := ⟨.ofSecond second, author, .object []⟩

/-- Two authors on the last day of 1969, and one of them on the day after it. -/
def posts : Corpus := ⟨[post "ann" 0, post "bob" (-1), post "ann" (-86400), post "ann" 86399], 2⟩

/-- The second day has two interactions and one author, and is withheld. -/
theorem analyze_series_posts : ∃ r,
    posts.analyze ⟨.timeSeries, none, none, .timeSeries .day 1⟩ none = .ok r ∧
      posts.Series (posts.interactions.filter (passes none none)) .day 1 r ∧
      "0" ∈ r.redacted.toList ∧ -86400 ∈ r.records.filterMap Record.timestamp? := by
  have hfilter : filterOf ⟨.timeSeries, none, none, .timeSeries .day 1⟩ = .ok none := rfl
  obtain ⟨r, hanswer, -, -, hr⟩ := posts.analyze_series none rfl (by decide) hfilter
  obtain ⟨starts, hmem, -, htimestamps, -⟩ := hr.records
  refine ⟨r, hanswer, hr, (hr.redacted "0").2 ⟨0, ?_, rfl⟩, ?_⟩
  · decide +kernel
  · have htold : -86400 ∈ starts := (hmem _).2 (by decide +kernel)
    rw [← htimestamps] at htold
    obtain ⟨timestamp, htimestamp, heq⟩ := List.mem_map.1 htold
    cases Int64.toInt_inj.1 (heq.trans (b := (-86400 : Int64).toInt) rfl)
    exact htimestamp

end Corpus
end Inquiry
