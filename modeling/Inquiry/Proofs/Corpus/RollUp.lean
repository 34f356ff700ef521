import Inquiry.Proofs.Corpus.FollowUp
import Inquiry.Proofs.Corpus.Partition

/-!
# Proofs.Corpus.RollUp — coarser time series from finer ones

Buckets of a multiple of a span are made of whole buckets of the span. A series of the coarser buckets therefore
counts what the series of the finer ones counts in their parts; its authors are those of the parts, of whom some
may be in several.

* `Interval.lastStart_bucketStart`: an instant and the start of its finer bucket are in the same coarser one.
* `Interval.bucketStart_nests`: a finer bucket lies in one coarser bucket.
* `Corpus.inBucket_eq_filter`: a coarser bucket holds what the finer ones that start in it hold.
* `Corpus.analyze_rollsUp`: the series of a corpus, for every filter and context.
-/

namespace Inquiry

open Calendar

/-! ## Nested buckets -/

namespace Interval

variable {interval : Interval} {fine coarse : UInt32}

/-- Wherever a coarser bucket starts, a finer one does. -/
theorem IsStart.of_dvd (hdvd : units fine ∣ units coarse) {start : Int} (h : IsStart interval coarse start) :
    IsStart interval fine start := by
  have hunits : (units fine : Int) ∣ units coarse := Int.natCast_dvd_natCast.2 hdvd
  unfold IsStart at h ⊢
  cases hseconds : interval.seconds? with
  | some seconds =>
    rw [hseconds] at h
    exact (Int.mul_dvd_mul_left _ hunits).trans h
  | none =>
    rw [hseconds] at h
    obtain ⟨month, hmonth, rfl⟩ := h
    exact ⟨month, hunits.trans hmonth, rfl⟩

theorem lastStart_lastStart (hdvd : units fine ∣ units coarse) (second : Int) :
    lastStart interval coarse (lastStart interval fine second) = lastStart interval coarse second := by
  apply le_antisymm
  · exact lastStart_mono (lastStart_le interval fine second)
  · -- The coarser start is a finer one, and so it is not behind the last of these.
    have hstart := lastStart_isStart interval coarse second
    exact le_lastStart hstart (le_lastStart (hstart.of_dvd hdvd) (lastStart_le interval coarse second))

theorem lastStart_bucketStart (hdvd : units fine ∣ units coarse) (t : Instant) :
    lastStart interval coarse (interval.bucketStart fine t) = lastStart interval coarse t.second := by
  rw [bucketStart_eq]
  split
  · rfl
  · exact lastStart_lastStart hdvd t.second

/-- The coarser bucket of an instant starts among the instants. Only one of months may not. -/
def StartsInRange (interval : Interval) (span : UInt32) (t : Instant) : Prop :=
  interval.seconds? = none → firstMonth ≤ monthBucket span t.month

instance (interval : Interval) (span : UInt32) (t : Instant) : Decidable (interval.StartsInRange span t) :=
  inferInstanceAs (Decidable (_ → _))

theorem StartsInRange.firstSecond_le {span : UInt32} {t : Instant} (h : interval.StartsInRange span t)
    (hnone : interval.seconds? = none) : firstSecond ≤ lastStart interval span t.second := by
  rw [lastStart_of_month span hnone]
  exact firstSecond_le_iff.2 (h hnone)

/-- Instants in one finer bucket are in one coarser bucket. -/
theorem bucketStart_nests (hdvd : units fine ∣ units coarse) {t t' : Instant} (hin : interval.StartsInRange coarse t)
    (h : interval.bucketStart fine t' = interval.bucketStart fine t) :
    interval.bucketStart coarse t' = interval.bucketStart coarse t := by
  refine bucketStart_congr ?_ hin.firstSecond_le
  calc lastStart interval coarse t'.second
      = lastStart interval coarse (interval.bucketStart fine t') := (lastStart_bucketStart hdvd t').symm
    _ = lastStart interval coarse (interval.bucketStart fine t) := by rw [h]
    _ = lastStart interval coarse t.second := lastStart_bucketStart hdvd t

end Interval

/-! ## Authors of several groups -/

namespace Tallies

variable {α κ : Type} {author : α → String}

theorem audience_mono {items items' : List α} (h : items ⊆ items') :
    audience author items ≤ audience author items' := by
  apply Finset.card_le_card
  intro name hname
  obtain ⟨item, hitem, rfl⟩ := List.mem_map.1 (List.mem_toFinset.1 hname)
  exact List.mem_toFinset.2 (List.mem_map_of_mem (h hitem))

/-- The items of some keys have no more authors than the groups of the keys have together. -/
theorem audience_le_sum [DecidableEq κ] (key : α → Option κ) (items : List α) (keys : List κ) :
    audience author (items.filter fun item => (key item).any (· ∈ keys)) ≤
      (keys.map fun k => audience author (group key items k)).sum := by
  induction keys with
  | nil => simp [audience]
  | cons k keys ih =>
    have hsplit : ((items.filter fun item => (key item).any (· ∈ k :: keys)).map author).toFinset ⊆
        ((group key items k).map author).toFinset ∪
          ((items.filter fun item => (key item).any (· ∈ keys)).map author).toFinset := by
      intro name hname
      obtain ⟨item, hitem, rfl⟩ := List.mem_map.1 (List.mem_toFinset.1 hname)
      obtain ⟨hin, hkey⟩ := List.mem_filter.1 hitem
      obtain ⟨k', hitemKey, hk'⟩ := (Option.any_eq_true ..).1 hkey
      rcases List.mem_cons.1 (of_decide_eq_true hk') with rfl | hk'
      · have hgroup : item ∈ group key items k' := List.mem_filter.2 ⟨hin, decide_eq_true hitemKey⟩
        exact Finset.mem_union_left _ (List.mem_toFinset.2 (List.mem_map_of_mem hgroup))
      · have hlater : item ∈ items.filter fun item => (key item).any (· ∈ keys) := by
          apply List.mem_filter.2
          exact ⟨hin, (Option.any_eq_true ..).2 ⟨k', hitemKey, decide_eq_true hk'⟩⟩
        exact Finset.mem_union_right _ (List.mem_toFinset.2 (List.mem_map_of_mem hlater))
    calc audience author (items.filter fun item => (key item).any (· ∈ k :: keys))
        ≤ _ := Finset.card_le_card hsplit
      _ ≤ audience author (group key items k) +
            audience author (items.filter fun item => (key item).any (· ∈ keys)) := Finset.card_union_le ..
      _ ≤ audience author (group key items k) + (keys.map fun k => audience author (group key items k)).sum :=
          Nat.add_le_add_left ih _
      _ = ((k :: keys).map fun k => audience author (group key items k)).sum := List.sum_cons.symm

end Tallies

/-! ## Two series of one corpus -/

/-- A record is of a bucket that starts in the bucket of another record. -/
def Record.startsIn (interval : Interval) (span : UInt32) (whole part : Record) : Bool :=
  match whole.timestamp?, part.timestamp? with
  | some start, some second =>
    start.toInt ≤ second.toInt && second.toInt < interval.nextStart span start.toInt
  | _, _ => false

/-- The buckets of a result are those of another one taken together. -/
structure Result.RollsUp (interval : Interval) (span : UInt32) (whole parts : Result) : Prop where
  interactions : ∀ record ∈ whole.records, record.interactions =
    ((parts.records.filter (record.startsIn interval span ·)).map Record.interactions).sum
  /-- Every part is in exactly one whole. -/
  once : ∀ part ∈ parts.records, whole.records.countP (·.startsIn interval span part) = 1
  authors : ∀ record ∈ whole.records,
    (∀ part ∈ parts.records, record.startsIn interval span part → part.uniqueAuthors ≤ record.uniqueAuthors) ∧
      record.uniqueAuthors ≤ ((parts.records.filter (record.startsIn interval span ·)).map Record.uniqueAuthors).sum

namespace Corpus

open Inquiry.Interval (IsStart lastStart nextStart StartsInRange)
open Tallies (audience)

variable {c : Corpus} {selected : List Interaction} {interval : Interval} {span fine coarse : UInt32}

/-- The record of a bucket of interactions. -/
def recordOf (selected : List Interaction) (interval : Interval) (span : UInt32) (start : Int) : Record :=
  .bucket (Int64.ofInt start) (inBucket selected interval span start).length
    (audience Interaction.author (inBucket selected interval span start))

/-- Where nothing is withheld, a series has a record for each bucket in which there is an interaction. -/
theorem Series.exists_starts (h : c.minAudience ≤ 1) {r : Result} (hr : c.Series selected interval span r) :
    ∃ starts : List Int, starts.Nodup ∧ r.records = starts.map (recordOf selected interval span) ∧
      ∀ start, start ∈ starts ↔ ∃ i ∈ selected, bucketOf interval span i = start := by
  obtain ⟨starts, htold, hascending, -, hrecords⟩ := hr.records
  refine ⟨starts, hascending.imp Int.ne_of_lt, hrecords, fun start => ?_⟩
  rw [htold, told_iff h, inBucket, Tallies.group_ne_nil_iff]
  simp only [Option.some.injEq]

/-- The buckets of all interactions start among the instants. -/
def InRange (selected : List Interaction) (interval : Interval) (span : UInt32) : Prop :=
  ∀ i ∈ selected, interval.StartsInRange span i.createdAt

instance (selected : List Interaction) (interval : Interval) (span : UInt32) :
    Decidable (InRange selected interval span) :=
  inferInstanceAs (Decidable (∀ i ∈ selected, _))

theorem lastStart_bucketOf (hdvd : Interval.units fine ∣ Interval.units coarse)
    (hin : InRange selected interval coarse) {i : Interaction} (hi : i ∈ selected) :
    lastStart interval coarse (bucketOf interval fine i) = bucketOf interval coarse i := by
  rw [bucketOf, Interval.lastStart_bucketStart hdvd]
  exact (Interval.bucketStart_eq_lastStart (hin i hi).firstSecond_le).symm

/-- The record of a finer bucket is part of that of a coarser one if their interactions share the coarser
bucket. -/
theorem startsIn_recordOf (hdvd : Interval.units fine ∣ Interval.units coarse)
    (hin : InRange selected interval coarse) {i j : Interaction} (hi : i ∈ selected) (hj : j ∈ selected) :
    (recordOf selected interval coarse (bucketOf interval coarse j)).startsIn interval coarse
        (recordOf selected interval fine (bucketOf interval fine i)) =
      decide (bucketOf interval coarse i = bucketOf interval coarse j) := by
  have hstart : IsStart interval coarse (bucketOf interval coarse j) := by
    rw [← lastStart_bucketOf (Nat.dvd_refl _) hin hj]
    exact Interval.lastStart_isStart ..
  -- Starts fit in 64 bits, so that records tell them as they are.
  have htold : (Int64.ofInt (bucketOf interval coarse j)).toInt = bucketOf interval coarse j :=
    Interval.toInt_bucketStart interval coarse j.createdAt
  have hpart : (Int64.ofInt (bucketOf interval fine i)).toInt = bucketOf interval fine i :=
    Interval.toInt_bucketStart interval fine i.createdAt
  have hiff := Interval.lastStart_eq_iff hstart (bucketOf interval fine i)
  rw [lastStart_bucketOf hdvd hin hi] at hiff
  rw [Bool.eq_iff_iff, decide_eq_true_iff, hiff]
  simp only [Record.startsIn, recordOf, Record.timestamp?, htold, hpart, Bool.and_eq_true, decide_eq_true_eq]

/-- The starts of finer buckets that are in one coarser bucket. -/
def startsWithin (interval : Interval) (coarse : UInt32) (starts : List Int) (whole : Int) : List Int :=
  starts.filter fun start => lastStart interval coarse start = whole

/-- A coarser bucket holds the interactions of the finer buckets that start in it. -/
theorem inBucket_eq_filter (hdvd : Interval.units fine ∣ Interval.units coarse)
    (hin : InRange selected interval coarse) {starts : List Int}
    (hstarts : ∀ i ∈ selected, bucketOf interval fine i ∈ starts) (whole : Int) :
    inBucket selected interval coarse whole = selected.filter fun i =>
      (some (bucketOf interval fine i)).any (· ∈ startsWithin interval coarse starts whole) := by
  refine List.filter_congr fun i hi => ?_
  rw [Option.any_some, startsWithin, decide_eq_decide, List.mem_filter, decide_eq_true_iff,
    lastStart_bucketOf hdvd hin hi, Option.some.injEq]
  exact (and_iff_right (hstarts i hi)).symm

/-- The parts of a record are the records of the starts within its bucket. -/
theorem filter_startsIn (hdvd : Interval.units fine ∣ Interval.units coarse)
    (hin : InRange selected interval coarse) {starts : List Int}
    (hstarts : ∀ start ∈ starts, ∃ i ∈ selected, bucketOf interval fine i = start) {j : Interaction}
    (hj : j ∈ selected) :
    (starts.map (recordOf selected interval fine)).filter
        ((recordOf selected interval coarse (bucketOf interval coarse j)).startsIn interval coarse ·) =
      (startsWithin interval coarse starts (bucketOf interval coarse j)).map (recordOf selected interval fine) := by
  rw [List.filter_map, startsWithin]
  congr 1
  refine List.filter_congr fun start hstart => ?_
  obtain ⟨i, hi, rfl⟩ := hstarts start hstart
  rw [Function.comp_apply, startsIn_recordOf hdvd hin hi hj, lastStart_bucketOf hdvd hin hi]

theorem inBucket_subset (hdvd : Interval.units fine ∣ Interval.units coarse)
    (hin : InRange selected interval coarse) {i : Interaction} (hi : i ∈ selected) :
    inBucket selected interval fine (bucketOf interval fine i) ⊆
      inBucket selected interval coarse (bucketOf interval coarse i) := by
  intro i' hi'
  obtain ⟨hselected, hsame⟩ := List.mem_filter.1 hi'
  have hfine : bucketOf interval fine i' = bucketOf interval fine i := Option.some.inj (of_decide_eq_true hsame)
  have hcoarse : bucketOf interval coarse i' = bucketOf interval coarse i := by
    rw [← lastStart_bucketOf hdvd hin hselected, hfine, lastStart_bucketOf hdvd hin hi]
  exact List.mem_filter.2 ⟨hselected, decide_eq_true (congrArg some hcoarse)⟩

/-- Of the coarser records exactly one has a given finer one for a part. -/
theorem countP_startsIn (hdvd : Interval.units fine ∣ Interval.units coarse)
    (hin : InRange selected interval coarse) {wholes : List Int} (hnodup : wholes.Nodup)
    (hmem : ∀ start, start ∈ wholes ↔ ∃ i ∈ selected, bucketOf interval coarse i = start) {i : Interaction}
    (hi : i ∈ selected) :
    (wholes.map (recordOf selected interval coarse)).countP
      (·.startsIn interval coarse (recordOf selected interval fine (bucketOf interval fine i))) = 1 := by
  have hown : bucketOf interval coarse i ∈ wholes := (hmem _).2 ⟨i, hi, rfl⟩
  calc (wholes.map (recordOf selected interval coarse)).countP
          (·.startsIn interval coarse (recordOf selected interval fine (bucketOf interval fine i)))
      = wholes.countP (· == bucketOf interval coarse i) := by
        rw [List.countP_map]
        refine List.countP_congr fun start hstart => ?_
        obtain ⟨j, hj, rfl⟩ := (hmem start).1 hstart
        rw [Function.comp_apply, startsIn_recordOf hdvd hin hi hj, decide_eq_true_iff, beq_iff_eq, eq_comm]
    _ = 1 := List.count_eq_one_of_mem hnodup hown

/-- Two series of the same interactions, of which one has coarser buckets, roll up. -/
theorem Series.rollsUp (hdvd : Interval.units fine ∣ Interval.units coarse) (h : c.minAudience ≤ 1)
    (hin : InRange selected interval coarse) {parts whole : Result} (hparts : c.Series selected interval fine parts)
    (hwhole : c.Series selected interval coarse whole) : whole.RollsUp interval coarse parts := by
  obtain ⟨starts, hnodup, hrecords, hmem⟩ := hparts.exists_starts h
  obtain ⟨wholes, hnodup', hrecords', hmem'⟩ := hwhole.exists_starts h
  have hall : ∀ i ∈ selected, bucketOf interval fine i ∈ starts := fun i hi => (hmem _).2 ⟨i, hi, rfl⟩
  have hany : ∀ start ∈ starts, ∃ i ∈ selected, bucketOf interval fine i = start := fun start => (hmem start).1
  -- Every record is that of the bucket of some interaction.
  have hpart : ∀ part ∈ parts.records, ∃ i ∈ selected,
      part = recordOf selected interval fine (bucketOf interval fine i) := by
    intro part hpart
    obtain ⟨start, hstart, rfl⟩ := List.mem_map.1 (hrecords ▸ hpart)
    obtain ⟨i, hi, rfl⟩ := hany start hstart
    exact ⟨i, hi, rfl⟩
  have hrecord : ∀ record ∈ whole.records, ∃ j ∈ selected,
      record = recordOf selected interval coarse (bucketOf interval coarse j) := by
    intro record hrecord
    obtain ⟨start, hstart, rfl⟩ := List.mem_map.1 (hrecords' ▸ hrecord)
    obtain ⟨j, hj, rfl⟩ := (hmem' start).1 hstart
    exact ⟨j, hj, rfl⟩
  refine ⟨fun record hwhole => ?_, fun part hfine => ?_, fun record hwhole => ⟨fun part hfine hstarts => ?_, ?_⟩⟩
  · -- Interactions are counted in the part that they are in.
    obtain ⟨j, hj, rfl⟩ := hrecord record hwhole
    rw [hrecords, filter_startsIn hdvd hin hany hj, List.map_map]
    calc (inBucket selected interval coarse (bucketOf interval coarse j)).length
        = selected.countP fun i => (some (bucketOf interval fine i)).any
            (· ∈ startsWithin interval coarse starts (bucketOf interval coarse j)) := by
          rw [inBucket_eq_filter hdvd hin hall, List.countP_eq_length_filter]
      _ = _ := (Tallies.sum_length_group (hnodup.filter _) selected).symm
  · obtain ⟨i, hi, rfl⟩ := hpart part hfine
    rw [hrecords']
    exact countP_startsIn hdvd hin hnodup' hmem' hi
  · obtain ⟨i, hi, rfl⟩ := hpart part hfine
    obtain ⟨j, hj, rfl⟩ := hrecord record hwhole
    rw [startsIn_recordOf hdvd hin hi hj, decide_eq_true_iff] at hstarts
    exact Tallies.audience_mono (hstarts ▸ inBucket_subset hdvd hin hi)
  · -- Authors are counted once in the whole, but once in each part that they are in.
    obtain ⟨j, hj, rfl⟩ := hrecord record hwhole
    rw [hrecords, filter_startsIn hdvd hin hany hj, List.map_map]
    calc audience Interaction.author (inBucket selected interval coarse (bucketOf interval coarse j))
        = audience Interaction.author (selected.filter fun i => (some (bucketOf interval fine i)).any
            (· ∈ startsWithin interval coarse starts (bucketOf interval coarse j))) := by
          rw [inBucket_eq_filter hdvd hin hall]
      _ ≤ _ := Tallies.audience_le_sum _ selected _

theorem units_dvd (hfine : fine ≠ 0) {k : Nat} (hk : 1 ≤ k) (hmul : coarse.toNat = k * fine.toNat) :
    coarse ≠ 0 ∧ Interval.units fine ∣ Interval.units coarse := by
  have hpos : 0 < fine.toNat := Nat.pos_of_ne_zero fun hzero => hfine (UInt32.toNat_inj.1 hzero)
  have hcoarse : coarse ≠ 0 := by
    rintro rfl
    exact absurd hmul.symm (Nat.mul_pos hk hpos).ne'
  rw [Interval.units_eq hfine, Interval.units_eq hcoarse, hmul]
  exact ⟨hcoarse, Nat.dvd_mul_left ..⟩

/-- Buckets of a multiple of a span are made of buckets of the span, and the time series of the two roll up, whatever
the filter and the context: unless a count may be withheld, and as long as no coarser bucket starts before all
instants. -/
theorem analyze_rollsUp (c : Corpus) {spec spec' : Spec} (context : Option Result) {filter : Option Filter}
    {k : Nat} (hspec : spec.parameters = .timeSeries interval fine)
    (hspec' : spec'.parameters = .timeSeries interval coarse) (hsame : spec'.filter = spec.filter)
    (hfilter : filterOf spec = .ok filter) (hfine : fine ≠ 0) (hk : 1 ≤ k) (hmul : coarse.toNat = k * fine.toNat)
    (haudience : c.minAudience ≤ 1)
    (hin : InRange (c.interactions.filter (passes filter context)) interval coarse) :
    (∀ t t', interval.StartsInRange coarse t → interval.bucketStart fine t' = interval.bucketStart fine t →
      interval.bucketStart coarse t' = interval.bucketStart coarse t) ∧
    ∃ parts whole, c.analyze spec context = .ok parts ∧ c.analyze spec' context = .ok whole ∧
      whole.RollsUp interval coarse parts := by
  obtain ⟨hcoarse, hdvd⟩ := units_dvd hfine hk hmul
  refine ⟨fun t t' => Interval.bucketStart_nests hdvd, ?_⟩
  -- Both requests are about the interactions that pass the same filter and the same context.
  have hfilter' : filterOf spec' = .ok filter := (filterOf_congr hsame).trans hfilter
  have hparts := analyze_eq_ok.2 ⟨filter, hfilter, by simp [hspec, hfine], Eq.refl
    (c.resultOf spec (c.interactions.filter (passes filter context)))⟩
  have hwhole := analyze_eq_ok.2 ⟨filter, hfilter', by simp [hspec', hcoarse], Eq.refl
    (c.resultOf spec' (c.interactions.filter (passes filter context)))⟩
  exact ⟨_, _, hparts, hwhole,
    (c.resultOf_series hspec _).rollsUp hdvd haudience hin (c.resultOf_series hspec' _)⟩

/-- Interactions of the last second of 1969 and of the two months after it. -/
def winter : Corpus := ⟨[post "ann" (-1), post "ann" 0, post "bob" 5000000, post "ann" 5000000], 1⟩

/-- Months are put together to buckets of five months each, one of which starts with the year 1970. -/
theorem analyze_rollsUp_months :
    let spec : Spec := ⟨.timeSeries, none, none, .timeSeries .month 1⟩
    let spec' : Spec := ⟨.timeSeries, none, none, .timeSeries .month 5⟩
    InRange (winter.interactions.filter (passes none none)) .month 5 ∧
      ∃ parts whole, winter.analyze spec none = .ok parts ∧ winter.analyze spec' none = .ok whole ∧
        whole.RollsUp .month 5 parts := by
  intro spec spec'
  have hin : InRange (winter.interactions.filter (passes none none)) .month 5 := by decide +kernel
  have hspec : spec.parameters = .timeSeries .month 1 := rfl
  have hspec' : spec'.parameters = .timeSeries .month 5 := rfl
  have hfilter : filterOf spec = .ok none := rfl
  have hspan : (1 : UInt32) ≠ 0 := by decide
  have hmul : (5 : UInt32).toNat = 5 * (1 : UInt32).toNat := by decide
  exact ⟨hin, (winter.analyze_rollsUp none hspec hspec' rfl hfilter hspan (by decide) hmul (by decide) hin).2⟩

end Corpus
end Inquiry
