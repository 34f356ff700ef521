import Inquiry.Proofs.Corpus.Frequencies
import Inquiry.Proofs.Corpus.TimeSeries
import Inquiry.Proofs.Text.Keyed

/-!
# Proofs.Corpus.Narrowing — what a result leaves of a corpus

The result of an analysis restricts a follow-up to the interactions of the groups that it has told. These
groups are left whole, and nothing is left of the others: those that were withheld, and those that were cut
off.

* `Tallies.group_filter`: restricting items by their keys keeps or drops whole groups.
* `Narrowing.admits_values`, `Narrowing.admits_buckets`: a result admits interactions by their keys.
* `Corpus.Distribution.of_filter`: what is counted where only the interactions of certain values are left.
* `Corpus.Series.records_eq`: series that tell the same buckets list the same records.
* `Corpus.Distribution.again`, `Corpus.Series.again`: what is counted of the interactions that a result admits.
* `Corpus.analyze_again`: an analysis in the context of its own result tells the same and withholds nothing.
-/

namespace Inquiry

namespace Tallies

variable {α κ : Type} [DecidableEq κ] {key : α → Option κ} {admits : α → Bool} {keys : List κ}

/-- A restriction of items that goes by their keys keeps the groups of these keys, and no item of others. -/
theorem group_filter (h : ∀ item k, key item = some k → (admits item = true ↔ k ∈ keys)) (items : List α)
    (k : κ) : group key (items.filter admits) k = if k ∈ keys then group key items k else [] := by
  have hadmits : ∀ item ∈ group key items k, admits item = true ↔ k ∈ keys := by
    intro item hitem
    exact h item k (of_decide_eq_true (List.mem_filter.1 hitem).2)
  have hcomm : group key (items.filter admits) k = (group key items k).filter admits := List.filter_comm ..
  rw [hcomm]
  split
  · rename_i hk
    exact List.filter_eq_self.2 fun item hitem => (hadmits item hitem).2 hk
  · rename_i hk
    exact List.filter_eq_nil_iff.2 fun item hitem => mt (hadmits item hitem).1 hk

end Tallies

namespace Narrowing

variable {r : Result} {i : Interaction}

theorem admits_values {target value : String} {threshold : UInt32}
    (hparameters : r.parameters = .freqDist target threshold) (hvalue : i.fieldText? target = some value) :
    (ofResult r).admits i = true ↔ value ∈ r.keys := by
  simp only [ofResult, hparameters, admits, hvalue, List.contains_iff_mem]

theorem admits_buckets {interval : Interval} {span : UInt32}
    (hparameters : r.parameters = .timeSeries interval span) : (ofResult r).admits i = true ↔
      Corpus.bucketOf interval span i ∈ (r.records.filterMap Record.timestamp?).map Int64.toInt := by
  have hstart : Corpus.bucketOf interval span i =
      (Int64.ofInt (interval.bucketStart span i.createdAt)).toInt :=
    (interval.toInt_bucketStart span i.createdAt).symm
  rw [hstart, List.mem_map_of_injective fun _ _ => Int64.toInt_inj.1]
  simp only [ofResult, hparameters, admits, List.contains_iff_mem]

end Narrowing

namespace Corpus

open Tallies (audience audience_perm)

variable {c c' : Corpus} {selected selected' : List Interaction} {admits : Interaction → Bool} {r r' : Result}

/-! ## Groups that are left whole -/

section Groups

variable {κ : Type} [DecidableEq κ] {keys : List κ} {whole left : κ → List Interaction}

/-- Where only groups that are told are left, just these are told. -/
theorem told_left_iff (hleft : ∀ k, left k = if k ∈ keys then whole k else [])
    (htold : ∀ k ∈ keys, c.Told (whole k))
    (k : κ) : c.Told (left k) ↔ k ∈ keys := by
  rw [hleft]
  split
  · rename_i hk
    exact iff_of_true (htold k hk) hk
  · rename_i hk
    exact iff_of_false (fun h => h.1 rfl) hk

/-- Where only groups that are told are left, none is withheld. -/
theorem not_withheld_left (hleft : ∀ k, left k = if k ∈ keys then whole k else [])
    (htold : ∀ k ∈ keys, c.Told (whole k)) (k : κ) : ¬ c.Withheld (left k) := by
  rw [hleft]
  split
  · rename_i hk
    exact (htold k hk).not_withheld
  · exact fun h => h.1 rfl

end Groups

/-! ## Values of a field -/

section Values

variable {target : String} {threshold : UInt32}

instance (holders : String → List Interaction) : Std.Asymm (Precedes holders) where
  asymm a b hab hba := by
    rcases hab with hab | ⟨hab, hlt⟩
    · rcases hba with hba | ⟨hba, -⟩
      · omega
      · omega
    · rcases hba with hba | ⟨-, hgt⟩
      · omega
      · exact List.lt_asymm hlt hgt

theorem keys_of_records {ranking : List String} {n m : String → Nat}
    (h : r.records = ranking.map fun value => .frequency value (n value) (m value)) : r.keys = ranking := by
  rw [Result.keys, h, List.filterMap_map]
  exact List.filterMap_some

/-- There is one order in which values with given numbers of interactions can be listed. -/
theorem ranking_unique {whole left : String → List Interaction} {ranking ranking' : List String}
    (h : ranking.Pairwise (Precedes whole)) (h' : ranking'.Pairwise (Precedes left))
    (hmem : ∀ value, value ∈ ranking' ↔ value ∈ ranking)
    (hsame : ∀ value ∈ ranking, (left value).length = (whole value).length) : ranking' = ranking := by
  refine (h'.imp_of_mem fun {a b} ha hb hprecedes => ?_).eq_of_mem_iff h hmem
  rwa [Precedes, hsame a ((hmem a).1 ha), hsame b ((hmem b).1 hb)] at hprecedes

/-- The values that a distribution lists are told, each with its interactions, in the order of their numbers and as
far as there is room. -/
theorem Distribution.listed (h : c.Distribution selected target threshold r) :
    r.records = r.keys.map (fun value => .frequency value (holders selected target value).length
      (audience Interaction.author (holders selected target value))) ∧
    (∀ value ∈ r.keys, c.Told (holders selected target value)) ∧
    r.keys.Pairwise (Precedes (holders selected target)) ∧ r.keys.length ≤ threshold.toNat := by
  obtain ⟨ranking, htold, hranking, hrecords⟩ := h.records
  rw [keys_of_records hrecords]
  exact ⟨hrecords, fun value hvalue => (htold value).1 (List.mem_of_mem_take hvalue),
    hranking.sublist (List.take_sublist ..), List.length_take_le ..⟩

/-- Where only the interactions of certain values are left, and these values may be told and are no more than there
is room for, a distribution tells just these values and withholds none. -/
theorem Distribution.of_filter {values : List String}
    (h : c.Distribution (selected.filter admits) target threshold r)
    (hadmits : ∀ i value, i.fieldText? target = some value → (admits i = true ↔ value ∈ values))
    (htold : ∀ value ∈ values, c.Told (holders selected target value))
    (hranked : values.Pairwise (Precedes (holders selected target))) (hroom : values.length ≤ threshold.toNat) :
    r.records = values.map (fun value => .frequency value (holders selected target value).length
      (audience Interaction.author (holders selected target value))) ∧ r.redacted = .empty := by
  obtain ⟨ranking, htold', hranking, hrecords⟩ := h.records
  have hleft : ∀ value, holders (selected.filter admits) target value =
      if value ∈ values then holders selected target value else [] := Tallies.group_filter hadmits selected
  have hsame : ∀ value ∈ values,
      holders (selected.filter admits) target value = holders selected target value :=
    fun value hvalue => (hleft value).trans (if_pos hvalue)
  have hmem : ∀ value, value ∈ ranking ↔ value ∈ values :=
    fun value => (htold' value).trans (told_left_iff hleft htold value)
  have hvalues : ranking = values :=
    ranking_unique hranked hranking hmem fun value hvalue => congrArg List.length (hsame value hvalue)
  constructor
  · rw [hrecords, hvalues, List.take_of_length_le hroom]
    exact List.map_congr_left fun value hvalue => by rw [hsame value hvalue]
  · refine TextSet.eq_empty_iff.2 fun value hvalue => ?_
    exact not_withheld_left hleft htold value ((h.redacted value).1 hvalue)

/-- Of the interactions that have one of its values, a distribution tells what it told before. -/
theorem Distribution.again (h : c.Distribution selected target threshold r)
    (h' : c.Distribution (selected.filter admits) target threshold r')
    (hadmits : ∀ i value, i.fieldText? target = some value → (admits i = true ↔ value ∈ r.keys)) :
    r'.records = r.records ∧ r'.redacted = .empty := by
  obtain ⟨hrecords, htold, hranked, hroom⟩ := h.listed
  obtain ⟨hrecords', hredacted⟩ := h'.of_filter hadmits htold hranked hroom
  exact ⟨hrecords'.trans hrecords.symm, hredacted⟩

end Values

/-! ## Buckets of time -/

section Buckets

variable {interval : Interval} {span : UInt32}

/-- Where the same buckets are told, and those that are told hold the same interactions, two series list the same
records. -/
theorem Series.records_eq (h : c.Series selected interval span r) (h' : c'.Series selected' interval span r')
    (htold : ∀ start, c'.Told (inBucket selected' interval span start) ↔ c.Told (inBucket selected interval span start))
    (hsame : ∀ start, c.Told (inBucket selected interval span start) →
      (inBucket selected' interval span start).Perm (inBucket selected interval span start)) :
    r'.records = r.records := by
  obtain ⟨starts, hmem, hstarts, -, hrecords⟩ := h.records
  obtain ⟨starts', hmem', hstarts', -, hrecords'⟩ := h'.records
  have hlisted : starts' = starts := by
    refine hstarts'.eq_of_mem_iff hstarts fun start => ?_
    rw [hmem', hmem, htold]
  rw [hrecords', hrecords, hlisted]
  refine List.map_congr_left fun start hstart => ?_
  have hgroup := hsame start ((hmem start).1 hstart)
  rw [hgroup.length_eq, audience_perm hgroup]

/-- Of the interactions that lie in one of its buckets, a series tells what it told before. -/
theorem Series.again (h : c.Series selected interval span r)
    (h' : c.Series (selected.filter admits) interval span r')
    (hadmits : ∀ i, admits i = true ↔
      bucketOf interval span i ∈ (r.records.filterMap Record.timestamp?).map Int64.toInt) :
    r'.records = r.records ∧ r'.redacted = .empty := by
  obtain ⟨starts, htold, -, htimestamps, -⟩ := h.records
  have hleft : ∀ start, inBucket (selected.filter admits) interval span start =
      if start ∈ starts then inBucket selected interval span start else [] := by
    refine Tallies.group_filter (fun i start hstart => ?_) selected
    cases hstart
    rw [hadmits, htimestamps]
  have htoldStarts : ∀ start ∈ starts, c.Told (inBucket selected interval span start) :=
    fun start => (htold start).1
  constructor
  · refine h.records_eq h' (fun start => ?_) fun start hstart => ?_
    · rw [told_left_iff hleft htoldStarts, htold]
    · rw [hleft, if_pos ((htold start).2 hstart)]
  · refine TextSet.eq_empty_iff.2 fun text htext => ?_
    obtain ⟨start, hwithheld, -⟩ := (h'.redacted text).1 htext
    exact not_withheld_left hleft htoldStarts start hwithheld

end Buckets

/-! ## Requests -/

/-- A context restricts what is selected without it. -/
theorem filter_passes_context (c : Corpus) (filter : Option Filter) (r : Result) :
    c.interactions.filter (passes filter (some r)) =
      (c.interactions.filter (passes filter none)).filter (Narrowing.ofResult r).admits := by
  rw [List.filter_filter]
  refine List.filter_congr fun i _ => ?_
  simp [passes, Bool.and_comm]

/-- What is told and what is withheld of selected interactions. -/
def counts (c : Corpus) (selected : List Interaction) : Parameters → List Record × TextSet
  | .timeSeries interval span => c.timeSeries selected interval span
  | .freqDist target threshold => c.frequencies selected target threshold

/-- The result that is made of selected interactions. -/
def resultOf (c : Corpus) (spec : Spec) (selected : List Interaction) : Result :=
  ⟨spec.kind, spec.parameters, (c.counts selected spec.parameters).1, (c.counts selected spec.parameters).2⟩

theorem resultOf_series (c : Corpus) {spec : Spec} {interval : Interval} {span : UInt32}
    (h : spec.parameters = .timeSeries interval span) (selected : List Interaction) :
    c.Series selected interval span (c.resultOf spec selected) := by
  rw [resultOf, h]
  exact series_timeSeries c selected interval span spec.kind _

theorem resultOf_distribution (c : Corpus) {spec : Spec} {target : String} {threshold : UInt32}
    (h : spec.parameters = .freqDist target threshold) (selected : List Interaction) :
    c.Distribution selected target threshold (c.resultOf spec selected) := by
  rw [resultOf, h]
  exact distribution_frequencies c selected target threshold spec.kind _

/-- A request is answered if its filter can be read and its buckets have a length, with the result of the
interactions that pass the filter and the context. -/
theorem analyze_eq_ok {spec : Spec} {context : Option Result} : c.analyze spec context = .ok r ↔
    ∃ filter, filterOf spec = .ok filter ∧ (∀ interval, spec.parameters ≠ .timeSeries interval 0) ∧
      r = c.resultOf spec (c.interactions.filter (passes filter context)) := by
  cases hfilter : filterOf spec with
  | error e => simp [analyze, select, hfilter, Except.map]
  | ok filter =>
    simp only [analyze, select_eq hfilter, Except.ok.injEq, exists_eq_left']
    cases hparameters : spec.parameters with
    | timeSeries interval span =>
      by_cases hspan : span = 0
      · simp [hspan]
      · simp [hspan, resultOf, counts, hparameters, eq_comm]
    | freqDist target threshold => simp [resultOf, counts, hparameters, eq_comm]

/-- What is counted of the interactions that a result admits is what the result tells. -/
theorem resultOf_again (c : Corpus) (spec : Spec) (selected : List Interaction) :
    c.resultOf spec (selected.filter (Narrowing.ofResult (c.resultOf spec selected)).admits) =
      { c.resultOf spec selected with redacted := .empty } := by
  cases hparameters : spec.parameters with
  | timeSeries interval span =>
    have hseries := c.resultOf_series hparameters
    obtain ⟨hrecords, hredacted⟩ := (hseries selected).again (hseries _) fun i => Narrowing.admits_buckets hparameters
    exact congrArg₂ (Result.mk spec.kind spec.parameters) hrecords hredacted
  | freqDist target threshold =>
    have hvalues := c.resultOf_distribution hparameters
    obtain ⟨hrecords, hredacted⟩ :=
      (hvalues selected).again (hvalues _) fun i value => Narrowing.admits_values hparameters
    exact congrArg₂ (Result.mk spec.kind spec.parameters) hrecords hredacted

/-- An analysis in the context of its own result tells the same, and withholds nothing. -/
theorem analyze_again (c : Corpus) (spec : Spec) {r : Result} (h : c.analyze spec none = .ok r) :
    c.analyze spec (some r) = .ok { r with redacted := .empty } := by
  obtain ⟨filter, hfilter, hspan, rfl⟩ := analyze_eq_ok.1 h
  refine analyze_eq_ok.2 ⟨filter, hfilter, hspan, ?_⟩
  rw [filter_passes_context, resultOf_again]

/-- The analysis of all interactions day by day. -/
def everyDay : Spec := ⟨.timeSeries, none, none, .timeSeries .day 1⟩

/-- The second day is withheld at first, and left out then. -/
theorem analyze_again_posts : ∃ r, posts.analyze everyDay none = .ok r ∧ "0" ∈ r.redacted.toList ∧
    r.records ≠ [] ∧ posts.analyze everyDay (some r) = .ok { r with redacted := .empty } := by
  have hanswer := analyze_eq_ok.2 ⟨none, rfl, by simp [everyDay], Eq.refl
    (posts.resultOf everyDay (posts.interactions.filter (passes none none)))⟩
  have hseries := series_timeSeries posts (posts.interactions.filter (passes none none)) .day 1 .timeSeries
    (.timeSeries .day 1)
  obtain ⟨starts, htold, -, -, hrecords⟩ := hseries.records
  refine ⟨_, hanswer, (hseries.redacted "0").2 ⟨0, by decide +kernel, rfl⟩, ?_, analyze_again posts _ hanswer⟩
  have hfirst : -86400 ∈ starts := (htold _).2 (by decide +kernel)
  exact hrecords ▸ List.ne_nil_of_mem (List.mem_map_of_mem hfirst)

end Corpus
end Inquiry
