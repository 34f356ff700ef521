import Inquiry.Proofs.Corpus.Narrowing
import Mathlib

/-!
# Proofs.Corpus.Visible — what an answer depends on

An analysis sees the interactions that pass its filter and, in a follow-up, lie in a group that the result before
it lists. Its answer is determined by them: neither their order nor any other interaction has an influence on it.

* `Result.Lists`, `Result.Withholds`: the groups that a result lists, and those that are redacted or cut off.
* `Corpus.Sees`: the interactions that an analysis sees.
* `Corpus.Distribution.of_perm`, `Corpus.Series.of_perm`: the order of interactions does not count.
* `Corpus.analyze_of_perm`: the answer is determined by the interactions that are selected.
* `Corpus.analyze_sees`: the answer is determined by what is seen, so that withheld groups leave no trace in a
  follow-up.
-/

namespace Inquiry

/-! ## Groups of interactions -/

namespace Result

/-- The interaction has one of the values that a distribution lists, or lies in one of the buckets that a series
lists. -/
def Lists (r : Result) (i : Interaction) : Prop :=
  match r.parameters with
  | .freqDist target _ => ∃ value ∈ r.keys, i.fieldText? target = some value
  | .timeSeries interval span =>
    ∃ timestamp ∈ r.records.filterMap Record.timestamp?, timestamp.toInt = Corpus.bucketOf interval span i

/-- The value of the interaction is redacted or, as it is not listed, cut off; or the bucket that it lies in is
redacted. -/
def Withholds (r : Result) (i : Interaction) : Prop :=
  match r.parameters with
  | .freqDist target _ =>
    ∃ value, i.fieldText? target = some value ∧ (value ∈ r.redacted.toList ∨ value ∉ r.keys)
  | .timeSeries interval span => toString (Corpus.bucketOf interval span i) ∈ r.redacted.toList

end Result

/-- A result admits the interactions of the groups that it lists. -/
theorem Narrowing.admits_iff {r : Result} {i : Interaction} : (ofResult r).admits i = true ↔ r.Lists i := by
  cases hparameters : r.parameters with
  | timeSeries interval span =>
    rw [admits_buckets hparameters, List.mem_map]
    simp only [Result.Lists, hparameters]
  | freqDist target threshold =>
    simp only [Result.Lists, hparameters]
    cases hvalue : i.fieldText? target with
    | none => simp [ofResult, hparameters, admits, hvalue]
    | some value => simp [admits_values hparameters hvalue]

namespace Corpus

open Tallies (audience_perm)

/-- The interaction passes the filter, and the result before lists its group. -/
def Sees (filter : Option Filter) (context : Option Result) (i : Interaction) : Prop :=
  (∀ f ∈ filter, f.admits i.fields = true) ∧ ∀ r ∈ context, r.Lists i

theorem passes_iff {filter : Option Filter} {context : Option Result} {i : Interaction} :
    passes filter context i = true ↔ Sees filter context i := by
  simp [passes, Sees, Option.all_eq_true, Narrowing.admits_iff]

instance (filter : Option Filter) (context : Option Result) : DecidablePred (Sees filter context) :=
  fun _ => decidable_of_iff _ passes_iff

variable {c c' : Corpus} {selected selected' is is' : List Interaction} {r r' : Result}

/-! ## The order of interactions -/

theorem told_perm (hmin : c.minAudience = c'.minAudience) (h : is.Perm is') : c.Told is ↔ c'.Told is' := by
  simp only [Told, ne_eq, ← List.length_eq_zero_iff, h.length_eq, audience_perm h, hmin]

theorem withheld_perm (hmin : c.minAudience = c'.minAudience) (h : is.Perm is') :
    c.Withheld is ↔ c'.Withheld is' := by
  simp only [Withheld, ne_eq, ← List.length_eq_zero_iff, h.length_eq, audience_perm h, hmin]

theorem Distribution.of_perm {target : String} {threshold : UInt32}
    (h : c.Distribution selected target threshold r) (h' : c'.Distribution selected' target threshold r')
    (hmin : c.minAudience = c'.minAudience) (hperm : selected.Perm selected') :
    r.records = r'.records ∧ r.redacted = r'.redacted := by
  obtain ⟨ranking, htold, hranking, hrecords⟩ := h.records
  obtain ⟨ranking', htold', hranking', hrecords'⟩ := h'.records
  have hgroup : ∀ value, (holders selected target value).Perm (holders selected' target value) :=
    fun _ => hperm.filter _
  have hranked : ranking = ranking' := by
    refine ranking_unique hranking' hranking (fun value => ?_) fun value _ => (hgroup value).length_eq
    rw [htold, htold', told_perm hmin (hgroup value)]
  constructor
  · rw [hrecords, hrecords', hranked]
    refine List.map_congr_left fun value _ => ?_
    rw [(hgroup value).length_eq, audience_perm (hgroup value)]
  · refine TextSet.eq_of_mem_iff fun value => ?_
    rw [h.redacted, h'.redacted, withheld_perm hmin (hgroup value)]

theorem Series.of_perm {interval : Interval} {span : UInt32} (h : c.Series selected interval span r)
    (h' : c'.Series selected' interval span r') (hmin : c.minAudience = c'.minAudience)
    (hperm : selected.Perm selected') : r.records = r'.records ∧ r.redacted = r'.redacted := by
  have hgroup : ∀ start, (inBucket selected interval span start).Perm (inBucket selected' interval span start) :=
    fun _ => hperm.filter _
  constructor
  · exact h'.records_eq h (fun start => told_perm hmin (hgroup start)) fun start _ => hgroup start
  · refine TextSet.eq_of_mem_iff fun text => ?_
    simp only [h.redacted, h'.redacted, withheld_perm hmin (hgroup _)]

theorem counts_perm (hmin : c.minAudience = c'.minAudience) (hperm : selected.Perm selected') (p : Parameters) :
    c.counts selected p = c'.counts selected' p := by
  cases p with
  | timeSeries interval span =>
    have hseries := fun c selected =>
      series_timeSeries c selected interval span .timeSeries (.timeSeries interval span)
    obtain ⟨hrecords, hredacted⟩ := (hseries c selected).of_perm (hseries c' selected') hmin hperm
    exact Prod.ext hrecords hredacted
  | freqDist target threshold =>
    have hvalues := fun c selected =>
      distribution_frequencies c selected target threshold .freqDist (.freqDist target threshold)
    obtain ⟨hrecords, hredacted⟩ := (hvalues c selected).of_perm (hvalues c' selected') hmin hperm
    exact Prod.ext hrecords hredacted

/-- The answer, be it a result or an error, is determined by the interactions that are selected. -/
theorem analyze_of_perm {spec : Spec} {context : Option Result} (hmin : c.minAudience = c'.minAudience)
    (hperm : ∀ filter, filterOf spec = .ok filter →
      (c.interactions.filter (passes filter context)).Perm (c'.interactions.filter (passes filter context))) :
    c.analyze spec context = c'.analyze spec context := by
  cases hfilter : filterOf spec with
  | error e =>
    -- A filter that cannot be read is reported before the corpus is looked at.
    simp only [analyze, select, hfilter, Except.map]
  | ok filter =>
    have hcounts := counts_perm hmin (hperm filter hfilter)
    simp only [analyze, select_eq hfilter]
    cases spec.parameters with
    | timeSeries interval span =>
      have hseries : c.timeSeries _ interval span = c'.timeSeries _ interval span :=
        hcounts (.timeSeries interval span)
      simp only [hseries]
    | freqDist target threshold =>
      have hvalues : c.frequencies _ target threshold = c'.frequencies _ target threshold :=
        hcounts (.freqDist target threshold)
      simp only [hvalues]

/-! ## Groups that are withheld -/

theorem Distribution.not_lists {target : String} {threshold : UInt32} {i : Interaction}
    (h : c.Distribution selected target threshold r) (hparameters : r.parameters = .freqDist target threshold)
    (hi : r.Withholds i) : ¬ r.Lists i := by
  simp only [Result.Withholds, hparameters] at hi
  simp only [Result.Lists, hparameters]
  obtain ⟨value, hvalue, hwithheld⟩ := hi
  rintro ⟨value', hlisted, hvalue'⟩
  obtain rfl : value' = value := Option.some.inj (hvalue'.symm.trans hvalue)
  exact hwithheld.elim (h.disjoint _ hlisted) (· hlisted)

theorem Series.not_lists {interval : Interval} {span : UInt32} {i : Interaction}
    (h : c.Series selected interval span r) (hparameters : r.parameters = .timeSeries interval span)
    (hi : r.Withholds i) : ¬ r.Lists i := by
  simp only [Result.Withholds, hparameters] at hi
  simp only [Result.Lists, hparameters]
  obtain ⟨starts, htold, -, htimestamps, -⟩ := h.records
  obtain ⟨start, hwithheld, htext⟩ := (h.redacted _).1 hi
  -- A redacted text is that of one bucket only.
  obtain rfl : start = bucketOf interval span i := Int.repr_injective htext
  intro hlisted
  have hmem : bucketOf interval span i ∈ starts := htimestamps ▸ List.mem_map.2 hlisted
  exact ((htold _).1 hmem).not_withheld hwithheld

/-- A result lists no group that it withholds. -/
theorem not_lists_of_withholds {spec : Spec} {context : Option Result} {i : Interaction}
    (h : c.analyze spec context = .ok r) (hi : r.Withholds i) : ¬ r.Lists i := by
  obtain ⟨filter, -, -, rfl⟩ := analyze_eq_ok.1 h
  cases hparameters : spec.parameters with
  | timeSeries interval span => exact (c.resultOf_series hparameters _).not_lists hparameters hi
  | freqDist target threshold => exact (c.resultOf_distribution hparameters _).not_lists hparameters hi

/-- A follow-up sees nothing of interactions that are withheld. -/
theorem filter_sees_withheld {spec : Spec} {context : Option Result} {filter : Option Filter}
    {shared hidden : List Interaction} (h : c.analyze spec context = .ok r) (hall : is.Perm (shared ++ hidden))
    (hhidden : ∀ i ∈ hidden, r.Withholds i) :
    (is.filter (passes filter (some r))).Perm (shared.filter (passes filter (some r))) := by
  have hnone : hidden.filter (passes filter (some r)) = [] := by
    refine List.filter_eq_nil_iff.2 fun i hi => ?_
    rw [passes_iff]
    exact fun hsees => not_lists_of_withholds h (hhidden i hi) (hsees.2 r rfl)
  have hseen := hall.filter (passes filter (some r))
  rwa [List.filter_append, hnone, List.append_nil] at hseen

/-- Corpora in which an analysis sees the same interactions give it the same answer: so the order of interactions
does not count, and corpora that differ in interactions of withheld groups only give the same answer to every
follow-up. -/
theorem analyze_sees :
    (∀ (c c' : Corpus) (spec : Spec) (context : Option Result), c.minAudience = c'.minAudience →
      (∀ filter, filterOf spec = .ok filter → (c.interactions.filter fun i => Sees filter context i).Perm
        (c'.interactions.filter fun i => Sees filter context i)) →
      c.analyze spec context = c'.analyze spec context) ∧
    (∀ (c c' : Corpus), c.minAudience = c'.minAudience → c.interactions.Perm c'.interactions →
      ∀ spec context, c.analyze spec context = c'.analyze spec context) ∧
    ∀ (c c' : Corpus) (parent : Spec) (context : Option Result) (r : Result)
      (shared hidden hidden' : List Interaction),
      c.minAudience = c'.minAudience → c.analyze parent context = .ok r →
      c.interactions.Perm (shared ++ hidden) → c'.interactions.Perm (shared ++ hidden') →
      (∀ i ∈ hidden ++ hidden', r.Withholds i) →
      ∀ child, c.analyze child (some r) = c'.analyze child (some r) := by
  refine ⟨fun c c' spec context hmin hperm => analyze_of_perm hmin fun filter hfilter => ?_,
    fun c c' hmin hperm spec context => analyze_of_perm hmin fun filter _ => hperm.filter _, ?_⟩
  · have hpasses : (fun i => decide (Sees filter context i)) = passes filter context := by
      funext i
      rw [Bool.eq_iff_iff, decide_eq_true_iff, passes_iff]
    rw [← hpasses]
    exact hperm filter hfilter
  · intro c c' parent context r shared hidden hidden' hmin h hleft hright hhidden child
    obtain ⟨hhidden, hhidden'⟩ := List.forall_mem_append.1 hhidden
    refine analyze_of_perm hmin fun filter _ => ?_
    exact (filter_sees_withheld h hleft hhidden).trans (filter_sees_withheld h hright hhidden').symm

/-- The first day of `posts` in another order, and another author on the second day. -/
def otherPosts : Corpus := ⟨[post "eve" 5, post "bob" (-1), post "ann" (-86400)], 2⟩

/-- The second day has one author only in both, and no follow-up can tell who it is. -/
theorem analyze_sees_posts : ∃ r, posts.analyze everyDay none = .ok r ∧ r.Withholds (post "eve" 5) ∧
    ∀ child, posts.analyze child (some r) = otherPosts.analyze child (some r) := by
  have hanswer := analyze_eq_ok.2 ⟨none, rfl, by simp [everyDay], Eq.refl
    (posts.resultOf everyDay (posts.interactions.filter (passes none none)))⟩
  have hseries := posts.resultOf_series (rfl : everyDay.parameters = .timeSeries .day 1)
    (posts.interactions.filter (passes none none))
  have hredacted := (hseries.redacted "0").2 ⟨0, by decide +kernel, rfl⟩
  have hsecond : ∀ i ∈ [post "ann" 0, post "ann" 86399] ++ [post "eve" 5],
      toString (bucketOf .day 1 i) = "0" := by decide +kernel
  have hwithheld : ∀ i ∈ [post "ann" 0, post "ann" 86399] ++ [post "eve" 5],
      (posts.resultOf everyDay (posts.interactions.filter (passes none none))).Withholds i := by
    intro i hi
    simp only [Result.Withholds, resultOf, everyDay, hsecond i hi]
    exact hredacted
  have hshared : posts.interactions.Perm
      ([post "bob" (-1), post "ann" (-86400)] ++ [post "ann" 0, post "ann" 86399]) :=
    (@List.perm_middle _ (post "ann" 0) [post "bob" (-1), post "ann" (-86400)] [post "ann" 86399]).symm
  have hshared' : otherPosts.interactions.Perm ([post "bob" (-1), post "ann" (-86400)] ++ [post "eve" 5]) :=
    (@List.perm_middle _ (post "eve" 5) [post "bob" (-1), post "ann" (-86400)] []).symm
  refine ⟨_, hanswer, hwithheld _ (by simp), ?_⟩
  exact analyze_sees.2.2 posts otherPosts _ none _ _ _ _ rfl hanswer hshared hshared' hwithheld

end Corpus
end Inquiry
