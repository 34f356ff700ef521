import Inquiry.Proofs.Corpus.Narrowing

/-!
# Proofs.Corpus.FollowUp — what a follow-up counts

In the context of a result, a follow-up with the same filter counts the interactions that the result has told,
and no others. What it tells of them in turn may be less: a value that is cut off is not told, and an interaction
without a value is not counted.

* `Tallies.sum_length_group`: the groups of distinct keys have as many items as have one of the keys.
* `Result.total`: the number of interactions that a result tells.
* `Corpus.Distribution.total_eq`, `Corpus.Series.total_eq`: these are the interactions of the listed groups.
* `Corpus.Distribution.total_eq_iff`: when a distribution tells all interactions.
* `Corpus.followUp_counts`: a follow-up counts what the analysis before it told.
-/

namespace Inquiry

namespace Tallies

variable {α κ : Type} [DecidableEq κ] {key : α → Option κ} {keys : List κ}

/-- No item is in the groups of two keys, so that their sizes add up. -/
theorem sum_length_group (h : keys.Nodup) (items : List α) :
    (keys.map fun k => (group key items k).length).sum =
      items.countP fun item => (key item).any (· ∈ keys) := by
  induction keys with
  | nil => simp
  | cons k keys ih =>
    obtain ⟨hk, hkeys⟩ := List.nodup_cons.1 h
    -- The items of the first key are set apart, and the keys behind it count none of them.
    have hfirst : (items.filter fun item => key item = some k).countP
        (fun item => (key item).any (· ∈ k :: keys)) = (group key items k).length := by
      refine List.countP_eq_length.2 fun item hitem => ?_
      simp [of_decide_eq_true (List.mem_filter.1 hitem).2]
    have hrest : (items.filter fun item => !decide (key item = some k)).countP
        (fun item => (key item).any (· ∈ k :: keys)) = items.countP fun item => (key item).any (· ∈ keys) := by
      rw [List.countP_filter]
      refine List.countP_congr fun item _ => ?_
      cases key item with
      | none => simp
      | some k' =>
        by_cases hk' : k' = k
        · simp [hk', hk]
        · simp [hk']
    rw [List.countP_eq_countP_filter_add _ _ fun item => key item = some k, hfirst, hrest, ← ih hkeys]
    exact List.sum_cons

end Tallies

/-- The number of interactions that the records of a result count. -/
def Result.total (r : Result) : Nat := (r.records.map Record.interactions).sum

namespace Corpus

open Tallies (audience)

variable {c : Corpus} {selected : List Interaction} {r : Result}

/-- Where one author is audience enough, no count is withheld. -/
theorem told_iff (h : c.minAudience ≤ 1) {is : List Interaction} : c.Told is ↔ is ≠ [] :=
  and_iff_left_of_imp fun hne => h.trans (Tallies.audience_pos hne)

/-! ## Values of a field -/

section Values

variable {target : String} {threshold : UInt32}

/-- The values that interactions have at a path. -/
def values (selected : List Interaction) (target : String) : Finset String :=
  (selected.filterMap (Interaction.fieldText? · target)).toFinset

theorem holders_ne_nil_iff {value : String} :
    holders selected target value ≠ [] ↔ value ∈ values selected target :=
  Tallies.group_ne_nil_iff.trans (by simp [values])

/-- A distribution tells the interactions that have one of the values that it lists. -/
theorem Distribution.total_eq (h : c.Distribution selected target threshold r) :
    r.total = selected.countP fun i => (i.fieldText? target).any (· ∈ r.keys) := by
  rw [← Tallies.sum_length_group h.nodup, Result.total, h.listed.1, List.map_map]
  rfl

/-- Where no value is withheld, all values are listed exactly if the threshold leaves room for them. -/
theorem Distribution.lists_all_iff (h : c.Distribution selected target threshold r) (hmin : c.minAudience ≤ 1) :
    (∀ value ∈ values selected target, value ∈ r.keys) ↔ (values selected target).card ≤ threshold.toNat := by
  obtain ⟨ranking, htold, hranking, hrecords⟩ := h.records
  have hkeys : r.keys = ranking.take threshold.toNat := keys_of_records hrecords
  have hnodup : ranking.Nodup := by
    refine hranking.imp ?_
    rintro value _ hprecedes rfl
    exact Std.Asymm.asymm _ _ hprecedes hprecedes
  have hvalues : values selected target = ranking.toFinset := by
    ext value
    rw [List.mem_toFinset, htold, told_iff hmin, holders_ne_nil_iff]
  rw [hvalues, List.toFinset_card_of_nodup hnodup, hkeys]
  constructor
  · intro hall
    -- No value occurs twice, so a list that is cut off does not have them all.
    have hlength := hnodup.length_le_of_subset fun value hvalue => hall value (List.mem_toFinset.2 hvalue)
    rw [List.length_take] at hlength
    omega
  · intro hroom value hvalue
    rw [List.take_of_length_le hroom]
    exact List.mem_toFinset.1 hvalue

/-- Where no value is withheld, a distribution tells all interactions exactly if each of them has a value and no
value is cut off. -/
theorem Distribution.total_eq_iff (h : c.Distribution selected target threshold r) (hmin : c.minAudience ≤ 1) :
    r.total = selected.length ↔ (∀ i ∈ selected, (i.fieldText? target).isSome) ∧
      (values selected target).card ≤ threshold.toNat := by
  rw [h.total_eq, List.countP_eq_length, ← h.lists_all_iff hmin]
  constructor
  · intro hall
    refine ⟨fun i hi => Option.isSome_of_any (hall i hi), fun value hvalue => ?_⟩
    obtain ⟨i, hi, hvalue⟩ := List.mem_filterMap.1 (List.mem_toFinset.1 hvalue)
    have hlisted := hall i hi
    rw [hvalue] at hlisted
    exact of_decide_eq_true hlisted
  · rintro ⟨hsome, hlisted⟩ i hi
    obtain ⟨value, hvalue⟩ := Option.isSome_iff_exists.1 (hsome i hi)
    rw [hvalue]
    exact decide_eq_true (hlisted value (List.mem_toFinset.2 (List.mem_filterMap.2 ⟨i, hi, hvalue⟩)))

end Values

/-! ## Buckets of time -/

section Buckets

variable {interval : Interval} {span : UInt32}

/-- A series tells the interactions that lie in one of the buckets that it lists. -/
theorem Series.total_eq (h : c.Series selected interval span r) : r.total = selected.countP fun i =>
    bucketOf interval span i ∈ (r.records.filterMap Record.timestamp?).map Int64.toInt := by
  obtain ⟨starts, -, hstarts, htimestamps, hrecords⟩ := h.records
  rw [htimestamps, Result.total, hrecords, List.map_map]
  calc (starts.map fun start => (inBucket selected interval span start).length).sum
      = selected.countP fun i => (some (bucketOf interval span i)).any (· ∈ starts) :=
        Tallies.sum_length_group hstarts.nodup selected
    _ = selected.countP fun i => bucketOf interval span i ∈ starts := rfl

/-- Where no bucket is withheld, a series tells all interactions. -/
theorem Series.total_eq_length (h : c.Series selected interval span r) (hmin : c.minAudience ≤ 1) :
    r.total = selected.length := by
  rw [h.total_eq, List.countP_eq_length]
  intro i hi
  obtain ⟨starts, htold, -, htimestamps, -⟩ := h.records
  have hin : inBucket selected interval span (bucketOf interval span i) ≠ [] :=
    Tallies.group_ne_nil_iff.2 ⟨i, hi, rfl⟩
  rw [htimestamps]
  exact decide_eq_true ((htold _).2 ((told_iff hmin).2 hin))

end Buckets

/-! ## Requests -/

theorem filterOf_congr {spec spec' : Spec} (h : spec'.filter = spec.filter) : filterOf spec' = filterOf spec := by
  rw [filterOf, filterOf, h]

/-- The interactions that a result admits are those that it tells. -/
theorem length_admitted (c : Corpus) (spec : Spec) (selected : List Interaction) :
    (selected.filter (Narrowing.ofResult (c.resultOf spec selected)).admits).length =
      (c.resultOf spec selected).total := by
  rw [← List.countP_eq_length_filter]
  cases hparameters : spec.parameters with
  | timeSeries interval span =>
    rw [(c.resultOf_series hparameters selected).total_eq]
    refine List.countP_congr fun i _ => ?_
    rw [Narrowing.admits_buckets hparameters, decide_eq_true_iff]
  | freqDist target threshold =>
    rw [(c.resultOf_distribution hparameters selected).total_eq]
    refine List.countP_congr fun i _ => ?_
    cases hvalue : i.fieldText? target with
    | none => simp [Narrowing.ofResult, resultOf, hparameters, Narrowing.admits, hvalue]
    | some value => rw [Narrowing.admits_values hparameters hvalue, Option.any_some, decide_eq_true_iff]

/-- A follow-up with the same filter counts as many interactions as the records of the analysis before it tell.
Where one author is audience enough, its records tell all of them if it is a time series; and if it is a
distribution, they tell no more, and all of them exactly if each has a value at the target and no value is cut
off. -/
theorem followUp_counts (c : Corpus) {parent child : Spec} {r : Result} (h : c.analyze parent none = .ok r)
    (hfilter : child.filter = parent.filter) :
    ∃ selected, c.select child (some r) = .ok selected ∧ selected.length = r.total ∧
      (c.minAudience ≤ 1 →
        (∀ interval span, child.parameters = .timeSeries interval span → span ≠ 0 →
          ∃ r', c.analyze child (some r) = .ok r' ∧ r'.total = r.total) ∧
        ∀ target threshold, child.parameters = .freqDist target threshold →
          ∃ r', c.analyze child (some r) = .ok r' ∧ r'.total ≤ r.total ∧
            (r'.total = r.total ↔ (∀ i ∈ selected, (i.fieldText? target).isSome) ∧
              (values selected target).card ≤ threshold.toNat)) := by
  obtain ⟨filter, hparsed, -, rfl⟩ := analyze_eq_ok.1 h
  have hchild : filterOf child = .ok filter := (filterOf_congr hfilter).trans hparsed
  -- The filter is the same, so the interactions of the parent that its result admits are those of the child.
  have hcount := length_admitted c parent (c.interactions.filter (passes filter none))
  rw [← filter_passes_context] at hcount
  refine ⟨_, select_eq hchild, hcount, fun hmin => ⟨?_, ?_⟩⟩
  · intro interval span hparameters hspan
    obtain ⟨r', hanswer, -, -, hseries⟩ := c.analyze_series _ hparameters hspan hchild
    exact ⟨r', hanswer, (hseries.total_eq_length hmin).trans hcount⟩
  · intro target threshold hparameters
    obtain ⟨r', hanswer, -, -, hvalues⟩ := c.analyze_distribution _ hparameters hchild
    refine ⟨r', hanswer, ?_, ?_⟩
    · rw [hvalues.total_eq, ← hcount]
      exact List.countP_le_length
    · rw [← hcount]
      exact hvalues.total_eq_iff hmin

/-- The mentions of brands, all of which may be told. -/
def openMentions : Corpus := { mentions with minAudience := 1 }

/-- The brand that is mentioned most. -/
def topBrand : Spec := ⟨.freqDist, none, none, .freqDist "brand" 1⟩

/-- The brand that is mentioned once is cut off, and its mention is not counted in a follow-up. -/
theorem followUp_counts_mentions : ∃ r, openMentions.analyze topBrand none = .ok r ∧ r.total = 2 ∧
    ∃ selected, openMentions.select everyDay (some r) = .ok selected ∧ selected.length = 2 ∧
      openMentions.interactions.length = 3 ∧
      ∃ r', openMentions.analyze everyDay (some r) = .ok r' ∧ r'.total = 2 := by
  have hanswer := analyze_eq_ok.2 ⟨none, rfl, by simp [topBrand], Eq.refl
    (openMentions.resultOf topBrand (openMentions.interactions.filter (passes none none)))⟩
  have htotal : (openMentions.resultOf topBrand (openMentions.interactions.filter (passes none none))).total = 2 := by
    cbv
  have hfilter : everyDay.filter = topBrand.filter := rfl
  obtain ⟨selected, hselected, hlength, hrest⟩ := followUp_counts openMentions hanswer hfilter
  obtain ⟨r', hr', htotal'⟩ := (hrest (by decide)).1 .day 1 rfl (by decide)
  exact ⟨_, hanswer, htotal, selected, hselected, hlength.trans htotal, rfl, r', hr', htotal'.trans htotal⟩

end Corpus
end Inquiry
