import Inquiry.Proofs.Corpus.Narrowing
import Inquiry.Proofs.Filter.Conjunction

/-!
# Proofs.Corpus.Reproduction — a value found again by a filter

A distribution goes by the texts of values, and so does a filter that asks for one of them. The interactions of a
record can therefore be asked for by its value, however it is written: its quotes and backslashes are escaped, and
numbers and truth values are their texts.

* `Corpus.asking`: a filter that asks for a value besides.
* `Corpus.filterOf_asking`, `Corpus.filter_asking`: it can be read, and selects the interactions of the value.
* `Corpus.Distribution.alone`: what is told of a single value.
* `Corpus.distribution_reproduces`: asking for the value of a record gives this record and no other.
-/

namespace Inquiry
namespace Corpus

open Tallies (audience)

/-- The filter of an analysis, if it has one, and the condition that the value at a path has a text. -/
def asking (filter : Option String) (path value : String) : String :=
  match filter with
  | none => Filter.equation path value
  | some expr => expr ++ " and " ++ Filter.equation path value

/-- The clauses of a filter, if there is one, and the one for the value. -/
def withValue (filter : Option Filter) (path value : String) : Filter :=
  ⟨(filter.elim [] Filter.clauses) ++ [.equals path value]⟩

variable {path value : String} {filter : Option Filter} {context : Option Result}

theorem filterOf_asking {spec spec' : Spec} (hpath : Filter.IsPath path) (hfilter : filterOf spec = .ok filter)
    (h : spec'.filter = some (asking spec.filter path value)) :
    filterOf spec' = .ok (some (withValue filter path value)) := by
  have hvalue := Filter.parse_equation hpath value
  rw [filterOf, h]
  rw [filterOf] at hfilter
  cases hexpr : spec.filter with
  | none =>
    rw [hexpr] at hfilter
    cases hfilter
    simp [asking, hvalue, withValue]
  | some expr =>
    cases hparse : Filter.parse expr with
    | error e => simp [hexpr, hparse] at hfilter
    | ok f =>
      simp only [hexpr, hparse, Except.ok.injEq] at hfilter
      subst hfilter
      simp [asking, Filter.parse_and hparse hvalue, withValue]

theorem passes_asking (i : Interaction) : passes (some (withValue filter path value)) context i =
    (decide (i.fieldText? path = some value) && passes filter context i) := by
  have hvalue : Filter.admits ⟨[.equals path value]⟩ i.fields = decide (i.fieldText? path = some value) := by
    rw [Bool.eq_iff_iff, decide_eq_true_iff]
    simp [Filter.admits, Clause.holds, Interaction.fieldText?]
  simp only [passes, withValue, Option.all_some, Filter.admits_append, hvalue]
  cases filter with
  | none => simp [Filter.admits]
  | some f => simp [Bool.and_assoc, Bool.and_left_comm]

/-- The interactions that are asked for are those of the value. -/
theorem filter_asking (is : List Interaction) : is.filter (passes (some (withValue filter path value)) context) =
    holders (is.filter (passes filter context)) path value := by
  rw [holders, Tallies.group, List.filter_filter]
  exact List.filter_congr fun i _ => passes_asking i

/-- What is told where only the interactions of one value are left. -/
theorem Distribution.alone {c : Corpus} {selected : List Interaction} {threshold : UInt32} {r : Result}
    (h : c.Distribution (holders selected path value) path threshold r) (htold : c.Told (holders selected path value))
    (hroom : threshold ≠ 0) :
    r.records = [.frequency value (holders selected path value).length
      (audience Interaction.author (holders selected path value))] ∧ r.redacted = .empty := by
  have hlength : [value].length ≤ threshold.toNat := by
    rw [List.length_singleton, Nat.one_le_iff_ne_zero]
    exact fun hzero => hroom (UInt32.toNat_inj.1 hzero)
  refine h.of_filter (fun i value' hvalue' => ?_) (by simpa using htold) (List.pairwise_singleton _ _) hlength
  simp [hvalue']

/-- For each record of a distribution, the same analysis with a filter that asks for the value of the record besides
tells this record alone and withholds nothing, as long as it may list one value. -/
theorem distribution_reproduces (c : Corpus) {spec : Spec} (context : Option Result) {filter : Option Filter}
    {target : String} {threshold : UInt32} (hparameters : spec.parameters = .freqDist target threshold)
    (hfilter : filterOf spec = .ok filter)
    (htarget : target ≠ "" ∧ ∀ char ∈ target.toList, Text.isBlank char = false ∧ char ≠ '"') :
    ∃ r, c.analyze spec context = .ok r ∧ ∀ record ∈ r.records, ∃ value, record.key? = some value ∧
      ∀ spec' threshold', spec'.parameters = .freqDist target threshold' → threshold' ≠ 0 →
        spec'.filter = some (asking spec.filter target value) →
        c.analyze spec' context = .ok ⟨spec'.kind, spec'.parameters, [record], .empty⟩ := by
  obtain ⟨r, hanswer, -, -, hvalues⟩ := c.analyze_distribution context hparameters hfilter
  obtain ⟨hrecords, htold, -, -⟩ := hvalues.listed
  refine ⟨r, hanswer, fun record hrecord => ?_⟩
  obtain ⟨value, hvalue, rfl⟩ := List.mem_map.1 (hrecords ▸ hrecord)
  refine ⟨value, rfl, fun spec' threshold' hparameters' hroom hfilter' => ?_⟩
  -- What is left is the group of the value, which has as many authors as before.
  have hspan : ∀ interval, spec'.parameters ≠ .timeSeries interval 0 := by simp [hparameters']
  rw [analyze_eq_ok.2 ⟨_, filterOf_asking htarget hfilter hfilter', hspan, rfl⟩, filter_asking]
  obtain ⟨hrecords', hredacted⟩ := (c.resultOf_distribution hparameters' _).alone (htold value hvalue) hroom
  exact congrArg Except.ok (congrArg₂ (Result.mk spec'.kind spec'.parameters) hrecords' hredacted)

/-- An interaction of an author with a label. -/
def labelled (author : String) (label : Json.Value) : Interaction := ⟨.ofSecond 0, author, .object [("label", label)]⟩

/-- A number and the text of it, and a label with quotes and a backslash. -/
def labels : Corpus :=
  ⟨[labelled "ann" (.ofNat 1), labelled "bob" (.string "1"), labelled "ann" (.string "say \"hi\" \\")], 1⟩

/-- What the corpus answers where the label is told for each interaction that has one. -/
def labelCounts : Result :=
  ⟨.freqDist, .freqDist "label" 5, [.frequency "1" 2 2, .frequency "say \"hi\" \\" 1 1], .empty⟩

/-- The number counts as its text, and the label is asked for with a backslash in front of each quote and
backslash. -/
theorem distribution_reproduces_labels :
    labels.analyze ⟨.freqDist, none, some "label exists", .freqDist "label" 5⟩ none = .ok labelCounts ∧
    labels.analyze
        ⟨.freqDist, none, some "label exists and label == \"say \\\"hi\\\" \\\\\"", .freqDist "label" 1⟩ none =
      .ok ⟨.freqDist, .freqDist "label" 1, [.frequency "say \"hi\" \\" 1 1], .empty⟩ := by
  have hfilter : filterOf ⟨.freqDist, none, some "label exists", .freqDist "label" 5⟩ =
      .ok (some ⟨[.present "label"]⟩) := by
    have hparse : Filter.parse "label exists" = .ok ⟨[.present "label"]⟩ := by decide +kernel
    simp only [filterOf, hparse]
  have hselected : labels.interactions.filter (passes (some ⟨[.present "label"]⟩) none) = labels.interactions :=
    List.filter_eq_self.2 (by decide +kernel)
  have hcounts : labels.frequencies labels.interactions "label" 5 = (labelCounts.records, labelCounts.redacted) := by
    cbv
  have hfirst : labels.analyze ⟨.freqDist, none, some "label exists", .freqDist "label" 5⟩ none = .ok labelCounts :=
    analyze_eq_ok.2 ⟨_, hfilter, by simp, by
      simp only [resultOf, counts, hselected, hcounts]
      rfl⟩
  obtain ⟨r, hanswer, hrecords⟩ := distribution_reproduces labels none rfl hfilter (by simp [Text.isBlank])
  cases hanswer.symm.trans hfirst
  obtain ⟨value, hvalue, hagain⟩ := hrecords (.frequency "say \"hi\" \\" 1 1) (by simp [labelCounts])
  cases hvalue
  exact ⟨hfirst, hagain _ 1 rfl (by decide) rfl⟩

end Corpus
end Inquiry
