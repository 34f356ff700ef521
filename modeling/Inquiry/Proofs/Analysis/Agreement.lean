import Inquiry.Proofs.Analysis.Wire
import Inquiry.Proofs.Task.Entry
import Inquiry.Proofs.Task.Grammar

/-!
# Proofs.Analysis.Agreement — parameters in configurations and in documents

Parameters are read twice over: from the analyses of a configuration, where each fault is told, and from the
documents of specifications and results, where a kind has to be found first. What the first reader accepts, the
second reads as the same parameters, up to the blank characters around a target; and the document that it is written
as is accepted by both.

* `Kind.parameterMembers`: the members of a document that are parameters of a kind.
* `Parameters.Admissible`: the parameters that a configuration may ask for.
* `Parameters.parse_eq_ok_iff`: what the first reader accepts, told of the second.
* `Parameters.GivenBy`: a document gives parameters wherever they are asked for; `Parameters.givenBy_toJson`:
  that of admissible parameters does.
-/

namespace Inquiry

open Json (Value)
open Json.Decode

/-- The members of a document that are parameters of a kind. -/
def Kind.parameterMembers (kind : Kind) (v : Value) : Keyed Value :=
  kind.fields.filterMap fun field => (v.member? field.name).map fun w => (field.name, w)

namespace Parameters

/-- Parameters without the blank characters at the ends of a target. -/
def trimmed : Parameters → Parameters
  | timeSeries interval span => timeSeries interval span
  | freqDist target threshold => freqDist (Text.trim target) threshold

/-- Parameters that a configuration may ask for: the count is positive, and a target is trimmed and not empty. -/
def Admissible : Parameters → Prop
  | timeSeries _ span => 0 < span.toNat
  | freqDist target threshold => Text.trim target = target ∧ target ≠ "" ∧ 0 < threshold.toNat

end Parameters

/-! ## What members decode to -/

theorem Json.Value.integer?_eq_some {w : Value} {n : Int} : w.integer? = some n ↔ w = .ofInt n := by
  cases w with
  | number number => cases number <;> simp [integer?, ofInt]
  | _ => simp [integer?, ofInt]

theorem Json.Value.text?_eq_some {w : Value} {s : String} : w.text? = some s ↔ w = .string s := by
  cases w <;> simp [text?]

namespace Json.Decode

theorem nat?_eq_some {w : Value} {n : Nat} : nat? w = some n ↔ w = .ofNat n := by
  constructor
  · intro h
    unfold nat? at h
    split at h
    · rename_i i hi
      split at h
      · rename_i hpos
        obtain rfl := Option.some.inj h
        rw [Value.integer?_eq_some.1 hi, Value.ofNat, Int.toNat_of_nonneg hpos]
        rfl
      · cases h
    · cases h
  · rintro rfl
    exact nat?_ofNat n

theorem uint32?_eq_some {w : Value} {n : UInt32} : uint32? w = some n ↔ w = .ofNat n.toNat := by
  constructor
  · intro h
    unfold uint32? at h
    split at h
    · rename_i m hm
      split at h
      · rename_i hlt
        obtain rfl := Option.some.inj h
        -- Within the bound nothing is lost in thirty-two bits.
        rw [nat?_eq_some.1 hm, UInt32.toNat_ofNat', Nat.mod_eq_of_lt hlt]
      · cases h
    · cases h
  · rintro rfl
    exact uint32?_ofNat n

end Json.Decode

/-- A unit of time is its word, or an object that has the word as its only member. -/
theorem Interval.ofJson?_eq_some {w : Value} {interval : Interval} : Interval.ofJson? w = some interval ↔
    w = .string interval.word ∨ w = .object [(interval.word, .null)] := by
  have hword : ∀ {s}, Interval.ofWord? s = some interval → s = interval.word :=
    fun h => Value.string.inj (Config.word_eq_some.1 h)
  constructor
  · intro h
    obtain ⟨s, hs, hs'⟩ := Option.bind_eq_some_iff.1 h
    obtain rfl := hword hs'
    unfold word? at hs
    split at hs
    · exact .inl (congrArg Value.string (Option.some.inj hs))
    · cases hs
      exact .inr rfl
    · cases hs
  · rintro (rfl | rfl) <;> cases interval <;> rfl

namespace Parameters

variable {v : Value} {kind : Kind} {p q : Parameters} {position : String}

/-- A reader of a kind finds its fields among the members for that kind, and none among those for another. -/
theorem objectFields_members (v : Value) (kind other : Kind) :
    objectFields (other.fields.map Field.name) (.object (kind.parameterMembers v)) =
      some (other.fields.map fun field => if other = kind then v.member? field.name else none) := by
  cases kind <;> cases other <;>
    simp only [Kind.parameterMembers, Kind.fields, List.filterMap_cons, List.filterMap_nil, List.map_cons,
      List.map_nil, reduceCtorEq, if_true, if_false]
  case timeSeries.timeSeries => cases v.member? "interval" <;> cases v.member? "span" <;> rfl
  case timeSeries.freqDist => cases v.member? "interval" <;> cases v.member? "span" <;> rfl
  case freqDist.timeSeries => cases v.member? "target" <;> cases v.member? "threshold" <;> rfl
  case freqDist.freqDist => cases v.member? "target" <;> cases v.member? "threshold" <;> rfl

/-- What the members for a kind decode to is told by each of them. -/
theorem ofJson?_members_eq_some : ofJson? (.object (kind.parameterMembers v)) = some q ↔ q.kind = kind ∧
    match q with
    | .timeSeries interval span =>
      (v.member? "interval").bind Interval.ofJson? = some interval ∧
        v.member? "span" = some (.ofNat span.toNat)
    | .freqDist target threshold =>
      v.member? "target" = some (.string target) ∧ v.member? "threshold" = some (.ofNat threshold.toNat) := by
  have hseries := objectFields_members v kind .timeSeries
  have hcounts := objectFields_members v kind .freqDist
  simp only [Kind.fields, List.map_cons, List.map_nil] at hseries hcounts
  rw [ofJson?, timeSeriesOfJson?, freqDistOfJson?, hseries, hcounts]
  cases kind with
  | timeSeries =>
    simp only [if_true, reduceCtorEq, if_false]
    cases v.member? "interval" <;> cases v.member? "span" <;> cases q <;>
      simp [Parameters.kind, uint32?_eq_some, Option.bind_eq_some_iff]
  | freqDist =>
    simp only [if_true, reduceCtorEq, if_false]
    cases v.member? "target" <;> cases v.member? "threshold" <;> cases q <;>
      simp [Parameters.kind, uint32?_eq_some, Option.bind_eq_some_iff, Value.text?_eq_some]

/-- Parameters that an object holds are admissible. -/
theorem admissible_of_holds (h : HoldsParameters v p) : p.Admissible := by
  cases p with
  | timeSeries interval span => exact h.2.2
  | freqDist target threshold =>
    obtain ⟨⟨s, -, rfl, hne⟩, -, hpos⟩ := h
    exact ⟨Text.trim_trim s, hne, hpos⟩

/-- Parameters that an object holds are what its members decode to, trimmed. -/
theorem decoded_of_holds (h : HoldsParameters v p) :
    ∃ q, ofJson? (.object (p.kind.parameterMembers v)) = some q ∧ q.trimmed = p := by
  cases p with
  | timeSeries interval span =>
    obtain ⟨hinterval, hspan, -⟩ := h
    have hword : (v.member? "interval").bind Interval.ofJson? = some interval := by
      rw [hinterval]
      exact interval.ofJson?_toJson
    exact ⟨.timeSeries interval span, ofJson?_members_eq_some.2 ⟨rfl, hword, hspan⟩, rfl⟩
  | freqDist target threshold =>
    obtain ⟨⟨s, hs, rfl, -⟩, hthreshold, -⟩ := h
    exact ⟨.freqDist s threshold, ofJson?_members_eq_some.2 ⟨rfl, hs, hthreshold⟩, rfl⟩

/-- What is accepted in a configuration is what its members decode to, trimmed, if that is admissible. A decoder
also takes a unit of time in an object of its own, a configuration does not. -/
theorem parse_eq_ok_iff : parse kind v position = .ok p ↔
    (kind = .timeSeries → ∀ members, v.member? "interval" ≠ some (.object members)) ∧ p.Admissible ∧
      ∃ q, ofJson? (.object (kind.parameterMembers v)) = some q ∧ q.trimmed = p := by
  rw [Config.parse_eq_ok]
  constructor
  · rintro ⟨rfl, hholds⟩
    refine ⟨fun hkind members hobject => ?_, admissible_of_holds hholds, decoded_of_holds hholds⟩
    cases p with
    | timeSeries interval span =>
      rw [hholds.1] at hobject
      cases hobject
    | freqDist target threshold => cases hkind
  · rintro ⟨hplain, hadmissible, q, hq, rfl⟩
    obtain ⟨rfl, hmembers⟩ := ofJson?_members_eq_some.1 hq
    cases q with
    | timeSeries interval span =>
      obtain ⟨hinterval, hspan⟩ := hmembers
      obtain ⟨w, hw, hword⟩ := Option.bind_eq_some_iff.1 hinterval
      rcases Interval.ofJson?_eq_some.1 hword with rfl | rfl
      · exact ⟨rfl, hw, hspan, hadmissible⟩
      · exact absurd hw (hplain rfl _)
    | freqDist target threshold =>
      obtain ⟨-, hne, hpos⟩ := hadmissible
      exact ⟨rfl, ⟨target, hmembers.1, rfl, hne⟩, hmembers.2, hpos⟩

/-! ## Documents that give parameters -/

/-- A document gives parameters to whoever asks for them: to a decoder, to an analysis of a configuration that has its
members, and to a configuration of which it is the only analysis. -/
structure GivenBy (p : Parameters) (w : Value) : Prop where
  decoded : ofJson? w = some p
  parsed : ∀ v position, (∀ name, p.kind.hasField name = true → v.member? name = w.member? name) →
    parse p.kind v position = .ok p
  compiled : ∃ lineage, Graph.compile (.object [(p.kind.key, w)]) =
    .ok ⟨[⟨p.kind, 0, Place.entryLabel p.kind.key 0, .single (.last
      (.of 0 (Place.entryLabel p.kind.key 0) ⟨p.kind, none, none, p⟩))⟩], lineage⟩

/-- The document of admissible parameters holds them. -/
theorem holds_toJson (h : p.Admissible) : HoldsParameters p.toJson p := by
  cases p with
  | timeSeries interval span => exact ⟨rfl, rfl, h⟩
  | freqDist target threshold =>
    obtain ⟨htrimmed, hne, hpos⟩ := h
    exact ⟨⟨target, rfl, htrimmed, hne⟩, rfl, hpos⟩

/-- Which parameters a document holds depends on their members only. -/
theorem holds_congr {w : Value} (h : HoldsParameters w p)
    (hsame : ∀ name, p.kind.hasField name = true → v.member? name = w.member? name) : HoldsParameters v p := by
  cases p with
  | timeSeries interval span =>
    simpa only [HoldsParameters, HoldsPositive, hsame "interval" rfl, hsame "span" rfl] using h
  | freqDist target threshold =>
    simpa only [HoldsParameters, HoldsPositive, hsame "target" rfl, hsame "threshold" rfl] using h

/-- By itself the document of admissible parameters is an analysis without name, filter and follow-up. -/
theorem compileChain_toJson (h : p.Admissible) : Config.compileChain p.kind 0 ⟨p.kind.key, 0, none, 0⟩ p.toJson =
    .ok (.last (.of 0 (Place.entryLabel p.kind.key 0) ⟨p.kind, none, none, p⟩)) := by
  have hobject : ∃ members, p.toJson = .object members := by
    cases p <;> exact ⟨_, rfl⟩
  have hlacks : ∀ name ∈ ["name", "filter", "then"], p.toJson.member? name = none := by
    cases p <;> simp [toJson, Value.member?, Keyed.find?]
  have hends : Config.follow? p.toJson = none :=
    Grammar.follow?_eq_none.2 (.inl (hlacks "then" (by decide)))
  have hlabel : Place.label ⟨p.kind.key, 0, none, 0⟩ = Place.entryLabel p.kind.key 0 := String.append_empty
  refine Config.compileChain_eq_ok.2 ⟨[⟨p.kind, none, none, p⟩], .last ⟨hobject, rfl, rfl, holds_toJson h,
    .inl (hlacks "name" (by decide)), .inl (hlacks "filter" (by decide))⟩ hends, ?_⟩
  rw [Config.leavesAlong, hlabel]
  rfl

/-- Admissible parameters are given by the document that they are written as. -/
theorem givenBy_toJson (h : p.Admissible) : p.GivenBy p.toJson where
  decoded := p.ofJson?_toJson
  parsed _ _ hsame := Config.parse_eq_ok.2 ⟨rfl, holds_congr (holds_toJson h) hsame⟩
  compiled := by
    have hitems : Config.entriesOf p.kind.key p.toJson = .ok [p.toJson] := by
      cases p <;> rfl
    have harray : ∀ items, p.toJson ≠ .array items := by
      cases p <;> exact nofun
    exact ⟨_, Graph.compile_entry rfl (Kind.ofKey?_eq_some.2 rfl) hitems
      (Config.compileNode_eq_ok.2 (.inr ⟨harray, _, compileChain_toJson h, rfl⟩)) rfl⟩

end Parameters
end Inquiry
