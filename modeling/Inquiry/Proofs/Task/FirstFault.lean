import Inquiry.Proofs.Task.Rules

/-!
# Proofs.Task.FirstFault — the compiler reports the first fault

A document that does not compile breaks a rule, and the first that it breaks decides: the error is its fault,
whatever else is wrong behind.

* `Config.Stops`: the first rule of a list that does not hold; `Config.Checks`: a computation goes by the rules
  of a list, and fails for the first that does not hold.
* `Config.checks_compileSpec`, `Config.checks_chainBehind`, `Config.checks_compileNode`,
  `Config.checks_compileTasks`: each part of the compiler goes by its rules.
* `Graph.compile_reports`: so does the compiler, and the label in its error leads to what breaks the rule.
-/

namespace Inquiry

open Json (Value)

namespace Config

open Grammar

/-! ## Going by rules -/

/-- The rules up to the first that does not hold. -/
structure Stops (rules passed : List Rule) (broken : Rule) : Prop where
  inFront : passed ++ [broken] <+: rules
  passed : ∀ rule ∈ passed, rule.Holds
  broken : ¬ broken.Holds

/-- A computation goes by rules: it succeeds if all hold, and fails for the first that does not. -/
def Checks {α : Type} (rules : List Rule) : Except ConfigError α → Prop
  | .ok _ => ∀ rule ∈ rules, rule.Holds
  | .error e => ∃ passed broken, Stops rules passed broken ∧ broken.fault = e

section Checks

variable {α β : Type} {rules rules' passed : List Rule} {rule broken : Rule} {e : ConfigError}

theorem Stops.append (h : Stops rules passed broken) (rules' : List Rule) :
    Stops (rules ++ rules') passed broken :=
  ⟨h.inFront.trans (List.prefix_append rules rules'), h.passed, h.broken⟩

theorem Stops.behind (h : Stops rules passed broken) (hin : ∀ rule ∈ rules', rule.Holds) :
    Stops (rules' ++ rules) (rules' ++ passed) broken := by
  refine ⟨?_, List.forall_mem_append.2 ⟨hin, h.passed⟩, h.broken⟩
  rw [List.append_assoc]
  exact (List.prefix_append_right_inj rules').2 h.inFront

/-- A list of rules has one first rule that does not hold. -/
theorem Stops.unique {passed' : List Rule} {broken' : Rule} (h : Stops rules passed broken)
    (h' : Stops rules passed' broken') : broken = broken' := by
  -- The rule that does not hold cannot be among those that do.
  have hnot : ∀ {passed passed' : List Rule} {broken broken' : Rule}, ¬ broken.Holds →
      (∀ rule ∈ passed', rule.Holds) → passed ++ [broken] <+: passed' ++ [broken'] → broken = broken' := by
    intro passed passed' broken broken' hbroken hpassed hprefix
    rcases List.prefix_concat_iff.1 hprefix with heq | hshort
    · exact List.singleton_inj.1 (List.append_inj' heq rfl).2
    · have hmem : broken ∈ passed' := hshort.subset (by simp)
      exact absurd (hpassed broken hmem) hbroken
  rcases List.prefix_or_prefix_of_prefix h.inFront h'.inFront with hprefix | hprefix
  · exact hnot h.broken h'.passed hprefix
  · exact (hnot h'.broken h.passed hprefix).symm

/-- A computation that goes by rules fails for the first that does not hold. -/
theorem Checks.eq_error {x : Except ConfigError α} (h : Checks rules x) (hstops : Stops rules passed broken) :
    x = .error broken.fault := by
  cases x with
  | ok a =>
    have hmem : broken ∈ rules := hstops.inFront.subset (by simp)
    exact absurd (h broken hmem) hstops.broken
  | error e =>
    obtain ⟨passed', broken', hstops', rfl⟩ := h
    rw [hstops.unique hstops']

theorem Checks.nil (a : α) : Checks [] (.ok a) := by
  intro rule hrule
  cases hrule

theorem Checks.append_of_error (h : Checks rules (.error e : Except ConfigError α)) (rules' : List Rule) :
    Checks (rules ++ rules') (.error e : Except ConfigError β) := by
  obtain ⟨passed, broken, hstops, hfault⟩ := h
  exact ⟨passed, broken, hstops.append rules', hfault⟩

theorem Checks.append_of_holds {x : Except ConfigError α} (h : ∀ rule ∈ rules, rule.Holds)
    (h' : Checks rules' x) : Checks (rules ++ rules') x := by
  cases x with
  | ok a => exact List.forall_mem_append.2 ⟨h, h'⟩
  | error e =>
    obtain ⟨passed, broken, hstops, hfault⟩ := h'
    exact ⟨rules ++ passed, broken, hstops.behind h, hfault⟩

/-- Two steps go by the rules of the first and then by those of the second. -/
theorem Checks.bind {x : Except ConfigError α} {f : α → Except ConfigError β} (h : Checks rules x)
    (h' : ∀ a, x = .ok a → Checks rules' (f a)) : Checks (rules ++ rules') (x >>= f) := by
  cases x with
  | ok a => exact .append_of_holds h (h' a rfl)
  | error e => exact h.append_of_error rules'

theorem Checks.map {x : Except ConfigError α} (h : Checks rules x) (f : α → β) : Checks rules (x.map f) := by
  cases x with
  | ok a => exact h
  | error e => exact h

theorem Checks.cons {x : Except ConfigError α} (h : rule.Holds) (h' : Checks rules x) :
    Checks (rule :: rules) x :=
  append_of_holds (List.forall_mem_singleton.2 h) h'

theorem Checks.breaks (h : ¬ rule.Holds) (rules : List Rule) :
    Checks (rule :: rules) (.error rule.fault : Except ConfigError α) :=
  ⟨[], rule, ⟨List.prefix_append [rule] rules, List.forall_mem_nil _, h⟩, rfl⟩

end Checks

/-! ## One analysis -/

variable {kind : Kind} {path : Path} {v : Value} {name : String}

theorem exists_of_not_lacks (h : ¬ Lacks v name) : ∃ w, v.member? name = some w ∧ w ≠ .null := by
  obtain ⟨hnone, hnull⟩ := not_or.1 h
  obtain ⟨w, hw⟩ := Option.ne_none_iff_exists'.1 hnone
  refine ⟨w, hw, ?_⟩
  rintro rfl
  exact hnull hw

theorem required_of_lacks (h : Lacks v name) (position : String) :
    required v name position = .error (.missingField position name) := by
  unfold required
  rcases h with hnone | hnull
  · rw [hnone]
  · rw [hnull]

/-- A required field is looked for, and then read. -/
theorem checks_requiredAs {α : Type} {read? : Value → Option α} {expected : Expectation}
    {good : Value → String → Prop}
    (hgood : ∀ w, v.member? name = some w → (good v name ↔ ∃ a, read? w = some a)) :
    Checks (Rules.field path v name good expected) (requiredAs read? expected v name path.label) := by
  unfold requiredAs
  by_cases hlacks : Lacks v name
  · rw [required_of_lacks hlacks]
    refine .breaks ?_ _
    exact not_not.2 hlacks
  · obtain ⟨w, hw, hne⟩ := exists_of_not_lacks hlacks
    rw [required_eq_ok.2 ⟨hw, hne⟩]
    dsimp only
    refine .cons hlacks ?_
    cases hread : read? w with
    | none =>
      have hbad : ¬ good v name := by
        rw [hgood w hw, hread]
        simp
      refine .breaks ?_ []
      exact hbad
    | some a => exact .cons ((hgood w hw).2 ⟨a, hread⟩) (.nil a)

theorem checks_interval : Checks (Rules.field path v "interval" HasInterval .intervalWord)
    (requiredAs (fun v => v.text?.bind Interval.ofWord?) .intervalWord v "interval" path.label) := by
  refine checks_requiredAs fun w hw => ?_
  simp only [hasInterval_iff, word_eq_some, hw, Option.some.injEq]

theorem checks_count (name : String) : Checks (Rules.field path v name HasCount .positiveInteger)
    (requiredAs positive? .positiveInteger v name path.label) := by
  refine checks_requiredAs fun w hw => ?_
  simp only [hasCount_iff, HoldsPositive, positive?_eq_some, hw, Option.some.injEq]

theorem checks_target : Checks (Rules.field path v "target" HasText .nonEmptyString)
    (requiredAs trimmedText? .nonEmptyString v "target" path.label) := by
  refine checks_requiredAs fun w hw => ?_
  simp only [HasText, trimmedText?_eq_some, hw, Option.some.injEq]
  constructor
  · rintro ⟨s, rfl, hne⟩
    exact ⟨_, s, rfl, rfl, hne⟩
  · rintro ⟨_, s, rfl, rfl, hne⟩
    exact ⟨s, rfl, hne⟩

theorem checks_parse :
    Checks (Rules.parameters path v kind) (Parameters.parse kind v path.label) := by
  cases kind with
  | timeSeries =>
    refine checks_interval.bind fun interval _ => ?_
    rw [← List.append_nil (Rules.field path v "span" HasCount .positiveInteger)]
    exact (checks_count "span").bind fun span _ => .nil _
  | freqDist =>
    refine checks_target.bind fun target _ => ?_
    rw [← List.append_nil (Rules.field path v "threshold" HasCount .positiveInteger)]
    exact (checks_count "threshold").bind fun threshold _ => .nil _

theorem optionalText_eq_error {position : String} {e : ConfigError}
    (h : optionalText v name position = .error e) : e = .invalidField position name .nonEmptyString := by
  unfold optionalText at h
  split at h
  · cases h
  · cases h
  · split at h
    · exact (Except.error.inj h).symm
    · cases h
  · exact (Except.error.inj h).symm

theorem checks_optionalText (name : String) :
    Checks [Rules.text path v name] (optionalText v name path.label) := by
  cases htext : optionalText v name path.label with
  | ok text => exact .cons (optional_iff.2 ⟨text, optionalText_eq_ok.1 htext⟩) (.nil text)
  | error e =>
    rw [optionalText_eq_error htext]
    refine .breaks (fun hholds => ?_) []
    obtain ⟨text, hok⟩ := optional_iff.1 hholds
    rw [show optionalText v name path.label = .ok text from optionalText_eq_ok.2 hok] at htext
    cases htext

/-- An analysis is checked field after field. -/
theorem checks_compileSpec : Checks (Rules.spec kind path v) (compileSpec kind v path.label) := by
  cases v with
  | object members =>
    refine .cons ⟨members, rfl⟩ (checks_parse.bind fun parameters _ => ?_)
    refine (checks_optionalText "name").bind fun name _ => ?_
    rw [← List.append_nil [Rules.text path (.object members) "filter"]]
    exact (checks_optionalText "filter").bind fun filter _ => .nil _
  | _ => exact .breaks (by rintro ⟨members, ⟨⟩⟩) _

/-! ## Chains and entries -/

/-- A chain is checked link after link. -/
theorem checks_chainBehind {first : Nat} {place : Place} {front : List Leaf} :
    Checks (Rules.chain kind (.ofPlace place) v) (chainBehind kind first place front v) := by
  have hspec : ∀ (place : Place) (v : Value),
      Checks (Rules.spec kind (.ofPlace place) v) (compileSpec kind v place.label) := by
    intro place v
    rw [← Path.label_ofPlace]
    exact checks_compileSpec
  -- By induction on the chain. The leaves in front have been checked, and play no part here.
  fun_induction chainBehind kind first place front v with
  | case1 place front v e he =>
    have hown := hspec place v
    rw [he] at hown
    rw [Rules.chain]
    exact hown.append_of_error _
  | case2 place front v spec hok leaf hends =>
    have hown := hspec place v
    rw [hok] at hown
    rw [Rules.chain_of_ends hends]
    exact hown
  | case3 place front v spec hok leaf child hgoesOn ih =>
    have hown := hspec place v
    rw [hok] at hown
    rw [Rules.chain_of_goesOn hgoesOn]
    exact .append_of_holds hown ih

theorem checks_compileChain {first : Nat} {place : Place} :
    Checks (Rules.chain kind (.ofPlace place) v) (compileChain kind first place v) :=
  checks_chainBehind

variable {index first slot : Nat} {vs : List Value}

theorem compileMembers_cons (harray : ∀ items, v ≠ .array items) :
    compileMembers kind index first slot (v :: vs) =
      (compileChain kind first ⟨kind.key, index, some slot, 0⟩ v >>= fun chain =>
        (compileMembers kind index (first + chain.length) (slot + 1) vs).map (chain :: ·)) := by
  rw [compileMembers]
  · split
    · rename_i hchain
      rw [hchain]
      rfl
    · rename_i chain hchain
      rw [hchain]
      change _ = (compileMembers kind index (first + chain.length) (slot + 1) vs).map _
      cases compileMembers kind index (first + chain.length) (slot + 1) vs <;> rfl
  · exact harray

theorem compileEntries_cons : compileEntries kind index first (v :: vs) =
    (compileNode kind index first v >>= fun node =>
      (compileEntries kind (index + 1) (first + node.leafCount) vs).map
        (⟨kind, index, Place.entryLabel kind.key index, node⟩ :: ·)) := by
  rw [compileEntries]
  split
  · rename_i hnode
    rw [hnode]
    rfl
  · rename_i node hnode
    rw [hnode]
    change _ = (compileEntries kind (index + 1) (first + node.leafCount) vs).map _
    cases compileEntries kind (index + 1) (first + node.leafCount) vs <;> rfl

/-- The members of a group are checked one after the other. -/
theorem checks_compileMembers :
    Checks ((vs.zipIdx slot).flatMap fun (v, slot) => Rules.member kind index slot v)
      (compileMembers kind index first slot vs) := by
  induction vs generalizing first slot with
  | nil => exact .nil []
  | cons v vs ih =>
    rw [List.zipIdx_cons, List.flatMap_cons]
    by_cases harray : ∀ items, v ≠ .array items
    · rw [compileMembers_cons harray]
      exact .cons harray (checks_compileChain.bind fun chain _ => ih.map _)
    · obtain ⟨items, hitems⟩ := not_forall.1 harray
      obtain rfl := not_not.1 hitems
      refine .breaks ?_ _
      exact harray

/-- A group is checked for members first, and then member after member. -/
theorem checks_compileNode : Checks (Rules.entry kind index v) (compileNode kind index first v) := by
  cases v with
  | array items =>
    cases items with
    | nil =>
      rw [compileNode, ← Path.label_entry]
      refine .breaks ?_ _
      exact fun hfull => hfull rfl
    | cons item items =>
      refine .cons ?_ (checks_compileMembers.map _)
      rintro ⟨⟩
  | _ => exact checks_compileChain.map _

theorem checks_compileEntries :
    Checks ((vs.zipIdx index).flatMap fun (v, index) => Rules.entry kind index v)
      (compileEntries kind index first vs) := by
  induction vs generalizing index first with
  | nil => exact .nil []
  | cons v vs ih =>
    rw [List.zipIdx_cons, List.flatMap_cons, compileEntries_cons]
    exact checks_compileNode.bind fun node _ => ih.map _

/-- What a name has is an array with items, or it counts as the only item. -/
theorem checks_entriesOf (name : String) (v : Value) :
    Checks [Rules.full (.under name [] 0) v] (entriesOf name v) := by
  by_cases hempty : v = .array []
  · subst hempty
    have hbreaks : ¬ (Rules.full (.under name [] 0) (.array [])).Holds := fun hfull => hfull rfl
    simpa only [Rules.full, Path.label_key, entriesOf] using Checks.breaks hbreaks []
  · have hok : entriesOf name v = .ok (elements v) := by
      refine entriesOf_eq_ok.2 ⟨rfl, fun hnone => hempty ?_⟩
      cases v with
      | array items => exact congrArg Value.array hnone
      | _ => cases hnone
    rw [hok]
    exact .cons hempty (.nil _)

/-- The entries under a name are checked before those under the names behind it. -/
theorem checks_compileTasks {entries : Keyed Value} :
    Checks (entries.flatMap fun (name, v) => Rules.key name v) (compileTasks first entries) := by
  induction entries generalizing first with
  | nil => exact .nil []
  | cons entry entries ih =>
    obtain ⟨name, v⟩ := entry
    rw [List.flatMap_cons, compileTasks]
    dsimp only
    cases hkind : Kind.ofKey? name with
    | none =>
      rw [Rules.key_of_unknown hkind]
      refine .breaks ?_ _
      rintro ⟨kind, rfl⟩
      rw [Kind.ofKey?_eq_some.2 rfl] at hkind
      cases hkind
    | some kind =>
      obtain rfl := Kind.ofKey?_eq_some.1 hkind
      -- The name is known, and what it has comes before the names that follow.
      rw [Rules.key_of_kind, List.append_assoc, List.append_assoc]
      refine .cons ⟨kind, rfl⟩ ?_
      refine (checks_entriesOf kind.key v).bind fun items hitems => ?_
      obtain ⟨rfl, -⟩ := entriesOf_eq_ok.1 hitems
      refine checks_compileEntries.bind fun tasks _ => ?_
      rw [← List.append_nil (entries.flatMap _)]
      exact ih.bind fun others _ => .nil _

/-- A configuration is checked as a whole, and then name after name. Registering the chains finds no fault. -/
theorem checks_compile (document : Value) : Checks (Rules.config document) (Graph.compile document) := by
  unfold Graph.compile Rules.config Rules.members
  cases document with
  | object items =>
    refine .cons ⟨items, rfl⟩ ?_
    simp only [Value.entries?, Option.getD_some]
    cases hentries : Keyed.ofEntries items with
    | nil =>
      obtain rfl := Keyed.ofEntries_eq_nil_iff.1 hentries
      refine .breaks ?_ _
      exact fun hne => hne rfl
    | cons entry entries =>
      refine .cons ?_ ?_
      · rintro ⟨⟩
        cases hentries
      · rw [← List.append_nil (List.flatMap _ _)]
        refine checks_compileTasks.bind fun tasks htasks => ?_
        obtain ⟨lineage, hlineage⟩ := register_compileTasks htasks
        rw [hlineage]
        exact .nil _
  | _ =>
    refine .breaks ?_ _
    rintro ⟨items, ⟨⟩⟩

/-- Two rules come out the same: both hold or none does, and their faults are the same. -/
structure Rule.Agrees (rule rule' : Rule) : Prop where
  holds_iff : rule.Holds ↔ rule'.Holds
  fault_eq : rule.fault = rule'.fault

/-- A configuration is refused for the first rule that it breaks. -/
structure Refused (document : Value) (passed : List Rule) (broken : Rule) : Prop where
  first : Stops (Rules.config document) passed broken
  error : Graph.compile document = .error broken.fault
  /-- The label in the error stands for the path to what breaks the rule. -/
  located : broken.Located document
  /-- Nothing behind the broken rule matters: a configuration whose rules come out the same up to there is
  refused for the same reason. -/
  decided : ∀ document' passed' broken', passed' ++ [broken'] <+: Rules.config document' →
    List.Forall₂ Rule.Agrees passed passed' → broken.Agrees broken' →
      Graph.compile document' = .error broken.fault

theorem holds_of_agrees {rules rules' : List Rule} (h : List.Forall₂ Rule.Agrees rules rules')
    (hholds : ∀ rule ∈ rules, rule.Holds) : ∀ rule ∈ rules', rule.Holds := by
  induction h with
  | nil => exact List.forall_mem_nil _
  | cons hagrees _ ih =>
    obtain ⟨hfirst, hrest⟩ := List.forall_mem_cons.1 hholds
    exact List.forall_mem_cons.2 ⟨hagrees.holds_iff.1 hfirst, ih hrest⟩

theorem refused_of_stops {document : Value} {passed : List Rule} {broken : Rule}
    (hstops : Stops (Rules.config document) passed broken) : Refused document passed broken := by
  have hmem : broken ∈ Rules.config document := hstops.inFront.subset (by simp)
  refine ⟨hstops, (checks_compile document).eq_error hstops, Rules.config_located document broken hmem, ?_⟩
  intro document' passed' broken' hfront hpassed hbroken
  have hstops' : Stops (Rules.config document') passed' broken' :=
    ⟨hfront, holds_of_agrees hpassed hstops.passed, fun hholds => hstops.broken (hbroken.holds_iff.2 hholds)⟩
  rw [(checks_compile document').eq_error hstops', hbroken.fault_eq]

end Config

open Config

/-- A configuration compiles if no rule is broken; otherwise it is refused for the first rule that is. -/
theorem Graph.compile_reports (document : Value) :
    Rules.InByteOrder document (Rules.members document) ∧
      ((∃ graph, Graph.compile document = .ok graph ∧ ∀ rule ∈ Rules.config document, rule.Holds) ∨
        ∃ passed broken, Refused document passed broken) := by
  refine ⟨Rules.members_inByteOrder document, ?_⟩
  have hchecks := checks_compile document
  cases hcompile : Graph.compile document with
  | ok graph =>
    rw [hcompile] at hchecks
    exact .inl ⟨graph, rfl, hchecks⟩
  | error e =>
    rw [hcompile] at hchecks
    obtain ⟨passed, broken, hstops, -⟩ := hchecks
    exact .inr ⟨passed, broken, refused_of_stops hstops⟩

/-- What comes first in the text does not come first in the traversal. -/
example : Graph.compile (.object [("timeSeries", .null), ("freqDist", .array [])]) =
    .error (.emptyGroup "freqDist") := rfl

end Inquiry
