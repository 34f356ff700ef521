import Inquiry.Proofs.Task.Register
import Inquiry.Proofs.Text.Keyed

/-!
# Proofs.Task.Grammar — the configurations that are accepted

The grammar of configurations, read off a document without compiling it, and that the compiler accepts
a document exactly when it is of the grammar.

* `Grammar.IsSpec`: one analysis with its follow-ups; `Grammar.IsEntry`: an analysis or a group;
  `Grammar.IsEntries`: what may stand under a kind; `Grammar.IsConfig`: a whole configuration.
* `Config.compileChain_accepts`, `Config.compileNode_accepts`, `Config.compileTasks_accepts`: each part of
  the compiler accepts its part of the grammar.
* `Graph.compile_accepts`: so does the compiler, and links never close a cycle.
-/

namespace Inquiry

open Json (Value)

namespace Grammar

/-! ## The grammar -/

/-- A member is not there, or it is null. -/
def Lacks (v : Value) (field : String) : Prop :=
  v.member? field = none ∨ v.member? field = some .null

/-- A member is a text that is not blank. -/
def HasText (v : Value) (field : String) : Prop :=
  ∃ s, v.member? field = some (.string s) ∧ Text.trim s ≠ ""

/-- A member is a positive integer of thirty-two bits. -/
def HasCount (v : Value) (field : String) : Prop :=
  ∃ n : Int, v.member? field = some (.number (.integer n)) ∧ 1 ≤ n ∧ n < Nat.pow 2 32

/-- A member is one of the words for units of time. -/
def HasInterval (v : Value) (field : String) : Prop :=
  ∃ word ∈ ["minute", "hour", "day", "week", "month"], v.member? field = some (.string word)

/-- The parameters of a kind are valid. -/
def HasParameters (v : Value) : Kind → Prop
  | .timeSeries => HasInterval v "interval" ∧ HasCount v "span"
  | .freqDist => HasText v "target" ∧ HasCount v "threshold"

/-- The members of an analysis are valid, its follow-up aside; members of other names are free. -/
structure HasMembers (kind : Kind) (v : Value) : Prop where
  object : ∃ members, v = .object members
  parameters : HasParameters v kind
  name : Lacks v "name" ∨ HasText v "name"
  filter : Lacks v "filter" ∨ HasText v "filter"

/-- An analysis with its follow-ups. -/
inductive IsSpec (kind : Kind) : Value → Prop where
  | alone {v : Value} (members : HasMembers kind v) (ends : Lacks v "then") : IsSpec kind v
  | followed {v child : Value} (members : HasMembers kind v) (goesOn : v.member? "then" = some child)
      (behind : IsSpec kind child) : IsSpec kind v

/-- A non-empty array of items of one sort. -/
def IsArrayOf (p : Value → Prop) (v : Value) : Prop :=
  ∃ items, v = .array items ∧ items ≠ [] ∧ ∀ item ∈ items, p item

/-- An analysis, or a group of analyses. -/
def IsEntry (kind : Kind) (v : Value) : Prop :=
  IsSpec kind v ∨ IsArrayOf (IsSpec kind) v

/-- What stands under a kind: an analysis, or entries. -/
def IsEntries (kind : Kind) (v : Value) : Prop :=
  IsSpec kind v ∨ IsArrayOf (IsEntry kind) v

/-- A configuration: an object that is not empty, with entries under the words for kinds. -/
def IsConfig (config : Value) : Prop :=
  ∃ members, config = .object members ∧ members ≠ [] ∧
    ∀ key v, config.member? key = some v →
      (key = "timeSeries" ∧ IsEntries .timeSeries v) ∨ (key = "freqDist" ∧ IsEntries .freqDist v)

/-! ## Members of an analysis -/

variable {v : Value} {field : String} {kind : Kind}

theorem hasCount_iff : HasCount v field ↔ ∃ n, HoldsPositive v field n := by
  constructor
  · rintro ⟨n, hn, hlow, hhigh⟩
    have hsmall : n < (2 ^ 32 : Nat) := hhigh
    have hvalue : (UInt32.ofNat n.toNat).toNat = n.toNat := by
      rw [UInt32.toNat_ofNat', Nat.mod_eq_of_lt]
      omega
    refine ⟨UInt32.ofNat n.toNat, ?_, by omega⟩
    rw [hn, hvalue, Value.ofNat, Int.toNat_of_nonneg (by omega)]
  · rintro ⟨n, hn, hpos⟩
    exact ⟨n.toNat, hn, by omega, Int.ofNat_lt.2 n.toNat_lt⟩

theorem hasInterval_iff :
    HasInterval v field ↔ ∃ interval : Interval, v.member? field = some (.string interval.word) := by
  constructor
  · rintro ⟨word, hword, hmember⟩
    have hall : word ∈ Interval.all.map Interval.word := hword
    obtain ⟨interval, -, rfl⟩ := List.mem_map.1 hall
    exact ⟨interval, hmember⟩
  · rintro ⟨interval, hmember⟩
    refine ⟨interval.word, ?_, hmember⟩
    cases interval <;> decide

theorem hasParameters_iff : HasParameters v kind ↔
    ∃ parameters : Parameters, parameters.kind = kind ∧ HoldsParameters v parameters := by
  cases kind with
  | timeSeries =>
    rw [HasParameters, hasInterval_iff, hasCount_iff]
    constructor
    · rintro ⟨⟨interval, hinterval⟩, span, hspan⟩
      exact ⟨.timeSeries interval span, rfl, hinterval, hspan⟩
    · rintro ⟨parameters, hkind, hholds⟩
      cases parameters with
      | timeSeries interval span => exact ⟨⟨interval, hholds.1⟩, span, hholds.2⟩
      | freqDist target threshold => cases hkind
  | freqDist =>
    rw [HasParameters, hasCount_iff]
    constructor
    · rintro ⟨⟨s, hs, hne⟩, threshold, hthreshold⟩
      exact ⟨.freqDist (Text.trim s) threshold, rfl, ⟨s, hs, rfl, hne⟩, hthreshold⟩
    · rintro ⟨parameters, hkind, hholds⟩
      cases parameters with
      | timeSeries interval span => cases hkind
      | freqDist target threshold =>
        obtain ⟨⟨s, hs, rfl, hne⟩, hthreshold⟩ := hholds
        exact ⟨⟨s, hs, hne⟩, threshold, hthreshold⟩

theorem optional_iff : (Lacks v field ∨ HasText v field) ↔ ∃ text, HoldsText v field text := by
  constructor
  · rintro (hlacks | ⟨s, hs, hne⟩)
    · exact ⟨none, hlacks⟩
    · exact ⟨some s, hs, hne⟩
  · rintro ⟨text, htext⟩
    cases text with
    | none => exact .inl htext
    | some s => exact .inr ⟨s, htext⟩

/-- The members are valid if they describe an analysis. -/
theorem hasMembers_iff : HasMembers kind v ↔ ∃ spec, Describes kind v spec := by
  constructor
  · rintro ⟨hobject, hparameters, hname, hfilter⟩
    obtain ⟨parameters, hkind, hholds⟩ := hasParameters_iff.1 hparameters
    obtain ⟨name, hname⟩ := optional_iff.1 hname
    obtain ⟨filter, hfilter⟩ := optional_iff.1 hfilter
    exact ⟨⟨kind, name, filter, parameters⟩, hobject, rfl, hkind, hholds, hname, hfilter⟩
  · rintro ⟨spec, hspec⟩
    exact ⟨hspec.object, hasParameters_iff.2 ⟨_, hspec.parametersOfKind, hspec.parameters⟩,
      optional_iff.2 ⟨_, hspec.name⟩, optional_iff.2 ⟨_, hspec.filter⟩⟩

/-! ## Analyses with their follow-ups -/

theorem follow?_eq_none : Config.follow? v = none ↔ Lacks v "then" := by
  unfold Config.follow? Lacks
  split
  · simp_all
  · simp_all
  · rename_i child hnull hchild
    simp only [hchild, reduceCtorEq, false_or, false_iff, Option.some.injEq]
    exact hnull

theorem follow?_eq_some {child : Value} :
    Config.follow? v = some child ↔ v.member? "then" = some child ∧ child ≠ .null := by
  unfold Config.follow?
  split
  · simp_all
  · simp_all
  · rename_i found hnull hfound
    simp only [hfound, Option.some.injEq]
    constructor
    · rintro rfl
      exact ⟨rfl, hnull⟩
    · rintro ⟨rfl, -⟩
      rfl

theorem isSpec_iff : IsSpec kind v ↔ ∃ specs, Config.Follows kind v specs := by
  constructor
  · intro h
    induction h with
    | alone hmembers hends =>
      obtain ⟨spec, hspec⟩ := hasMembers_iff.1 hmembers
      exact ⟨[spec], .last hspec (follow?_eq_none.2 hends)⟩
    | @followed v child hmembers hgoesOn hbehind ih =>
      obtain ⟨spec, hspec⟩ := hasMembers_iff.1 hmembers
      obtain ⟨specs, hspecs⟩ := ih
      -- Null ends a chain, but here an analysis stands under `then`.
      have hne : child ≠ .null := by
        rintro rfl
        cases hspecs with
        | last hdescribes => cases hdescribes.object.choose_spec
        | link hdescribes => cases hdescribes.object.choose_spec
      exact ⟨spec :: specs, .link hspec (follow?_eq_some.2 ⟨hgoesOn, hne⟩) hspecs⟩
  · rintro ⟨specs, hspecs⟩
    induction hspecs with
    | last hspec hends => exact .alone (hasMembers_iff.2 ⟨_, hspec⟩) (follow?_eq_none.1 hends)
    | link hspec hgoesOn _ ih =>
      exact .followed (hasMembers_iff.2 ⟨_, hspec⟩) (follow?_eq_some.1 hgoesOn).1 ih

theorem not_isSpec_array (items : List Value) : ¬ IsSpec kind (.array items) := by
  intro h
  cases h with
  | alone hmembers => cases hmembers.object.choose_spec
  | followed hmembers => cases hmembers.object.choose_spec

end Grammar

open Grammar

/-! ## Every part of the compiler accepts its part of the grammar -/

namespace Config

variable {kind : Kind} {index first slot : Nat} {v : Value} {vs : List Value}

theorem compileChain_accepts {place : Place} :
    (∃ chain, compileChain kind first place v = .ok chain) ↔ IsSpec kind v :=
  compileChain_isOk.trans isSpec_iff.symm

theorem compileMembers_accepts :
    (∃ chains, compileMembers kind index first slot vs = .ok chains) ↔ ∀ v ∈ vs, IsSpec kind v := by
  induction vs generalizing first slot with
  | nil => exact iff_of_true ⟨[], rfl⟩ (by simp)
  | cons v vs ih =>
    rw [List.forall_mem_cons]
    constructor
    · rintro ⟨chains, hchains⟩
      obtain ⟨-, chain, behind, hchain, hbehind, -⟩ := compileMembers_cons_eq_ok.1 hchains
      exact ⟨compileChain_accepts.1 ⟨chain, hchain⟩, ih.1 ⟨behind, hbehind⟩⟩
    · rintro ⟨hv, hvs⟩
      obtain ⟨chain, hchain⟩ := compileChain_accepts.2 hv
      obtain ⟨behind, hbehind⟩ := ih.2 hvs
      have harray : ∀ items, v ≠ .array items := by
        rintro items rfl
        exact not_isSpec_array items hv
      exact ⟨chain :: behind, compileMembers_cons_eq_ok.2 ⟨harray, chain, behind, hchain, hbehind, rfl⟩⟩

theorem compileNode_accepts :
    (∃ node, compileNode kind index first v = .ok node) ↔ IsEntry kind v := by
  constructor
  · rintro ⟨node, hnode⟩
    rcases compileNode_eq_ok.1 hnode with ⟨items, chains, rfl, hne, hchains, -⟩ | ⟨-, chain, hchain, -⟩
    · exact .inr ⟨items, rfl, hne, compileMembers_accepts.1 ⟨chains, hchains⟩⟩
    · exact .inl (compileChain_accepts.1 ⟨chain, hchain⟩)
  · rintro (hspec | ⟨items, rfl, hne, hitems⟩)
    · have harray : ∀ items, v ≠ .array items := by
        rintro items rfl
        exact not_isSpec_array items hspec
      obtain ⟨chain, hchain⟩ := compileChain_accepts.2 hspec
      exact ⟨.single chain, compileNode_eq_ok.2 (.inr ⟨harray, chain, hchain, rfl⟩)⟩
    · obtain ⟨chains, hchains⟩ := compileMembers_accepts.2 hitems
      exact ⟨.group chains, compileNode_eq_ok.2 (.inl ⟨items, chains, rfl, hne, hchains, rfl⟩)⟩

theorem compileEntries_accepts :
    (∃ tasks, compileEntries kind index first vs = .ok tasks) ↔ ∀ v ∈ vs, IsEntry kind v := by
  induction vs generalizing index first with
  | nil => exact iff_of_true ⟨[], rfl⟩ (by simp)
  | cons v vs ih =>
    rw [List.forall_mem_cons]
    constructor
    · rintro ⟨tasks, htasks⟩
      obtain ⟨node, others, hnode, hothers, -⟩ := compileEntries_cons_eq_ok.1 htasks
      exact ⟨compileNode_accepts.1 ⟨node, hnode⟩, ih.1 ⟨others, hothers⟩⟩
    · rintro ⟨hv, hvs⟩
      obtain ⟨node, hnode⟩ := compileNode_accepts.2 hv
      obtain ⟨others, hothers⟩ := ih.2 hvs
      exact ⟨_, compileEntries_cons_eq_ok.2 ⟨node, others, hnode, hothers, rfl⟩⟩

/-- A value that is no array counts as its only element; it cannot be a group. -/
theorem isEntries_iff :
    IsEntries kind v ↔ elements v ≠ [] ∧ ∀ item ∈ elements v, IsEntry kind item := by
  cases v with
  | array items =>
    constructor
    · rintro (hspec | ⟨_, ⟨⟩, hne, hitems⟩)
      · exact absurd hspec (not_isSpec_array items)
      · exact ⟨hne, hitems⟩
    · rintro ⟨hne, hitems⟩
      exact .inr ⟨items, rfl, hne, hitems⟩
  | _ => simp [IsEntries, IsEntry, IsArrayOf, elements]

theorem compileTasks_accepts {entries : Keyed Value} :
    (∃ tasks, compileTasks first entries = .ok tasks) ↔
      ∀ key v, (key, v) ∈ entries → ∃ kind, Kind.ofKey? key = some kind ∧ IsEntries kind v := by
  induction entries generalizing first with
  | nil => exact iff_of_true ⟨[], rfl⟩ (by simp)
  | cons entry entries ih =>
    obtain ⟨key, v⟩ := entry
    constructor
    · rintro ⟨tasks, htasks⟩
      obtain ⟨kind, own, others, hkind, hne, hown, hothers, -⟩ := compileTasks_cons_eq_ok.1 htasks
      intro key' v' hin
      rcases List.mem_cons.1 hin with hhead | hin
      · cases hhead
        exact ⟨kind, hkind, isEntries_iff.2 ⟨hne, compileEntries_accepts.1 ⟨own, hown⟩⟩⟩
      · exact ih.1 ⟨others, hothers⟩ key' v' hin
    · intro h
      obtain ⟨kind, hkind, hv⟩ := h key v List.mem_cons_self
      obtain ⟨hne, helements⟩ := isEntries_iff.1 hv
      obtain ⟨own, hown⟩ := compileEntries_accepts.2 helements
      obtain ⟨others, hothers⟩ := ih.2 fun key' v' hin => h key' v' (List.mem_cons_of_mem _ hin)
      exact ⟨own ++ others,
        compileTasks_cons_eq_ok.2 ⟨kind, own, others, hkind, hne, hown, hothers, rfl⟩⟩

/-- The chains of compiled tasks can be registered: their leaves are all different, and new. -/
theorem register_compileTasks {entries : Keyed Value} {tasks : List Task}
    (h : compileTasks 0 entries = .ok tasks) :
    ∃ lineage, register .empty (tasks.flatMap (·.node.chains)) = .ok lineage := by
  apply register_isOk
  · rw [compileTasks_ids h]
    exact List.nodup_range'
  · intro id _
    exact Std.TreeMap.contains_emptyc

end Config

/-! ## Faults other than cycles

Before the chains are registered no fault is a cycle: each function has faults of its own, and passes on
those of the functions that it calls.
-/

theorem ne_error_bind {α β : Type} {x : Except ConfigError α} {f : α → Except ConfigError β}
    {e : ConfigError} (hx : x ≠ .error e) (hf : ∀ a, f a ≠ .error e) : (x >>= f) ≠ .error e := by
  cases x with
  | error e' =>
    rintro ⟨⟩
    exact hx rfl
  | ok a => exact hf a

namespace Config

variable {kind : Kind} {v : Value} {field position label : String}

theorem requiredAs_ne_cycle {α : Type} {read? : Value → Option α} {expected : Expectation} :
    requiredAs read? expected v field position ≠ .error (.cycle label) := by
  unfold requiredAs required
  split <;> rename_i h
  · split at h <;> cases h <;> simp
  · split <;> simp

theorem optionalText_ne_cycle : optionalText v field position ≠ .error (.cycle label) := by
  unfold optionalText
  repeat' split
  all_goals simp

theorem compileSpec_ne_cycle : compileSpec kind v position ≠ .error (.cycle label) := by
  cases v with
  | object members =>
    -- The parameters come first, then the name, then the filter.
    refine ne_error_bind ?_ fun parameters => ne_error_bind optionalText_ne_cycle fun name =>
      ne_error_bind optionalText_ne_cycle fun filter => by simp [pure, Except.pure]
    cases kind <;>
      exact ne_error_bind requiredAs_ne_cycle fun _ => ne_error_bind requiredAs_ne_cycle fun _ => by
        simp [pure, Except.pure]
  | _ => simp [compileSpec]

theorem chainBehind_ne_cycle {first : Nat} {place : Place} {front : List Leaf} :
    chainBehind kind first place front v ≠ .error (.cycle label) := by
  fun_induction chainBehind kind first place front v with
  | case1 place front v e he =>
    rintro ⟨⟩
    exact compileSpec_ne_cycle he
  | case2 => simp
  | case3 place front v spec hspec leaf child hchild ih => exact ih

theorem compileMembers_ne_cycle {index first slot : Nat} {vs : List Value} :
    compileMembers kind index first slot vs ≠ .error (.cycle label) := by
  induction vs generalizing first slot with
  | nil => simp [compileMembers]
  | cons v vs ih =>
    unfold compileMembers
    dsimp only
    split
    · simp
    · split
      · rename_i e he
        rintro ⟨⟩
        exact chainBehind_ne_cycle he
      · split
        · rename_i e he
          rintro ⟨⟩
          exact ih he
        · simp

theorem map_ne_error {α β : Type} {x : Except ConfigError α} {f : α → β} {e : ConfigError}
    (h : x ≠ .error e) : x.map f ≠ .error e := by
  cases x with
  | error e' =>
    rintro ⟨⟩
    exact h rfl
  | ok a => simp [Except.map]

theorem compileNode_ne_cycle {index first : Nat} :
    compileNode kind index first v ≠ .error (.cycle label) := by
  unfold compileNode
  split
  · simp
  · exact map_ne_error compileMembers_ne_cycle
  · exact map_ne_error chainBehind_ne_cycle

theorem compileEntries_ne_cycle {index first : Nat} {vs : List Value} :
    compileEntries kind index first vs ≠ .error (.cycle label) := by
  induction vs generalizing index first with
  | nil => simp [compileEntries]
  | cons v vs ih =>
    unfold compileEntries
    split
    · rename_i e he
      rintro ⟨⟩
      exact compileNode_ne_cycle he
    · split
      · rename_i e he
        rintro ⟨⟩
        exact ih he
      · simp

theorem compileTasks_ne_cycle {first : Nat} {entries : Keyed Value} :
    compileTasks first entries ≠ .error (.cycle label) := by
  induction entries generalizing first with
  | nil => simp [compileTasks]
  | cons entry entries ih =>
    unfold compileTasks
    split
    · simp
    · refine ne_error_bind ?_ fun items => ne_error_bind compileEntries_ne_cycle fun tasks =>
        ne_error_bind ih fun others => by simp [pure, Except.pure]
      unfold entriesOf
      split <;> simp

end Config

/-! ## Configurations -/

theorem Kind.ofKey?_eq_some {key : String} {kind : Kind} :
    Kind.ofKey? key = some kind ↔ key = kind.key := by
  constructor
  · intro h
    have hword := List.find?_some h
    exact (beq_iff_eq.1 hword).symm
  · rintro rfl
    cases kind <;> rfl

theorem Grammar.isConfig_iff {config : Value} : IsConfig config ↔
    ∃ entries, config.entries? = some entries ∧ entries ≠ [] ∧ ∀ key v, (key, v) ∈ entries →
      ∃ kind, Kind.ofKey? key = some kind ∧ IsEntries kind v := by
  have hkey : ∀ {key v}, (∃ kind, Kind.ofKey? key = some kind ∧ IsEntries kind v) ↔
      (key = "timeSeries" ∧ IsEntries .timeSeries v) ∨ (key = "freqDist" ∧ IsEntries .freqDist v) := by
    intro key v
    simp only [Kind.ofKey?_eq_some]
    constructor
    · rintro ⟨kind, rfl, hv⟩
      cases kind with
      | timeSeries => exact .inl ⟨rfl, hv⟩
      | freqDist => exact .inr ⟨rfl, hv⟩
    · rintro (⟨rfl, hv⟩ | ⟨rfl, hv⟩)
      · exact ⟨.timeSeries, rfl, hv⟩
      · exact ⟨.freqDist, rfl, hv⟩
  constructor
  · rintro ⟨members, rfl, hne, hmembers⟩
    refine ⟨Keyed.ofEntries members, rfl, fun h => hne (Keyed.ofEntries_eq_nil_iff.1 h), ?_⟩
    intro key v hin
    exact hkey.2 (hmembers key v (Keyed.mem_ofEntries.1 hin))
  · rintro ⟨entries, hentries, hne, hall⟩
    cases config with
    | object members =>
      cases hentries
      refine ⟨members, rfl, fun h => hne (Keyed.ofEntries_eq_nil_iff.2 h), ?_⟩
      intro key v hmember
      exact hkey.1 (hall key v (Keyed.mem_ofEntries.2 hmember))
    | _ => cases hentries

theorem Graph.compile_ne_cycle {config : Value} {label : String} :
    Graph.compile config ≠ .error (.cycle label) := by
  unfold Graph.compile
  split
  · simp
  · simp
  · rename_i entries _ _
    cases htasks : Config.compileTasks 0 entries with
    | error e =>
      rintro ⟨⟩
      exact Config.compileTasks_ne_cycle htasks
    | ok tasks =>
      -- Registering is the only step that looks for cycles, and it always succeeds.
      obtain ⟨lineage, hlineage⟩ := Config.register_compileTasks htasks
      rw [show (Except.ok tasks >>= fun tasks => Config.register .empty (tasks.flatMap (·.node.chains)) >>=
        fun lineage => pure (⟨tasks, lineage⟩ : Graph)) = .ok ⟨tasks, lineage⟩ from
          bind_eq_ok.2 ⟨tasks, rfl, bind_eq_ok.2 ⟨lineage, hlineage, rfl⟩⟩]
      simp

/-- A document is accepted exactly if it is of the grammar, and it is never refused for a cycle. -/
theorem Graph.compile_accepts (config : Value) :
    ((∃ graph, Graph.compile config = .ok graph) ↔ IsConfig config) ∧
      ∀ position, Graph.compile config ≠ .error (.cycle position) := by
  refine ⟨?_, fun position => Graph.compile_ne_cycle⟩
  rw [isConfig_iff]
  constructor
  · rintro ⟨graph, hgraph⟩
    obtain ⟨entries, hentries, hne, htasks, -⟩ := Graph.compile_eq_ok.1 hgraph
    exact ⟨entries, hentries, hne, Config.compileTasks_accepts.1 ⟨graph.tasks, htasks⟩⟩
  · rintro ⟨entries, hentries, hne, hall⟩
    obtain ⟨tasks, htasks⟩ := Config.compileTasks_accepts.2 hall
    obtain ⟨lineage, hlineage⟩ := Config.register_compileTasks htasks
    exact ⟨⟨tasks, lineage⟩, Graph.compile_eq_ok.2 ⟨entries, hentries, hne, htasks, hlineage⟩⟩

/-- A group is no member of a group. -/
example : Graph.compile (.object [("freqDist", .array [.array [.array []]])]) =
    .error (.nestedGroup "freqDist[0][0]") := rfl

end Inquiry
