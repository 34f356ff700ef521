import Inquiry.Proofs.Task.Descent
import Inquiry.Proofs.Task.Grammar
import Inquiry.Proofs.Task.Mirror

/-!
# Proofs.Task.NormalForm — configurations that compile to the same graph

Much of a configuration has no effect on what it compiles to: members of other names, members that are null,
blank characters around a target, and whether a lone entry stands in an array. The normal form leaves this
out, and nothing else.

* `Normal.analysis`, `Normal.entry`, `Normal.entries`, `Normal.configuration`: the normal form, level by level.
* `Normal.compile_configuration`: a configuration and its normal form compile to the same, be it a graph or a
  fault.
* `Normal.Holds`, `Normal.HoldsNode`: what a chain and a node of a graph were compiled from, which is determined
  up to its normal form (`Normal.analysis_unique`, `Normal.entry_unique`).
* `Graph.compile_normal`: graphs are equal exactly if the normal forms are.
-/

namespace Inquiry

open Json (Value)

namespace Normal

/-! ## The normal form -/

/-- A text without the blank characters at its ends; every other value is its own. -/
def trimmed : Value → Value
  | .string s => .string (Text.trim s)
  | v => v

/-- What is kept of a member of an analysis, follow-ups aside: parameters of its kind, the target trimmed, and
a name and a filter that are not null. -/
def kept (kind : Kind) (name : String) (v : Value) : Option Value :=
  if kind.hasField name then some (if name = "target" then trimmed v else v)
  else if (name = "name" ∨ name = "filter") ∧ v.isNull = false then some v
  else none

/-- The normal form of an analysis with its follow-ups. -/
def analysis (kind : Kind) : Value → Value
  | .object members => .object ((Keyed.ofEntries members).attach.filterMap fun ⟨(name, v), _⟩ =>
      if name = "then" then if v.isNull then none else some (name, analysis kind v)
      else (kept kind name v).map (name, ·))
  | v => v
termination_by v => v
decreasing_by
  have hmember := Keyed.mem_ofEntries.1 ‹_›
  exact Json.Value.sizeOf_member?_lt (v := .object members) hmember

/-- The normal form of an entry: an analysis, or a group of analyses. -/
def entry (kind : Kind) : Value → Value
  | .array members => .array (members.map (analysis kind))
  | v => analysis kind v

/-- The normal form of what stands under a kind, in an array. -/
def entries (kind : Kind) : Value → Value
  | .array items => .array (items.map (entry kind))
  | v => .array [entry kind v]

/-- The normal form of what stands under a key, if that is the word for a kind. -/
def underKey (key : String) (v : Value) : Value :=
  match Kind.ofKey? key with
  | some kind => entries kind v
  | none => v

/-- The normal form of a configuration. -/
def configuration : Value → Value
  | .object members => .object ((Keyed.ofEntries members).map fun entry => (entry.1, underKey entry.1 entry.2))
  | v => v

/-! ## Members of an analysis in normal form -/

variable {kind : Kind} {v : Value} {name : String}

/-- What is kept of a member of an analysis, its follow-up in normal form. -/
def keptDeep (kind : Kind) (name : String) (v : Value) : Option Value :=
  if name = "then" then if v.isNull then none else some (analysis kind v) else kept kind name v

theorem analysis_object (members : Keyed Value) : analysis kind (.object members) =
    .object ((Keyed.ofEntries members).filterMap fun entry =>
      (keptDeep kind entry.1 entry.2).map (entry.1, ·)) := by
  have hentry : ∀ entry : String × Value,
      (if entry.1 = "then" then if entry.2.isNull then none else some (entry.1, analysis kind entry.2)
        else (kept kind entry.1 entry.2).map (entry.1, ·)) =
      (keptDeep kind entry.1 entry.2).map (entry.1, ·) := by
    intro entry
    unfold keptDeep
    split_ifs <;> rfl
  rw [analysis]
  simp only [hentry]
  conv_rhs => rw [← (Keyed.ofEntries members).attach_map_subtype_val, List.filterMap_map]
  rfl

theorem member?_analysis (kind : Kind) (v : Value) (name : String) :
    (analysis kind v).member? name = (v.member? name).bind (keptDeep kind name) := by
  cases v with
  | object members =>
    rw [analysis_object, Value.member?, Keyed.find?_filterMap _ (Keyed.ascending_ofEntries members),
      Keyed.find?_ofEntries]
    rfl
  | _ => simp [analysis, Value.member?]

theorem isNull_iff : v.isNull = true ↔ v = .null := by
  cases v <;> simp [Value.isNull]

theorem isNull_analysis (kind : Kind) (v : Value) : (analysis kind v).isNull = v.isNull := by
  cases v with
  | object members => rw [analysis_object]; rfl
  | _ => simp [analysis]

theorem keptDeep_field (h : kind.hasField name = true) :
    keptDeep kind name v = some (if name = "target" then trimmed v else v) := by
  have hthen : name ≠ "then" := by
    rintro rfl
    cases kind <;> cases h
  rw [keptDeep, if_neg hthen, kept, if_pos h]

theorem keptDeep_text (h : name = "name" ∨ name = "filter") :
    keptDeep kind name v = if v.isNull = false then some v else none := by
  have hfield : kind.hasField name = false := by
    rcases h with rfl | rfl <;> cases kind <;> rfl
  have hthen : name ≠ "then" := by
    rintro rfl
    simp at h
  simp [keptDeep, kept, hthen, hfield, h]

/-- What is kept under `then` is the follow-up, in normal form. -/
theorem keptDeep_then (kind : Kind) (v : Value) :
    (v.member? "then").bind (keptDeep kind "then") = (Config.follow? v).map (analysis kind) := by
  cases hfollow : Config.follow? v with
  | none =>
    rcases Grammar.follow?_eq_none.1 hfollow with hmember | hmember
    · rw [hmember]
      rfl
    · rw [hmember]
      rfl
  | some child =>
    obtain ⟨hmember, hne⟩ := Grammar.follow?_eq_some.1 hfollow
    rw [hmember]
    exact if_neg (mt isNull_iff.1 hne)

/-- The follow-up of a normal form is that of the analysis, in normal form. -/
theorem follow?_analysis (kind : Kind) (v : Value) :
    Config.follow? (analysis kind v) = (Config.follow? v).map (analysis kind) := by
  have hmember : (analysis kind v).member? "then" = (Config.follow? v).map (analysis kind) := by
    rw [member?_analysis, keptDeep_then]
  cases hfollow : Config.follow? v with
  | none =>
    rw [hfollow] at hmember
    exact Grammar.follow?_eq_none.2 (.inl hmember)
  | some child =>
    rw [hfollow] at hmember
    refine Grammar.follow?_eq_some.2 ⟨hmember, fun hnull => (Grammar.follow?_eq_some.1 hfollow).2 ?_⟩
    rw [← isNull_iff, ← isNull_analysis kind]
    exact isNull_iff.2 hnull

/-! ## A configuration and its normal form compile to the same -/

theorem trimmedText?_trimmed (v : Value) : Config.trimmedText? (trimmed v) = Config.trimmedText? v := by
  cases v with
  | string s =>
    ext t
    simp [Config.trimmedText?_eq_some, trimmed, Text.trim_trim]
  | _ => rfl

section Fields

variable {α : Type} {read? : Value → Option α} {expected : Expectation} {position : String}

theorem requiredAs_analysis (hfield : kind.hasField name = true)
    (hread : name = "target" → ∀ w, read? (trimmed w) = read? w) :
    Config.requiredAs read? expected (analysis kind v) name position =
      Config.requiredAs read? expected v name position := by
  cases hmember : v.member? name with
  | none => simp [Config.requiredAs, Config.required, member?_analysis, hmember]
  | some w =>
    simp only [Config.requiredAs, Config.required, member?_analysis, hmember, Option.bind_some,
      keptDeep_field hfield]
    by_cases htarget : name = "target"
    · have hsame := hread htarget w
      simp only [htarget, if_true]
      cases w with
      | string s => simp only [trimmed] at hsame ⊢; rw [hsame]
      | _ => rfl
    · simp only [htarget, if_false]

end Fields

theorem optionalText_analysis (kind : Kind) (v : Value) (position : String)
    (h : name = "name" ∨ name = "filter") :
    Config.optionalText (analysis kind v) name position = Config.optionalText v name position := by
  cases hmember : v.member? name with
  | none => simp [Config.optionalText, member?_analysis, hmember]
  | some w =>
    simp only [Config.optionalText, member?_analysis, hmember, Option.bind_some, keptDeep_text h]
    cases w <;> rfl

theorem parse_analysis (kind : Kind) (v : Value) (position : String) :
    Parameters.parse kind (analysis kind v) position = Parameters.parse kind v position := by
  cases kind with
  | timeSeries =>
    have hfield : ∀ {α name} {read? : Value → Option α} {expected}, Kind.timeSeries.hasField name = true →
        Config.requiredAs read? expected (analysis .timeSeries v) name position =
          Config.requiredAs read? expected v name position :=
      fun h => requiredAs_analysis h fun htarget => by subst htarget; cases h
    simp only [Parameters.parse, hfield (show Kind.timeSeries.hasField "interval" = true from rfl),
      hfield (show Kind.timeSeries.hasField "span" = true from rfl)]
  | freqDist =>
    have htarget :
        Config.requiredAs Config.trimmedText? .nonEmptyString (analysis .freqDist v) "target" position =
          Config.requiredAs Config.trimmedText? .nonEmptyString v "target" position :=
      requiredAs_analysis rfl fun _ => trimmedText?_trimmed
    have hthreshold :
        Config.requiredAs Config.positive? .positiveInteger (analysis .freqDist v) "threshold" position =
          Config.requiredAs Config.positive? .positiveInteger v "threshold" position :=
      requiredAs_analysis rfl (by simp)
    simp only [Parameters.parse, htarget, hthreshold]

theorem compileSpec_analysis (kind : Kind) (v : Value) (position : String) :
    Config.compileSpec kind (analysis kind v) position = Config.compileSpec kind v position := by
  cases v with
  | object members =>
    have hparse := parse_analysis kind (.object members) position
    have hname := optionalText_analysis kind (.object members) position (.inl rfl)
    have hfilter := optionalText_analysis kind (.object members) position (.inr rfl)
    rw [analysis_object] at *
    simp only [Config.compileSpec, hparse, hname, hfilter]
  | _ => simp [analysis]

theorem chainBehind_analysis (kind : Kind) (first : Nat) (place : Place) (front : List Leaf) (v : Value) :
    Config.chainBehind kind first place front (analysis kind v) =
      Config.chainBehind kind first place front v := by
  fun_induction Config.chainBehind kind first place front v with
  | case1 place front v e he =>
    rw [Config.chainBehind, compileSpec_analysis, he]
  | case2 place front v spec hspec leaf hnone =>
    rw [Config.chainBehind, compileSpec_analysis, hspec]
    dsimp only
    split
    · rfl
    · rename_i child hchild
      rw [follow?_analysis, hnone] at hchild
      cases hchild
  | case3 place front v spec hspec leaf child hchild ih =>
    rw [Config.chainBehind, compileSpec_analysis, hspec]
    dsimp only
    split
    · rename_i hnone
      rw [follow?_analysis, hchild] at hnone
      cases hnone
    · rename_i child' hchild'
      rw [follow?_analysis, hchild] at hchild'
      cases hchild'
      exact ih

theorem compileMembers_analysis (kind : Kind) (index first slot : Nat) (vs : List Value) :
    Config.compileMembers kind index first slot (vs.map (analysis kind)) =
      Config.compileMembers kind index first slot vs := by
  induction vs generalizing first slot with
  | nil => rfl
  | cons v vs ih =>
    cases v with
    | array items => simp [analysis, Config.compileMembers]
    | object members =>
      have hchain := fun place => chainBehind_analysis kind first place [] (.object members)
      rw [List.map_cons]
      rw [analysis_object] at *
      simp only [Config.compileMembers, Config.compileChain, hchain, ih]
    | _ => simp [analysis, Config.compileMembers, ih]

theorem compileNode_entry (kind : Kind) (index first : Nat) (v : Value) :
    Config.compileNode kind index first (entry kind v) = Config.compileNode kind index first v := by
  cases v with
  | array items =>
    cases items with
    | nil => rfl
    | cons item items =>
      have hmembers := compileMembers_analysis kind index first 0 (item :: items)
      simp only [entry, Config.compileNode, List.map_cons] at *
      rw [hmembers]
  | object members =>
    have hchain := fun place => chainBehind_analysis kind first place [] (.object members)
    rw [entry]
    · rw [analysis_object] at *
      simp only [Config.compileNode, Config.compileChain, hchain]
    · simp
  | _ => simp [entry, analysis]

theorem compileEntries_entry (kind : Kind) (index first : Nat) (vs : List Value) :
    Config.compileEntries kind index first (vs.map (entry kind)) =
      Config.compileEntries kind index first vs := by
  induction vs generalizing index first with
  | nil => rfl
  | cons v vs ih => simp only [List.map_cons, Config.compileEntries, compileNode_entry, ih]

theorem entries_eq (kind : Kind) (v : Value) :
    entries kind v = .array ((Config.elements v).map (entry kind)) := by
  cases v <;> rfl

theorem entriesOf_entries (kind : Kind) (key : String) (v : Value) : Config.entriesOf key (entries kind v) =
    (Config.entriesOf key v).map (List.map (entry kind)) := by
  cases v with
  | array items => cases items <;> rfl
  | _ => rfl

theorem compileTasks_underKey (first : Nat) (members : Keyed Value) :
    Config.compileTasks first (members.map fun entry => (entry.1, underKey entry.1 entry.2)) =
      Config.compileTasks first members := by
  induction members generalizing first with
  | nil => rfl
  | cons member members ih =>
    obtain ⟨key, v⟩ := member
    simp only [List.map_cons, Config.compileTasks, ih]
    cases hkind : Kind.ofKey? key with
    | none => rfl
    | some kind =>
      have hentries : underKey key v = entries kind v := by rw [underKey, hkind]
      rw [hentries, entriesOf_entries]
      cases Config.entriesOf key v with
      | error e => rfl
      | ok items =>
        simp only [Except.map, bind, Except.bind, compileEntries_entry]

/-- A configuration and its normal form compile to the same graph, or are refused for the same fault. -/
theorem compile_configuration (config : Value) :
    Graph.compile (configuration config) = Graph.compile config := by
  cases config with
  | object members =>
    have hascending : Keyed.Ascending
        ((Keyed.ofEntries members).map fun entry => (entry.1, underKey entry.1 entry.2)) := by
      rw [Keyed.Ascending, List.map_map]
      exact Keyed.ascending_ofEntries members
    simp only [configuration, Graph.compile, Value.entries?, Keyed.ofEntries_of_ascending hascending]
    cases hentries : Keyed.ofEntries members with
    | nil => rfl
    | cons member rest =>
      have htasks := compileTasks_underKey 0 (member :: rest)
      simp only [List.map_cons] at htasks ⊢
      rw [htasks]
  | _ => rfl

/-! ## A graph determines the normal form -/

/-- The normal form of an object is determined by what is kept of its members. -/
theorem analysis_ext {v v' : Value} (hv : ∃ members, v = .object members)
    (hv' : ∃ members, v' = .object members)
    (hsame : ∀ name, (v.member? name).bind (keptDeep kind name) = (v'.member? name).bind (keptDeep kind name)) :
    analysis kind v = analysis kind v' := by
  obtain ⟨members, rfl⟩ := hv
  obtain ⟨members', rfl⟩ := hv'
  simp only [← member?_analysis] at hsame
  rw [analysis_object, analysis_object] at *
  have hascending := fun members : Keyed Value =>
    Keyed.ascending_filterMap (keptDeep kind) (Keyed.ascending_ofEntries members)
  exact congrArg Value.object (Keyed.eq_of_find? (hascending members) (hascending members') hsame)

section Describes

variable {v v' : Value} {spec : Spec}

theorem parameter_unique (h : Describes kind v spec) (h' : Describes kind v' spec)
    (hfield : kind.hasField name = true) :
    (v.member? name).bind (keptDeep kind name) = (v'.member? name).bind (keptDeep kind name) := by
  have hholds := h.parameters
  have hholds' := h'.parameters
  have hkind := h.parametersOfKind
  cases hparameters : spec.parameters with
  | timeSeries interval span =>
    rw [hparameters] at hholds hholds' hkind
    subst hkind
    have hname : "interval" = name ∨ "span" = name := by
      simpa [Kind.hasField, Kind.fields, Parameters.kind] using hfield
    rcases hname with rfl | rfl
    · rw [hholds.1, hholds'.1]
    · rw [hholds.2.1, hholds'.2.1]
  | freqDist target threshold =>
    rw [hparameters] at hholds hholds' hkind
    subst hkind
    have hname : "target" = name ∨ "threshold" = name := by
      simpa [Kind.hasField, Kind.fields, Parameters.kind] using hfield
    rcases hname with rfl | rfl
    · obtain ⟨⟨s, hs, htrim, -⟩, -⟩ := hholds
      obtain ⟨⟨s', hs', htrim', -⟩, -⟩ := hholds'
      simp [hs, hs', keptDeep_field hfield, trimmed, htrim, htrim']
    · rw [hholds.2.1, hholds'.2.1]

theorem text_unique {text : Option String} (h : HoldsText v name text) (h' : HoldsText v' name text)
    (hname : name = "name" ∨ name = "filter") :
    (v.member? name).bind (keptDeep kind name) = (v'.member? name).bind (keptDeep kind name) := by
  cases text with
  | some s => rw [h.1, h'.1]
  | none =>
    have hnone : ∀ {v}, HoldsText v name none → (v.member? name).bind (keptDeep kind name) = none := by
      rintro v (hmember | hmember)
      · rw [hmember]
        rfl
      · rw [hmember, Option.bind_some, keptDeep_text hname]
        rfl
    rw [hnone h, hnone h']

/-- An analysis determines what is kept of the members that describe it. -/
theorem keptDeep_unique (h : Describes kind v spec) (h' : Describes kind v' spec) (hthen : name ≠ "then") :
    (v.member? name).bind (keptDeep kind name) = (v'.member? name).bind (keptDeep kind name) := by
  by_cases hfield : kind.hasField name = true
  · exact parameter_unique h h' hfield
  · by_cases hname : name = "name" ∨ name = "filter"
    · rcases hname with rfl | rfl
      · exact text_unique h.name h'.name (.inl rfl)
      · exact text_unique h.filter h'.filter (.inr rfl)
    · -- Of all other members nothing is kept.
      have hnone : ∀ w, keptDeep kind name w = none := by
        intro w
        simp [keptDeep, kept, hthen, hfield, hname]
      rw [Option.bind_congr fun w _ => hnone w, Option.bind_congr fun w _ => hnone w, Option.bind_fun_none,
        Option.bind_fun_none]

end Describes

/-- The analyses of a chain determine the normal form of what they are read from. -/
theorem analysis_unique {v v' : Value} {specs : List Spec} (h : Config.Follows kind v specs)
    (h' : Config.Follows kind v' specs) : analysis kind v = analysis kind v' := by
  -- Link by link the members agree, and so do the follow-ups.
  have hlink : ∀ {v v' spec}, Describes kind v spec → Describes kind v' spec →
      (Config.follow? v).map (analysis kind) = (Config.follow? v').map (analysis kind) →
      analysis kind v = analysis kind v' := by
    intro v v' spec hspec hspec' hfollow
    refine analysis_ext hspec.object hspec'.object fun name => ?_
    by_cases hthen : name = "then"
    · subst hthen
      rw [keptDeep_then, keptDeep_then, hfollow]
    · exact keptDeep_unique hspec hspec' hthen
  induction h generalizing v' with
  | last hspec hends =>
    cases h' with
    | last hspec' hends' => exact hlink hspec hspec' (by rw [hends, hends'])
    | link _ _ hbehind' => cases hbehind'
  | link hspec hgoesOn hbehind ih =>
    cases h' with
    | last => cases hbehind
    | link hspec' hgoesOn' hbehind' =>
      refine hlink hspec hspec' ?_
      rw [hgoesOn, hgoesOn', Option.map_some, Option.map_some, ih hbehind']

/-! ## Graphs and normal forms -/

/-- A chain is what the analyses of an object are compiled to. -/
def Holds (kind : Kind) (v : Value) (chain : Chain) : Prop :=
  Config.Follows kind v (chain.toList.map Leaf.spec)

theorem Holds.unique {v v' : Value} {chain : Chain} (h : Holds kind v chain) (h' : Holds kind v' chain) :
    analysis kind v = analysis kind v' := analysis_unique h h'

/-- A node is what an entry is compiled to. -/
inductive HoldsNode (kind : Kind) : Value → Node → Prop where
  | single {v : Value} {chain : Chain} (alone : ∀ items, v ≠ .array items) (analyses : Holds kind v chain) :
      HoldsNode kind v (.single chain)
  | group {items : List Value} {chains : List Chain} (members : List.Forall₂ (Holds kind) items chains) :
      HoldsNode kind (.array items) (.group chains)

theorem leavesAlong_specs (first : Nat) (place : Place) (specs : List Spec) :
    (Config.leavesAlong first place specs).map Leaf.spec = specs := by
  induction specs generalizing place with
  | nil => rfl
  | cons spec specs ih =>
    rw [Config.leavesAlong, List.map_cons, ih]
    rfl

theorem compileChain_holds {first : Nat} {place : Place} {chain : Chain}
    (h : Config.compileChain kind first place v = .ok chain) : Holds kind v chain := by
  obtain ⟨specs, hspecs, hchain⟩ := Config.compileChain_eq_ok.1 h
  rw [Holds, hchain, leavesAlong_specs]
  exact hspecs

theorem compileMembers_holds {index first slot : Nat} {vs : List Value} {chains : List Chain}
    (h : Config.compileMembers kind index first slot vs = .ok chains) :
    List.Forall₂ (Holds kind) vs chains := by
  induction vs generalizing first slot chains with
  | nil =>
    cases h
    exact .nil
  | cons v vs ih =>
    obtain ⟨-, chain, behind, hchain, hbehind, rfl⟩ := Config.compileMembers_cons_eq_ok.1 h
    exact .cons (compileChain_holds hchain) (ih hbehind)

theorem compileNode_holds {index first : Nat} {node : Node}
    (h : Config.compileNode kind index first v = .ok node) : HoldsNode kind v node := by
  rcases Config.compileNode_eq_ok.1 h with ⟨items, chains, rfl, -, hchains, rfl⟩ | ⟨halone, chain, hchain, rfl⟩
  · exact .group (compileMembers_holds hchains)
  · exact .single halone (compileChain_holds hchain)

theorem compileEntries_holds {index first : Nat} {vs : List Value} {tasks : List Task}
    (h : Config.compileEntries kind index first vs = .ok tasks) :
    List.Forall₂ (fun v task => task.kind = kind ∧ HoldsNode kind v task.node) vs tasks := by
  induction vs generalizing index first tasks with
  | nil =>
    cases h
    exact .nil
  | cons v vs ih =>
    obtain ⟨node, others, hnode, hothers, rfl⟩ := Config.compileEntries_cons_eq_ok.1 h
    exact .cons ⟨rfl, compileNode_holds hnode⟩ (ih hothers)

/-- Two lists that are related to a third by what determines an image have the same images. -/
theorem map_eq_of_forall₂ {α β γ : Type} {R : α → β → Prop} {f : α → γ} {as as' : List α} {bs : List β}
    (hunique : ∀ a a' b, R a b → R a' b → f a = f a') (h : List.Forall₂ R as bs) (h' : List.Forall₂ R as' bs) :
    as.map f = as'.map f := by
  induction h generalizing as' with
  | nil =>
    cases h'
    rfl
  | cons hhead _ ih =>
    cases h' with
    | cons hhead' htail' => rw [List.map_cons, List.map_cons, hunique _ _ _ hhead hhead', ih htail']

theorem entry_unique {v v' : Value} {node : Node} (h : HoldsNode kind v node) (h' : HoldsNode kind v' node) :
    entry kind v = entry kind v' := by
  have halone : ∀ {v}, (∀ items, v ≠ .array items) → entry kind v = analysis kind v := by
    intro v hv
    cases v with
    | array items => exact absurd rfl (hv items)
    | _ => rfl
  cases h with
  | single hv hchain =>
    cases h' with
    | single hv' hchain' => rw [halone hv, halone hv', hchain.unique hchain']
  | group hmembers =>
    cases h' with
    | group hmembers' =>
      have hunique : ∀ v v' chain, Holds kind v chain → Holds kind v' chain →
          analysis kind v = analysis kind v' :=
        fun _ _ _ h h' => h.unique h'
      exact congrArg Value.array (map_eq_of_forall₂ hunique hmembers hmembers')

/-- The entries of a kind. -/
def listed (config : Value) (kind : Kind) : List Value :=
  ((config.member? kind.key).map Config.elements).getD []

theorem underKey_key (kind : Kind) (v : Value) : underKey kind.key v = entries kind v := by
  cases kind <;> rfl

theorem compileTasks_holds {config : Value} {kinds : List Kind} {first : Nat} {tasks : List Task}
    (h : Config.compileTasks first (Mirror.membersOf config kinds) = .ok tasks) :
    List.Forall₂ (fun source task => task.kind = source.1 ∧ HoldsNode source.1 source.2 task.node)
        (kinds.flatMap fun kind => (listed config kind).map (kind, ·)) tasks ∧
      ∀ kind ∈ kinds, ∀ v, config.member? kind.key = some v → listed config kind ≠ [] := by
  induction kinds generalizing first tasks with
  | nil =>
    cases h
    exact ⟨.nil, by simp⟩
  | cons kind kinds ih =>
    rw [List.flatMap_cons, List.forall_mem_cons]
    cases hmember : config.member? kind.key with
    | none =>
      -- A kind without a member has neither entries nor tasks.
      have hbehind : Config.compileTasks first (Mirror.membersOf config kinds) = .ok tasks := by
        simpa only [Mirror.membersOf, List.filterMap_cons, hmember, Option.map_none] using h
      obtain ⟨htasks, hne⟩ := ih hbehind
      refine ⟨?_, by simp, hne⟩
      simpa only [listed, hmember, Option.map_none, Option.getD_none, List.map_nil, List.nil_append]
        using htasks
    | some v =>
      simp only [Mirror.membersOf, List.filterMap_cons, hmember, Option.map_some] at h
      obtain ⟨kind', own, others, hkind, hne, hown, hothers, rfl⟩ := Config.compileTasks_cons_eq_ok.1 h
      obtain rfl : kind = kind' := by
        rw [Kind.ofKey?_eq_some.2 rfl] at hkind
        exact Option.some.inj hkind
      have hlisted : listed config kind = Config.elements v := by rw [listed, hmember]; rfl
      obtain ⟨htasks, hbehind⟩ := ih hothers
      refine ⟨List.rel_append ?_ htasks, fun _ _ => hlisted ▸ hne, hbehind⟩
      rw [hlisted, List.forall₂_map_left_iff]
      exact compileEntries_holds hown

/-- The normal form of a configuration that compiles has an array for each kind that has entries. -/
theorem configuration_eq {config : Value} {graph : Graph} (h : Graph.compile config = .ok graph) :
    configuration config = .object ([Kind.freqDist, .timeSeries].filterMap fun kind =>
      if listed config kind = [] then none
      else some (kind.key, .array ((listed config kind).map (entry kind)))) := by
  obtain ⟨members, hmembers, -, htasks, -⟩ := Graph.compile_eq_ok.1 h
  have hentries := Mirror.entries_eq_membersOf hmembers htasks
  rw [hentries] at htasks
  obtain ⟨-, hne⟩ := compileTasks_holds htasks
  cases config with
  | object own =>
    cases hmembers
    rw [configuration, hentries, Mirror.membersOf, List.map_filterMap]
    refine congrArg Value.object (List.filterMap_congr fun kind hkind => ?_)
    cases hmember : (Value.object own).member? kind.key with
    | none => simp [listed, hmember]
    | some v =>
      have hlisted : listed (.object own) kind = Config.elements v := by rw [listed, hmember]; rfl
      rw [if_neg (hne kind hkind v hmember), hlisted, ← entries_eq, ← underKey_key]
      rfl
  | _ => cases hmembers

/-- The tasks of a graph determine the normal forms of the entries that they are compiled from. -/
theorem listed_unique {config config' : Value} {graph graph' : Graph} (h : Graph.compile config = .ok graph)
    (h' : Graph.compile config' = .ok graph') (hsame : graph.tasks = graph'.tasks) (kind : Kind) :
    (listed config kind).map (entry kind) = (listed config' kind).map (entry kind) := by
  have hsources : ∀ {config graph}, Graph.compile config = .ok graph →
      List.Forall₂ (fun source task => task.kind = source.1 ∧ HoldsNode source.1 source.2 task.node)
        ([Kind.freqDist, .timeSeries].flatMap fun kind => (listed config kind).map (kind, ·)) graph.tasks := by
    intro config graph h
    obtain ⟨members, hmembers, -, htasks, -⟩ := Graph.compile_eq_ok.1 h
    rw [Mirror.entries_eq_membersOf hmembers htasks] at htasks
    exact (compileTasks_holds htasks).1
  have hunique : ∀ (a a' : Kind × Value) (task : Task), task.kind = a.1 ∧ HoldsNode a.1 a.2 task.node →
      task.kind = a'.1 ∧ HoldsNode a'.1 a'.2 task.node → (a.1, entry a.1 a.2) = (a'.1, entry a'.1 a'.2) := by
    rintro ⟨kind, v⟩ ⟨kind', v'⟩ task ⟨hkind, hnode⟩ ⟨hkind', hnode'⟩
    obtain rfl : kind = kind' := hkind.symm.trans hkind'
    rw [entry_unique hnode hnode']
  have heq := map_eq_of_forall₂ hunique (hsources h) (hsame ▸ hsources h')
  -- Of both lists, the entries of one kind are left.
  have hkind := congrArg
    (List.filterMap fun source : Kind × Value => if source.1 = kind then some source.2 else none) heq
  cases kind <;> simpa [List.filterMap_append, List.filterMap_map, Function.comp_def] using hkind

end Normal

open Inquiry.Normal

/-- A configuration and its normal form compile to the same, and configurations compile to equal graphs exactly
if their normal forms are equal. -/
theorem Graph.compile_normal (config : Value) : Graph.compile (configuration config) = Graph.compile config ∧
    ∀ {config' : Value} {graph graph' : Graph}, Graph.compile config = .ok graph →
      Graph.compile config' = .ok graph' →
        ((graph == graph') = true ↔ configuration config = configuration config') := by
  refine ⟨compile_configuration config, fun {config' graph graph'} h h' => ⟨fun hsame => ?_, fun hsame => ?_⟩⟩
  · have htasks : graph.tasks = graph'.tasks := eq_of_beq (α := List Task) hsame
    have hlisted := listed_unique h h' htasks
    have hempty : ∀ kind, listed config kind = [] ↔ listed config' kind = [] := by
      intro kind
      rw [← List.map_eq_nil_iff (f := entry kind), hlisted, List.map_eq_nil_iff]
    simp only [configuration_eq h, configuration_eq h', hlisted, hempty]
  · have hgraph : graph = graph' := by
      rw [← compile_configuration, hsame, compile_configuration, h'] at h
      exact (Except.ok.inj h).symm
    rw [hgraph]
    exact beq_self_eq_true graph'.tasks

namespace Mirror

/-- The array around the lone analysis has no effect, so both configurations have one normal form, which
compiles to their graph. -/
theorem compile_normal_mixed : ∃ graph graph', Graph.compile mixed = .ok graph ∧
    Graph.compile mixedInArrays = .ok graph' ∧ Graph.compile (configuration mixed) = .ok graph ∧
    configuration mixed = configuration mixedInArrays := by
  obtain ⟨lineage, hgraph⟩ := compile_mixed
  obtain ⟨lineage', hgraph'⟩ := compile_counts (v := .array [counts]) rfl
  obtain ⟨hnormal, hsame⟩ := Graph.compile_normal mixed
  exact ⟨_, _, hgraph, hgraph', hnormal.trans hgraph,
    (hsame hgraph hgraph').1 (beq_self_eq_true (countTasks ++ seriesTasks))⟩

end Mirror
end Inquiry
