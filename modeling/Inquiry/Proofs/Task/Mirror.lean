import Mathlib.Data.List.Forall2
import Inquiry.Proofs.Task.Numbering
import Inquiry.Proofs.Text.Keyed

/-!
# Proofs.Task.Mirror — compiled configurations mirror what they were compiled from

A compiled configuration has what the document has, in the order of the document: one task for each
entry, one chain for each analysis of an entry, one leaf for each analysis that a chain of follow-ups
leads to.

* `Mirror.nested`: the analysis that `then` leads to, followed a number of times.
* `Mirror.LeafFor`, `Mirror.ChainFor`, `Mirror.NodeFor`, `Mirror.TaskFor`: what mirrors what, level by level.
* `Mirror.sources`: the entries of a configuration in order.
* `Graph.compile_mirrors`: a compiled configuration mirrors the document.
-/

namespace Inquiry

open Json (Value)

namespace Mirror

/-! ## What mirrors what -/

/-- The analysis that is reached by following `then` a number of times, if it goes on so far. -/
def nested (v : Value) : Nat → Option Value
  | 0 => some v
  | k + 1 =>
    match v.member? "then" with
    | none => none
    | some .null => none
    | some child => nested child k

/-- The position of a leaf of a chain, from that of the head. -/
def leafPosition (head : String) : Nat → String
  | 0 => head
  | 1 => head ++ ".then"
  | k => head ++ ".then[" ++ toString k ++ "]"

/-- The key of an analysis: its name, or else its filter, or else its position. -/
def keyFor (name filter : Option String) (position : String) : MergeKey :=
  match name with
  | some name => .name name
  | none =>
    match filter with
    | some filter => .filter filter
    | none => .position position

/-- The leaf of an analysis, a number of links behind the head of its chain. -/
structure LeafFor (kind : Kind) (head : String) (k : Nat) (v : Value) (leaf : Leaf) : Prop where
  describes : Describes kind v leaf.spec
  position : leaf.position = leafPosition head k
  mergeKey : leaf.mergeKey = keyFor leaf.spec.name leaf.spec.filter leaf.position

/-- The chain of an analysis: a leaf for each analysis that `then` leads to, and no other. -/
def ChainFor (kind : Kind) (head : String) (v : Value) (chain : Chain) : Prop :=
  ∀ k, Option.Rel (LeafFor kind head k) (nested v k) chain.toList[k]?

/-- The chains of an entry: an array is a group with a chain for each of its items, and everything else
is a single chain. -/
def NodeFor (kind : Kind) (position : String) (v : Value) (node : Node) : Prop :=
  match v, node with
  | .array items, .group chains =>
    ∀ j : Nat, Option.Rel (ChainFor kind (position ++ "[" ++ toString j ++ "]")) items[j]? chains[j]?
  | .array _, .single _ => False
  | _, .group _ => False
  | v, .single chain => ChainFor kind position v chain

/-- An entry of a configuration: its kind, its index among the entries of that kind, and what it is. -/
structure Source where
  kind : Kind
  index : Nat
  value : Value

/-- The task of an entry. -/
structure TaskFor (source : Source) (task : Task) : Prop where
  kind : task.kind = source.kind
  index : task.index = source.index
  position : task.position = source.kind.key ++ "[" ++ toString source.index ++ "]"
  node : NodeFor source.kind task.position source.value task.node

/-- The entries of a kind: a value that is no array is the only entry. -/
def sourcesOf (config : Value) (kind : Kind) : List Source :=
  match config.member? kind.key with
  | none => []
  | some (.array items) => items.zipIdx.map fun (v, index) => ⟨kind, index, v⟩
  | some v => [⟨kind, 0, v⟩]

/-- The entries of a configuration; `freqDist` comes before `timeSeries` in the order of texts. -/
def sources (config : Value) : List Source :=
  sourcesOf config .freqDist ++ sourcesOf config .timeSeries

end Mirror

/-- A graph has what a configuration has, in its order. -/
structure Mirrors (config : Value) (graph : Graph) : Prop where
  /-- There is one task for each entry. -/
  tasks : List.Forall₂ Mirror.TaskFor (Mirror.sources config) graph.tasks
  /-- The leaves are numbered from zero on. -/
  ids : (graph.chains.flatMap Chain.toList).map Leaf.id =
    List.range (graph.chains.flatMap Chain.toList).length
  /-- The tasks of one kind after the other are all tasks in their order. -/
  kinds : graph.kinds.flatMap graph.tasksFor = graph.tasks

namespace Mirror

/-! ## Chains -/

theorem nested_succ (v : Value) (k : Nat) : nested v (k + 1) = (Config.follow? v).bind (nested · k) := by
  rw [nested, Config.follow?]
  cases v.member? "then" with
  | none => rfl
  | some child => cases child <;> rfl

theorem leafPosition_label (key : String) (index : Nat) (slot : Option Nat) (depth : Nat) :
    Place.label ⟨key, index, slot, depth⟩ = leafPosition (Place.headLabel key index slot) depth := by
  rw [Place.label]
  match depth with
  | 0 => exact String.append_empty
  | 1 => rfl
  | n + 2 => simp [leafPosition, Place.chainSuffix, String.append_assoc]

theorem leafFor_of {kind : Kind} {head position : String} {id k : Nat} {v : Value} {spec : Spec}
    (hspec : Describes kind v spec) (hposition : position = leafPosition head k) :
    LeafFor kind head k v (.of id position spec) := by
  refine ⟨hspec, hposition, ?_⟩
  change MergeKey.resolve spec position = keyFor spec.name spec.filter position
  unfold MergeKey.resolve keyFor
  cases spec.name with
  | some name => rfl
  | none => cases spec.filter <;> rfl

/-- Link by link, the leaves of analyses are those that `then` leads to. -/
theorem leavesAlong_for {kind : Kind} {first : Nat} {key : String} {index : Nat} {slot : Option Nat}
    {v : Value} {specs : List Spec} (h : Config.Follows kind v specs) (depth k : Nat) :
    Option.Rel (LeafFor kind (Place.headLabel key index slot) (depth + k)) (nested v k)
      (Config.leavesAlong first ⟨key, index, slot, depth⟩ specs)[k]? := by
  have hhead : ∀ {v spec specs}, Describes kind v spec → Option.Rel
      (LeafFor kind (Place.headLabel key index slot) (depth + 0)) (nested v 0)
      (Config.leavesAlong first ⟨key, index, slot, depth⟩ (spec :: specs))[0]? := by
    intro v spec specs hspec
    exact .some (leafFor_of hspec (leafPosition_label key index slot depth))
  induction h generalizing depth k with
  | last hspec hends =>
    cases k with
    | zero => exact hhead hspec
    | succ k =>
      rw [nested_succ, hends]
      exact .none
  | link hspec hgoesOn _ ih =>
    cases k with
    | zero => exact hhead hspec
    | succ k =>
      -- Counted from the follow-up, the leaf is one link nearer, and its place one link deeper.
      rw [nested_succ, hgoesOn, show depth + (k + 1) = depth + 1 + k by omega]
      exact ih (depth + 1) k fun hspec =>
        .some (leafFor_of hspec (leafPosition_label key index slot (depth + 1)))

theorem compileChain_for {kind : Kind} {first : Nat} {key : String} {index : Nat} {slot : Option Nat}
    {v : Value} {chain : Chain} (h : Config.compileChain kind first ⟨key, index, slot, 0⟩ v = .ok chain) :
    ChainFor kind (Place.headLabel key index slot) v chain := by
  obtain ⟨specs, hspecs, hchain⟩ := Config.compileChain_eq_ok.1 h
  intro k
  rw [hchain]
  simpa using leavesAlong_for hspecs 0 k

/-! ## Entries and tasks -/

theorem compileMembers_for {kind : Kind} {index first slot : Nat} {vs : List Value} {chains : List Chain}
    (h : Config.compileMembers kind index first slot vs = .ok chains) (j : Nat) :
    Option.Rel (ChainFor kind (Place.headLabel kind.key index (some (slot + j)))) vs[j]? chains[j]? := by
  induction vs generalizing first slot chains j with
  | nil =>
    cases h
    exact .none
  | cons v vs ih =>
    obtain ⟨-, chain, behind, hchain, hbehind, rfl⟩ := Config.compileMembers_cons_eq_ok.1 h
    cases j with
    | zero => exact .some (compileChain_for hchain)
    | succ j =>
      rw [show slot + (j + 1) = slot + 1 + j by omega]
      exact ih hbehind j

theorem compileNode_for {kind : Kind} {index first : Nat} {v : Value} {node : Node}
    (h : Config.compileNode kind index first v = .ok node) :
    NodeFor kind (Place.entryLabel kind.key index) v node := by
  rcases Config.compileNode_eq_ok.1 h with ⟨items, chains, rfl, -, hchains, rfl⟩ | ⟨harray, chain, hchain, rfl⟩
  · intro j
    have hmember := compileMembers_for hchains j
    rwa [Nat.zero_add] at hmember
  · have hsingle : NodeFor kind (Place.entryLabel kind.key index) v (.single chain) =
        ChainFor kind (Place.entryLabel kind.key index) v chain := by
      cases v with
      | array items => exact absurd rfl (harray items)
      | _ => rfl
    rw [hsingle]
    exact compileChain_for hchain

theorem compileEntries_for {kind : Kind} {index first : Nat} {vs : List Value} {tasks : List Task}
    (h : Config.compileEntries kind index first vs = .ok tasks) :
    List.Forall₂ TaskFor ((vs.zipIdx index).map fun (v, index) => ⟨kind, index, v⟩) tasks := by
  induction vs generalizing index first tasks with
  | nil =>
    cases h
    exact .nil
  | cons v vs ih =>
    obtain ⟨node, others, hnode, hothers, rfl⟩ := Config.compileEntries_cons_eq_ok.1 h
    rw [List.zipIdx_cons, List.map_cons]
    exact .cons ⟨rfl, rfl, rfl, compileNode_for hnode⟩ (ih hothers)

theorem sourcesOf_eq (config : Value) (kind : Kind) : sourcesOf config kind =
    match config.member? kind.key with
    | none => []
    | some v => (Config.elements v).zipIdx.map fun (v, index) => ⟨kind, index, v⟩ := by
  unfold sourcesOf
  cases config.member? kind.key with
  | none => rfl
  | some v => cases v <;> rfl

/-- The members of a configuration under the words for kinds. -/
def membersOf (config : Value) (kinds : List Kind) : Keyed Value :=
  kinds.filterMap fun kind => (config.member? kind.key).map (kind.key, ·)

theorem compileTasks_for {config : Value} {kinds : List Kind} {first : Nat} {tasks : List Task}
    (h : Config.compileTasks first (membersOf config kinds) = .ok tasks) :
    List.Forall₂ TaskFor (kinds.flatMap (sourcesOf config)) tasks := by
  induction kinds generalizing first tasks with
  | nil =>
    cases h
    exact .nil
  | cons kind kinds ih =>
    rw [List.flatMap_cons, sourcesOf_eq]
    cases hmember : config.member? kind.key with
    | none =>
      -- A kind without a member has neither entries nor tasks.
      apply ih
      simpa only [membersOf, List.filterMap_cons, hmember, Option.map_none] using h
    | some v =>
      simp only [membersOf, List.filterMap_cons, hmember, Option.map_some] at h
      obtain ⟨kind', own, others, hkind, -, hown, hothers, rfl⟩ := Config.compileTasks_cons_eq_ok.1 h
      obtain rfl : kind = kind' := by
        have hofKey : Kind.ofKey? kind.key = some kind := by
          cases kind <;> rfl
        rw [hofKey] at hkind
        cases hkind
        rfl
      exact List.rel_append (compileEntries_for hown) (ih hothers)

/-! ## The members of a configuration in order -/

theorem ascending_membersOf (config : Value) :
    (membersOf config [.freqDist, .timeSeries]).Ascending := by
  have hlt : Kind.freqDist.key < Kind.timeSeries.key := by decide
  simp only [Keyed.Ascending, membersOf, List.filterMap_cons, List.filterMap_nil]
  cases config.member? Kind.freqDist.key with
  | none =>
    cases config.member? Kind.timeSeries.key with
    | none => exact .nil
    | some v => exact List.pairwise_singleton _ _
  | some v =>
    cases config.member? Kind.timeSeries.key with
    | none => exact List.pairwise_singleton _ _
    | some w => exact List.pairwise_pair.2 hlt

theorem find?_membersOf (config : Value) (kind : Kind) :
    (membersOf config [.freqDist, .timeSeries]).find? kind.key = config.member? kind.key := by
  have hne : Kind.freqDist.key ≠ Kind.timeSeries.key := by decide
  simp only [membersOf, List.filterMap_cons, List.filterMap_nil]
  cases hfreqDist : config.member? Kind.freqDist.key <;>
    cases htimeSeries : config.member? Kind.timeSeries.key <;>
      cases kind <;> simp [Keyed.find?, hfreqDist, htimeSeries, hne, hne.symm]

/-- What compiles has no members but those under the words for kinds. -/
theorem keys_of_compileTasks {first : Nat} {entries : Keyed Value} {tasks : List Task}
    (h : Config.compileTasks first entries = .ok tasks) :
    ∀ key ∈ entries.map Prod.fst, ∃ kind : Kind, key = kind.key := by
  induction entries generalizing first tasks with
  | nil =>
    intro key hkey
    cases hkey
  | cons entry entries ih =>
    obtain ⟨kind, own, others, hkind, -, -, hothers, -⟩ := Config.compileTasks_cons_eq_ok.1 h
    intro key hkey
    rcases List.mem_cons.1 hkey with rfl | hkey
    · have hword := List.find?_some hkind
      exact ⟨kind, (beq_iff_eq.1 hword).symm⟩
    · exact ih hothers key hkey

theorem entries_eq_membersOf {config : Value} {entries : Keyed Value} {tasks : List Task}
    (hentries : config.entries? = some entries) (h : Config.compileTasks 0 entries = .ok tasks) :
    entries = membersOf config [.freqDist, .timeSeries] := by
  cases config with
  | object members =>
    cases hentries
    refine Keyed.eq_of_find? (Keyed.ascending_ofEntries members) (ascending_membersOf _) fun name => ?_
    -- Under the words for kinds both have what the document has, and elsewhere nothing.
    by_cases hkind : ∃ kind : Kind, name = kind.key
    · obtain ⟨kind, rfl⟩ := hkind
      rw [find?_membersOf, Keyed.find?_ofEntries]
      rfl
    · have hleft : (Keyed.ofEntries members).find? name = none :=
        Keyed.find?_eq_none_iff.2 fun hin => hkind (keys_of_compileTasks h name hin)
      have hright : (membersOf (.object members) [.freqDist, .timeSeries]).find? name = none := by
        refine Keyed.find?_eq_none_iff.2 fun hin => hkind ?_
        obtain ⟨⟨key, v⟩, hentry, rfl⟩ := List.mem_map.1 hin
        obtain ⟨kind, -, hmember⟩ := List.mem_filterMap.1 hentry
        obtain ⟨w, -, hw⟩ := Option.map_eq_some_iff.1 hmember
        cases hw
        exact ⟨kind, rfl⟩
      rw [hleft, hright]
  | _ => cases hentries

/-! ## Tasks by their kinds -/

theorem kinds_sourcesOf (config : Value) (kind : Kind) :
    (sourcesOf config kind).map Source.kind = List.replicate (sourcesOf config kind).length kind := by
  refine List.eq_replicate_iff.2 ⟨List.length_map _, ?_⟩
  intro kind' hkind'
  rw [sourcesOf_eq] at hkind'
  split at hkind'
  · cases hkind'
  · obtain ⟨source, hsource, rfl⟩ := List.mem_map.1 hkind'
    obtain ⟨⟨v, index⟩, -, rfl⟩ := List.mem_map.1 hsource
    rfl

theorem kinds_tasks {sources : List Source} {tasks : List Task} (h : List.Forall₂ TaskFor sources tasks) :
    tasks.map Task.kind = sources.map Source.kind := by
  induction h with
  | nil => rfl
  | cons hfor _ ih => rw [List.map_cons, List.map_cons, hfor.kind, ih]

/-- Where all tasks of a kind come before all of another, they can be taken kind by kind. -/
theorem flatMap_tasksFor {graph : Graph} {a b : Kind} {m n : Nat} (hab : a ≠ b)
    (h : graph.tasks.map Task.kind = List.replicate m a ++ List.replicate n b) :
    graph.kinds.flatMap graph.tasksFor = graph.tasks := by
  obtain ⟨as, bs, htasks, has, hbs⟩ := List.map_eq_append_iff.1 h
  have hkind : ∀ {tasks : List Task} {k : Kind} {n : Nat}, tasks.map Task.kind = List.replicate n k →
      ∀ k', tasks.filter (·.kind == k') = if k = k' then tasks else [] := by
    intro tasks k n htasks k'
    have hall : ∀ task ∈ tasks, task.kind = k := by
      intro task htask
      exact (List.eq_replicate_iff.1 htasks).2 _ (List.mem_map_of_mem htask)
    by_cases hk : k = k'
    · rw [if_pos hk]
      exact List.filter_eq_self.2 fun task htask => by simp [hall task htask, hk]
    · rw [if_neg hk]
      exact List.filter_eq_nil_iff.2 fun task htask => by simp [hall task htask, hk]
  have hfor : ∀ k, graph.tasksFor k = (if a = k then as else []) ++ (if b = k then bs else []) := by
    intro k
    rw [Graph.tasksFor, htasks, List.filter_append, hkind has, hkind hbs]
  have hnil : ∀ {tasks : List Task} {k : Kind}, tasks.map Task.kind = List.replicate 0 k → tasks = [] := by
    intro tasks k htasks
    exact List.map_eq_nil_iff.1 htasks
  -- A kind is listed if it has tasks, and the order is that of the first task of each.
  have hkinds : graph.kinds = (if m = 0 then [] else [a]) ++ (if n = 0 then [] else [b]) := by
    rw [Graph.kinds, h]
    cases m <;> cases n <;>
      simp [List.replicate_succ, List.eraseDups_cons, hab.symm]
  rw [hkinds, htasks]
  cases m with
  | zero =>
    obtain rfl := hnil has
    cases n with
    | zero =>
      obtain rfl := hnil hbs
      rfl
    | succ n => simp [hfor]
  | succ m =>
    cases n with
    | zero =>
      obtain rfl := hnil hbs
      simp [hfor]
    | succ n => simp [hfor, hab, hab.symm]

end Mirror

/-- A compiled configuration mirrors the document. -/
theorem Graph.compile_mirrors {config : Value} {graph : Graph} (h : Graph.compile config = .ok graph) :
    Mirrors config graph := by
  obtain ⟨entries, hentries, -, htasks, -⟩ := Graph.compile_eq_ok.1 h
  obtain rfl := Mirror.entries_eq_membersOf hentries htasks
  have hfor : List.Forall₂ Mirror.TaskFor (Mirror.sources config) graph.tasks := by
    have hall := Mirror.compileTasks_for htasks
    rwa [List.flatMap_cons, List.flatMap_singleton] at hall
  refine ⟨hfor, ?_, ?_⟩
  · have hids : (graph.chains.flatMap Chain.toList).map Leaf.id =
        List.range' 0 (Config.leafTotal graph.tasks) := by
      rw [List.map_flatMap]
      exact Graph.compile_ids h
    rw [range'_of_length hids, List.length_map, List.range_eq_range']
  · have hkinds := Mirror.kinds_tasks hfor
    rw [Mirror.sources, List.map_append, Mirror.kinds_sourcesOf, Mirror.kinds_sourcesOf] at hkinds
    exact Mirror.flatMap_tasksFor (by decide) hkinds

namespace Mirror

/-- An analysis, and a group of one with a name and a filter and one with a filter. -/
def series : List Value :=
  let bucket (unit : String) (span : Nat) := [("interval", .string unit), ("span", .ofNat span)]
  [.object (bucket "week" 1), .array [
    .object ([("name", .string "cars"), ("filter", .string "fb.content exists")] ++ bucket "day" 1),
    .object ([("filter", .string "fb.content exists")] ++ bucket "hour" 12)]]

/-- An analysis with a follow-up. -/
def counts : Value :=
  .object [("target", .string " fb.gender "), ("threshold", .ofNat 2), ("then",
    .object [("target", .string "fb.age"), ("threshold", .ofNat 4), ("then", .null)])]

/-- A configuration of both kinds. -/
def mixed : Value := .object [("timeSeries", .array series), ("freqDist", counts)]

/-- The tasks of the analysis with a follow-up. -/
def countTasks : List Task :=
  [⟨.freqDist, 0, "freqDist[0]", .single
    (.link (.of 0 "freqDist[0]" ⟨.freqDist, none, none, .freqDist "fb.gender" 2⟩)
      (.last (.of 1 "freqDist[0].then" ⟨.freqDist, none, none, .freqDist "fb.age" 4⟩)))⟩]

/-- The tasks of the analysis and the group. -/
def seriesTasks : List Task :=
  [⟨.timeSeries, 0, "timeSeries[0]", .single
      (.last (.of 2 "timeSeries[0]" ⟨.timeSeries, none, none, .timeSeries .week 1⟩))⟩,
    ⟨.timeSeries, 1, "timeSeries[1]", .group [
      .last (.of 3 "timeSeries[1][0]"
        ⟨.timeSeries, some "cars", some "fb.content exists", .timeSeries .day 1⟩),
      .last (.of 4 "timeSeries[1][1]"
        ⟨.timeSeries, none, some "fb.content exists", .timeSeries .hour 12⟩)]⟩]

open Config in
theorem compile_counts {v : Value} (hv : elements v = [counts]) :
    ∃ lineage, Graph.compile (.object [("timeSeries", .array series), ("freqDist", v)]) =
      .ok ⟨countTasks ++ seriesTasks, lineage⟩ := by
  have hcounts : compileEntries .freqDist 0 0 (elements v) = .ok countTasks := by
    rw [hv]
    refine compileEntries_cons_eq_ok.2 ⟨_, [], compileNode_eq_ok.2 (.inr ⟨nofun, _, ?_, rfl⟩), rfl, rfl⟩
    unfold compileChain chainBehind chainBehind
    rfl
  have hseries : compileEntries .timeSeries 0 2 series = .ok seriesTasks := by
    refine compileEntries_cons_eq_ok.2 ⟨_, _, compileNode_eq_ok.2 (.inr ⟨nofun, _, ?lone, rfl⟩),
      compileEntries_cons_eq_ok.2 ⟨_, [], compileNode_eq_ok.2 (.inl ⟨_, _, rfl, nofun,
        compileMembers_cons_eq_ok.2 ⟨nofun, _, _, ?named, compileMembers_cons_eq_ok.2
          ⟨nofun, _, [], ?filtered, rfl, rfl⟩, rfl⟩, rfl⟩), rfl, rfl⟩, rfl⟩
    all_goals
      unfold compileChain chainBehind
      rfl
  have htasks : compileTasks 0 [("freqDist", v), ("timeSeries", .array series)] =
      .ok (countTasks ++ seriesTasks) := by
    have hbehind : compileTasks 2 [("timeSeries", .array series)] = .ok seriesTasks :=
      compileTasks_cons_eq_ok.2 ⟨.timeSeries, _, [], rfl, nofun, hseries, rfl, rfl⟩
    exact compileTasks_cons_eq_ok.2 ⟨.freqDist, _, _, rfl, by simp [hv], hcounts, hbehind, rfl⟩
  exact ⟨_, Graph.compile_eq_ok.2 ⟨_, rfl, List.cons_ne_nil _ _, htasks, rfl⟩⟩

theorem compile_mixed : ∃ lineage, Graph.compile mixed = .ok ⟨countTasks ++ seriesTasks, lineage⟩ :=
  compile_counts rfl

/-- The lone analysis, the group and the follow-up are where the document has them. -/
theorem compile_mirrors_mixed : ∃ lineage,
    Graph.compile mixed = .ok ⟨countTasks ++ seriesTasks, lineage⟩ ∧
      Mirrors mixed ⟨countTasks ++ seriesTasks, lineage⟩ := by
  obtain ⟨lineage, hgraph⟩ := compile_mixed
  exact ⟨lineage, hgraph, Graph.compile_mirrors hgraph⟩

end Mirror
end Inquiry
