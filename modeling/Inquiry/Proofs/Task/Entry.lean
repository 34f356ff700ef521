import Inquiry.Proofs.Task.Links
import Inquiry.Task.Compile

/-!
# Proofs.Task.Entry — configurations of one entry

A configuration of one entry compiles to one task. If the entry is a group of analyses without follow-ups,
the task has a chain of one leaf for each of them.

* `Graph.compile_entry`: how one entry is compiled.
* `Config.flat` is the configuration of a group of time series, some of which have names, and
  `Config.flatChains` are its chains; `Graph.compile_flat`: what it compiles to.
-/

namespace Inquiry

open Json (Value)

/-! ## One entry -/

theorem Config.compileTasks_entry {key : String} {kind : Kind} {v item : Value} {node : Node}
    (hkind : Kind.ofKey? key = some kind) (hitems : entriesOf key v = .ok [item])
    (hnode : compileNode kind 0 0 item = .ok node) :
    compileTasks 0 [(key, v)] = .ok [⟨kind, 0, Place.entryLabel kind.key 0, node⟩] := by
  have hentries : compileEntries kind 0 0 [item] =
      .ok [⟨kind, 0, Place.entryLabel kind.key 0, node⟩] := by
    unfold compileEntries
    rw [hnode]
    rfl
  unfold compileTasks
  simp only [hkind, hitems, hentries, bind, Except.bind]
  rfl

/-- A configuration of one entry compiles to one task. -/
theorem Graph.compile_entry {config : Value} {key : String} {kind : Kind} {v item : Value} {node : Node}
    {lineage : Lineage} (hmembers : config.entries? = some [(key, v)])
    (hkind : Kind.ofKey? key = some kind) (hitems : Config.entriesOf key v = .ok [item])
    (hnode : Config.compileNode kind 0 0 item = .ok node)
    (hlineage : Config.register .empty node.chains = .ok lineage) :
    Graph.compile config = .ok ⟨[⟨kind, 0, Place.entryLabel kind.key 0, node⟩], lineage⟩ := by
  have htasks := Config.compileTasks_entry hkind hitems hnode
  have hlineage' : Config.register .empty
      ([(⟨kind, 0, Place.entryLabel kind.key 0, node⟩ : Task)].flatMap fun t => t.node.chains) =
      .ok lineage := by
    rwa [List.flatMap_singleton]
  unfold Graph.compile
  rw [hmembers]
  simp only [htasks, hlineage', bind, Except.bind]
  rfl

/-! ## Groups of analyses without follow-ups -/

namespace Config

/-- An analysis, by its name if it has one. -/
def analysis : Option String → Value
  | some name => .object [("interval", .string "day"), ("name", .string name), ("span", .ofInt 1)]
  | none => .object [("interval", .string "day"), ("span", .ofInt 1)]

/-- What an analysis is checked to be. -/
def analysisSpec (name : Option String) : Spec := ⟨.timeSeries, name, none, .timeSeries .day 1⟩

/-- A configuration of one group of analyses. -/
def flat (names : List (Option String)) : Value :=
  .object [("timeSeries", .array [.array (names.map analysis)])]

/-- The leaf of an analysis in a slot of the group. -/
def flatLeaf (slot : Nat) (name : Option String) : Leaf :=
  .of slot (Place.label ⟨"timeSeries", 0, some slot, 0⟩) (analysisSpec name)

/-- The chains of the group from a slot on. -/
def flatChains (slot : Nat) : List (Option String) → List Chain
  | [] => []
  | name :: names => .last (flatLeaf slot name) :: flatChains (slot + 1) names

/-- The task of the group. -/
def flatTask (names : List (Option String)) : Task :=
  ⟨.timeSeries, 0, "timeSeries[0]", .group (flatChains 0 names)⟩

theorem flatChains_length (slot : Nat) (names : List (Option String)) :
    (flatChains slot names).length = names.length := by
  induction names generalizing slot with
  | nil => rfl
  | cons name names ih => rw [flatChains, List.length_cons, List.length_cons, ih]

theorem mem_flatChains {slot : Nat} {names : List (Option String)} {chain : Chain}
    (h : chain ∈ flatChains slot names) : ∃ n, ∃ name ∈ names, chain = .last (flatLeaf n name) := by
  induction names generalizing slot with
  | nil => cases h
  | cons name names ih =>
    rcases List.mem_cons.1 h with rfl | h
    · exact ⟨slot, name, List.mem_cons_self, rfl⟩
    · obtain ⟨n, other, hother, rfl⟩ := ih h
      exact ⟨n, other, List.mem_cons_of_mem _ hother, rfl⟩

/-- Names are not blank. -/
def Named (names : List (Option String)) : Prop :=
  ∀ name ∈ names, name.all (!Text.isBlankText ·) = true

theorem compileSpec_analysis {name : Option String} (h : name.all (!Text.isBlankText ·) = true)
    (position : String) : compileSpec .timeSeries (analysis name) position = .ok (analysisSpec name) := by
  cases name with
  | none => rfl
  | some name =>
    have hname : optionalText (analysis (some name)) "name" position = .ok (some name) := by
      have hmember : (analysis (some name)).member? "name" = some (.string name) := rfl
      have hblank : Text.isBlankText name = false := by simpa using h
      simp [optionalText, hmember, hblank]
    have hparameters : Parameters.parse .timeSeries (analysis (some name)) position =
        .ok (.timeSeries .day 1) := rfl
    have hfilter : optionalText (analysis (some name)) "filter" position = .ok none := rfl
    change (do
      let parameters ← Parameters.parse .timeSeries (analysis (some name)) position
      let found ← optionalText (analysis (some name)) "name" position
      let filter ← optionalText (analysis (some name)) "filter" position
      pure (⟨parameters.kind, found, filter, parameters⟩ : Spec)) = _
    rw [hparameters, hname, hfilter]
    rfl

theorem follow?_analysis (name : Option String) : follow? (analysis name) = none := by
  cases name <;> rfl

theorem compileChain_analysis {name : Option String} (h : name.all (!Text.isBlankText ·) = true)
    (slot : Nat) : compileChain .timeSeries slot ⟨"timeSeries", 0, some slot, 0⟩ (analysis name) =
      .ok (.last (flatLeaf slot name)) := by
  unfold compileChain chainBehind
  rw [compileSpec_analysis h]
  dsimp only
  split
  · rfl
  · rename_i child hchild
    rw [follow?_analysis] at hchild
    cases hchild

theorem compileMembers_flat {names : List (Option String)} (h : Named names) (slot : Nat) :
    compileMembers .timeSeries 0 slot slot (names.map analysis) = .ok (flatChains slot names) := by
  induction names generalizing slot with
  | nil => rfl
  | cons name names ih =>
    have hchain := compileChain_analysis (h name List.mem_cons_self) slot
    have hrest := ih (fun other hother => h other (List.mem_cons_of_mem _ hother)) (slot + 1)
    have hlength : (Chain.last (flatLeaf slot name)).length = 1 := rfl
    rw [List.map_cons, flatChains, compileMembers]
    · dsimp only [Kind.key]
      rw [hchain]
      simp only [hlength, hrest]
    · intro items harray
      cases name <;> cases harray

theorem register_flat (lineage : Lineage) (slot : Nat) (names : List (Option String)) :
    ∃ lineage', register lineage (flatChains slot names) = .ok lineage' := by
  induction names generalizing lineage slot with
  | nil => exact ⟨lineage, rfl⟩
  | cons name names ih => exact ih _ (slot + 1)

end Config

open Config

/-- A group of analyses without follow-ups compiles to one task. -/
theorem Graph.compile_flat {name : Option String} {names : List (Option String)}
    (h : Named (name :: names)) : ∃ lineage, Graph.compile (flat (name :: names)) =
      .ok ⟨[flatTask (name :: names)], lineage⟩ := by
  obtain ⟨lineage, hregister⟩ := register_flat .empty 0 (name :: names)
  have hnode : compileNode .timeSeries 0 0 (.array ((name :: names).map analysis)) =
      .ok (.group (flatChains 0 (name :: names))) := by
    change (compileMembers .timeSeries 0 0 0 ((name :: names).map analysis)).map Node.group = _
    rw [compileMembers_flat h]
    rfl
  exact ⟨lineage, Graph.compile_entry rfl rfl rfl hnode hregister⟩

end Inquiry
