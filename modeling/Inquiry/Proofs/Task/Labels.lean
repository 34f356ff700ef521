import Inquiry.Proofs.Task.Grammar
import Inquiry.Proofs.Task.Path

/-!
# Proofs.Task.Labels — the leaves of a configuration are told apart by their labels

Every leaf of a compiled configuration stands for the analysis at some place of the document, and no two stand
for the same one. A label can be read back as the path to its place, and so no two leaves have the same label.

* `Leaf.StandsFor`: what a leaf takes from its place; `Stand`: leaves stand for places, each for another.
* `Config.compileChain_stand`, `Config.compileNode_stand`, `Config.compileTasks_stand`: part by part, the leaves
  that are compiled stand for places.
* `Graph.compile_stand`, `Stand.positions_nodup`: so do the leaves of a whole graph, and their labels differ.
* `Stand.explicit_of_same_key`: two leaves with the same key do not both go by their labels.
* `Config.Unnamed`: a configuration without names and filters, in which every leaf goes by its label.
-/

namespace Inquiry

open Json (Value)

namespace Config
namespace Path

/-! ## Places and their labels -/

theorem ofPlace_injective : Function.Injective ofPlace := by
  rintro ⟨key, index, slot, depth⟩ ⟨key', index', slot', depth'⟩ h
  obtain ⟨rfl, hindices, rfl⟩ := under.inj h
  obtain ⟨rfl, hslots⟩ := List.cons_eq_cons.1 hindices
  have hslot : slot = slot' := by
    cases slot <;> cases slot' <;> simp_all
  rw [hslot]

/-- The label of a place is read as the path to it. -/
theorem read?_placeLabel {place : Place} {kind : Kind} (h : place.key = kind.key) :
    read? place.label = some (ofPlace place) := by
  rw [← label_ofPlace, ofPlace, h]
  exact read?_label (plain_key kind) _ _

end Path

/-- A configuration in which no analysis has a name or a filter. -/
def Unnamed (config : Value) : Prop :=
  ∀ path v, Path.find? config path = some v → HoldsText v "name" none ∧ HoldsText v "filter" none

end Config

open Config (Path)

/-! ## Leaves and their places -/

/-- A leaf stands for the analysis at a place of a configuration. -/
structure Leaf.StandsFor (config : Value) (leaf : Leaf) (place : Place) : Prop where
  position : leaf.position = place.label
  mergeKey : leaf.mergeKey = .resolve leaf.spec leaf.position
  source : ∃ kind v, place.key = Kind.key kind ∧ Path.find? config (.ofPlace place) = some v ∧
    Describes kind v leaf.spec

/-- Leaves stand for places of some sort in a configuration, each for another. -/
def Stand (config : Value) (sort : Place → Prop) (leaves : List Leaf) : Prop :=
  ∃ places : List Place, List.Forall₂ (Leaf.StandsFor config) leaves places ∧ places.Nodup ∧
    ∀ place ∈ places, sort place

namespace Stand

variable {config : Value} {sort sort' : Place → Prop} {leaves leaves' : List Leaf}

theorem nil : Stand config sort [] := ⟨[], .nil, .nil, by simp⟩

theorem mono (h : Stand config sort leaves) (hsort : ∀ place, sort place → sort' place) :
    Stand config sort' leaves := by
  obtain ⟨places, hplaces, hnodup, hall⟩ := h
  exact ⟨places, hplaces, hnodup, fun place hplace => hsort place (hall place hplace)⟩

/-- Leaves that stand for places of different sorts can be put together. -/
theorem append (h : Stand config sort leaves) (h' : Stand config sort' leaves')
    (hapart : ∀ place, sort place → ¬ sort' place) :
    Stand config (fun place => sort place ∨ sort' place) (leaves ++ leaves') := by
  obtain ⟨places, hplaces, hnodup, hall⟩ := h
  obtain ⟨places', hplaces', hnodup', hall'⟩ := h'
  refine ⟨places ++ places', List.rel_append hplaces hplaces', ?_, ?_⟩
  · refine List.nodup_append.2 ⟨hnodup, hnodup', ?_⟩
    rintro place hplace other hother rfl
    exact hapart place (hall place hplace) (hall' place hother)
  · intro place hplace
    exact (List.mem_append.1 hplace).imp (hall place) (hall' place)

/-- Every leaf stands for some place. -/
theorem standsFor (h : Stand config sort leaves) {leaf : Leaf} (hleaf : leaf ∈ leaves) :
    ∃ place, leaf.StandsFor config place := by
  obtain ⟨places, hplaces, -⟩ := h
  obtain ⟨i, hi, rfl⟩ := List.mem_iff_getElem.1 hleaf
  exact ⟨_, hplaces.get hi (hplaces.length_eq ▸ hi)⟩

/-- Where leaves stand for different places, their labels differ. -/
theorem positions_nodup (h : Stand config sort leaves) : (leaves.map Leaf.position).Nodup := by
  obtain ⟨places, hplaces, hnodup, -⟩ := h
  have hread : (leaves.map Leaf.position).map Path.read? = places.map fun place => some (.ofPlace place) := by
    induction hplaces with
    | nil => rfl
    | cons hstands _ ih =>
      obtain ⟨kind, v, hkind, -⟩ := hstands.source
      rw [List.map_cons, List.map_cons, List.map_cons, hstands.position, Path.read?_placeLabel hkind,
        ih hnodup.of_cons]
  -- Labels that are read as different paths are different.
  apply List.Nodup.of_map Path.read?
  rw [hread]
  exact hnodup.map fun place place' hsame => Path.ofPlace_injective (Option.some.inj hsame)

end Stand

namespace MergeKey

/-- An analysis that has neither a name nor a filter goes by its position. -/
theorem text_resolve {spec : Spec} (h : spec.explicitKey? = none) (position : String) :
    (resolve spec position).text = position := by
  obtain ⟨hname, hfilter⟩ := Option.or_eq_none_iff.1 h
  rw [resolve, hname, hfilter]
  rfl

end MergeKey

namespace Stand

variable {config : Value} {sort : Place → Prop} {leaves : List Leaf}

/-- Two leaves with the same key do not both go by their labels. -/
theorem explicit_of_same_key (h : Stand config sort leaves) {first second : Leaf}
    (hsub : [first, second].Sublist leaves) (hkey : first.mergeKey.text = second.mergeKey.text) :
    first.spec.explicitKey? ≠ none ∨ second.spec.explicitKey? ≠ none := by
  by_contra hnone
  obtain ⟨hfirst, hsecond⟩ := not_or.1 hnone
  have hlabel : ∀ leaf ∈ [first, second], leaf.spec.explicitKey? = none → leaf.mergeKey.text = leaf.position := by
    intro leaf hleaf hfallback
    obtain ⟨place, hstands⟩ := h.standsFor (hsub.subset hleaf)
    rw [hstands.mergeKey]
    exact MergeKey.text_resolve hfallback leaf.position
  rw [hlabel first (by simp) (not_not.1 hfirst), hlabel second (by simp) (not_not.1 hsecond)] at hkey
  have hnodup : [first.position, second.position].Nodup :=
    h.positions_nodup.sublist (hsub.map Leaf.position)
  simp [hkey] at hnodup

/-- In a configuration without names and filters no leaf has a key of its own. -/
theorem explicitKey?_eq_none (h : Stand config sort leaves) (hunnamed : Config.Unnamed config) {leaf : Leaf}
    (hleaf : leaf ∈ leaves) : leaf.spec.explicitKey? = none := by
  obtain ⟨place, hstands⟩ := h.standsFor hleaf
  obtain ⟨kind, v, -, hfind, hdescribes⟩ := hstands.source
  obtain ⟨hname, hfilter⟩ := hunnamed _ v hfind
  -- A field that is absent or null is no text.
  have hnone : ∀ {field : String} {text : Option String}, HoldsText v field none → HoldsText v field text →
      text = none := by
    intro field text hfield htext
    cases text with
    | none => rfl
    | some s =>
      obtain ⟨hs, -⟩ := htext
      rcases hfield with hfield | hfield <;> simp [hfield] at hs
  rw [Spec.explicitKey?, hnone hname hdescribes.name, hnone hfilter hdescribes.filter]
  rfl

end Stand

/-! ## What is compiled -/

namespace Config

variable {config v : Value} {kind : Kind} {first index slot : Nat}

theorem leavesAlong_stand {specs : List Spec} (hspecs : Follows kind v specs) (place : Place)
    (hkey : place.key = kind.key) (hfind : Path.find? config (.ofPlace place) = some v) :
    Stand config (fun p => (p.key = place.key ∧ p.index = place.index ∧ p.slot = place.slot) ∧
      place.depth ≤ p.depth) (leavesAlong first place specs) := by
  have hhead : ∀ {place : Place} {v spec}, Describes kind v spec → place.key = kind.key →
      Path.find? config (.ofPlace place) = some v →
      Stand config (· = place) [.of (first + place.depth) place.label spec] := by
    intro place v spec hspec hkey hfind
    exact ⟨[place], .cons ⟨rfl, rfl, kind, v, hkey, hfind, hspec⟩ .nil, List.nodup_singleton _, by simp⟩
  induction hspecs generalizing place with
  | last hspec hends =>
    refine (hhead hspec hkey hfind).mono ?_
    rintro p rfl
    exact ⟨⟨rfl, rfl, rfl⟩, Nat.le_refl _⟩
  | @link v child spec specs hspec hgoesOn _ ih =>
    have hnext : Path.find? config (.ofPlace place.next) = some child := by
      have hstep : Path.find? config (.ofPlace place.next) = (Path.find? config (.ofPlace place)).bind follow? :=
        Path.find?_next
      exact hstep.trans ((congrArg (Option.bind · follow?) hfind).trans hgoesOn)
    -- The leaves behind are deeper than this one.
    refine ((hhead hspec hkey hfind).append (ih place.next hkey hnext) ?_).mono ?_
    · rintro p rfl ⟨-, hdeeper⟩
      exact Nat.not_succ_le_self _ hdeeper
    · rintro p (rfl | ⟨hhead, hdeeper⟩)
      · exact ⟨⟨rfl, rfl, rfl⟩, Nat.le_refl _⟩
      · exact ⟨hhead, Nat.le_of_succ_le hdeeper⟩

theorem compileChain_stand {slot : Option Nat} {chain : Chain}
    (h : compileChain kind first ⟨kind.key, index, slot, 0⟩ v = .ok chain)
    (hfind : Path.find? config (.under kind.key (index :: slot.toList) 0) = some v) :
    Stand config (fun p => p.key = kind.key ∧ p.index = index ∧ p.slot = slot) chain.toList := by
  obtain ⟨specs, hspecs, hchain⟩ := compileChain_eq_ok.1 h
  rw [hchain]
  exact (leavesAlong_stand hspecs ⟨kind.key, index, slot, 0⟩ rfl hfind).mono fun _ => And.left

theorem compileMembers_stand {vs : List Value} {chains : List Chain}
    (h : compileMembers kind index first slot vs = .ok chains)
    (hfind : ∀ j, Path.find? config (.under kind.key [index, slot + j] 0) = vs[j]?) :
    Stand config (fun p => (p.key = kind.key ∧ p.index = index) ∧ ∃ j, p.slot = some j ∧ slot ≤ j)
      (chains.flatMap Chain.toList) := by
  induction vs generalizing first slot chains with
  | nil =>
    cases h
    exact .nil
  | cons v vs ih =>
    obtain ⟨-, chain, behind, hchain, hbehind, rfl⟩ := compileMembers_cons_eq_ok.1 h
    have hlater : ∀ j, Path.find? config (.under kind.key [index, slot + 1 + j] 0) = vs[j]? := by
      intro j
      rw [Nat.add_assoc, Nat.add_comm 1]
      exact hfind (j + 1)
    refine ((compileChain_stand hchain (hfind 0)).append (ih hbehind hlater) ?_).mono ?_
    · rintro p ⟨-, -, hslot⟩ ⟨-, j, hj, hle⟩
      cases hslot.symm.trans hj
      exact Nat.not_succ_le_self _ hle
    · rintro p (⟨hkey, hindex, hslot⟩ | ⟨hentry, j, hj, hle⟩)
      · exact ⟨⟨hkey, hindex⟩, slot, hslot, Nat.le_refl _⟩
      · exact ⟨hentry, j, hj, Nat.le_of_succ_le hle⟩

theorem compileNode_stand {node : Node} (h : compileNode kind index first v = .ok node)
    (hfind : Path.find? config (.under kind.key [index] 0) = some v) :
    Stand config (fun p => p.key = kind.key ∧ p.index = index) (node.chains.flatMap Chain.toList) := by
  rcases compileNode_eq_ok.1 h with ⟨items, chains, rfl, -, hchains, rfl⟩ | ⟨-, chain, hchain, rfl⟩
  · refine (compileMembers_stand hchains fun j => ?_).mono fun _ => And.left
    rw [Nat.zero_add]
    exact Path.find?_member hfind
  · rw [Node.chains, List.flatMap_singleton]
    exact (compileChain_stand hchain hfind).mono fun p hp => ⟨hp.1, hp.2.1⟩

theorem compileEntries_stand {vs : List Value} {tasks : List Task}
    (h : compileEntries kind index first vs = .ok tasks)
    (hfind : ∀ i, Path.find? config (.under kind.key [index + i] 0) = vs[i]?) :
    Stand config (fun p => p.key = kind.key ∧ index ≤ p.index)
      ((tasks.flatMap (·.node.chains)).flatMap Chain.toList) := by
  induction vs generalizing index first tasks with
  | nil =>
    cases h
    exact .nil
  | cons v vs ih =>
    obtain ⟨node, others, hnode, hothers, rfl⟩ := compileEntries_cons_eq_ok.1 h
    have hlater : ∀ i, Path.find? config (.under kind.key [index + 1 + i] 0) = vs[i]? := by
      intro i
      rw [Nat.add_assoc, Nat.add_comm 1]
      exact hfind (i + 1)
    rw [List.flatMap_cons, List.flatMap_append]
    refine ((compileNode_stand hnode (hfind 0)).append (ih hothers hlater) ?_).mono ?_
    · rintro p ⟨-, rfl⟩ ⟨-, hle⟩
      exact Nat.not_succ_le_self _ hle
    · rintro p (⟨hkey, rfl⟩ | ⟨hkey, hle⟩)
      · exact ⟨hkey, Nat.le_refl _⟩
      · exact ⟨hkey, Nat.le_of_succ_le hle⟩

theorem compileTasks_stand {entries : Keyed Value} {tasks : List Task} (hasc : entries.Ascending)
    (h : compileTasks first entries = .ok tasks)
    (hmember : ∀ entry ∈ entries, config.member? entry.1 = some entry.2) :
    Stand config (fun p => p.key ∈ entries.map Prod.fst)
      ((tasks.flatMap (·.node.chains)).flatMap Chain.toList) := by
  induction entries generalizing first tasks with
  | nil =>
    cases h
    exact .nil
  | cons entry entries ih =>
    obtain ⟨kind, own, others, hkind, -, hown, hothers, rfl⟩ := compileTasks_cons_eq_ok.1 h
    have hkey : entry.1 = kind.key := Kind.ofKey?_eq_some.1 hkind
    obtain ⟨hfirst, hrest⟩ := List.pairwise_cons.1 hasc
    have hentry : Path.find? config (.under kind.key [] 0) = some entry.2 :=
      Path.find?_key.trans (hkey ▸ hmember entry List.mem_cons_self)
    have hfind : ∀ i, Path.find? config (.under kind.key [0 + i] 0) = (elements entry.2)[i]? := by
      intro i
      rw [Nat.zero_add]
      exact Path.find?_entry hentry
    have hlater := ih hrest hothers fun e he => hmember e (List.mem_cons_of_mem _ he)
    rw [List.flatMap_append, List.flatMap_append]
    refine ((compileEntries_stand hown hfind).append hlater ?_).mono ?_
    · rintro p ⟨hown, -⟩ hin
      have hlt := hfirst p.key hin
      rw [hown, hkey] at hlt
      exact String.lt_irrefl _ hlt
    · rintro p (⟨hown, -⟩ | hin)
      · rw [List.map_cons, hkey, hown]
        exact List.mem_cons_self
      · exact List.mem_cons_of_mem _ hin

end Config

/-- The leaves of a compiled configuration stand for the analyses of the document, each for another. -/
theorem Graph.compile_stand {config : Value} {graph : Graph} (h : Graph.compile config = .ok graph) :
    Stand config (fun _ => True) (graph.chains.flatMap Chain.toList) := by
  obtain ⟨entries, hentries, -, htasks, -⟩ := Graph.compile_eq_ok.1 h
  obtain rfl := Mirror.entries_eq_membersOf hentries htasks
  have hmember : ∀ entry ∈ Mirror.membersOf config [.freqDist, .timeSeries],
      config.member? entry.1 = some entry.2 := by
    intro entry hentry
    obtain ⟨kind, -, hin⟩ := List.mem_filterMap.1 hentry
    obtain ⟨v, hv, rfl⟩ := Option.map_eq_some_iff.1 hin
    exact hv
  exact (Config.compileTasks_stand (Mirror.ascending_membersOf config) htasks hmember).mono fun _ _ => trivial

end Inquiry
