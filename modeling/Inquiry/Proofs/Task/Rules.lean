import Inquiry.Proofs.Task.Grammar
import Inquiry.Proofs.Task.Path
import Inquiry.Proofs.Text.ByteOrder

/-!
# Proofs.Task.Rules — the rules of configurations in the order of a traversal

The grammar of configurations says what is accepted. Here it is told as a list of rules, in the order in which
a reader of the document comes across them, each with the fault of breaking it.

* `Rule`: what is asked of the value at a path, and the fault.
* `Rules.spec`, `Rules.chain`, `Rules.entry`, `Rules.key`, `Rules.config`: the rules, level by level.
* `Rules.members_inByteOrder`: the members of a configuration are gone through in the order of the bytes of
  their names.
* `Rules.config_located`: every rule is about what its path leads to, and the label in its fault stands for
  that path.
-/

namespace Inquiry

open Json (Value)

/-- The label that a fault gives of its place. The key of an unknown kind is named, but not as a place. -/
def ConfigError.position? : ConfigError → Option String
  | .invalidJson => none
  | .emptyConfig => none
  | .unknownKind _ => none
  | .notAnObject position => some position
  | .missingField position _ => some position
  | .invalidField position _ _ => some position
  | .emptyGroup position => some position
  | .nestedGroup position => some position
  | .cycle position => some position

namespace Config

open Grammar

/-- A rule about the value at a path, and the fault of breaking it. -/
structure Rule where
  path : Path
  subject : Value
  asks : Value → Prop
  fault : ConfigError

namespace Rule

/-- The value is as the rule asks. -/
def Holds (rule : Rule) : Prop := rule.asks rule.subject

/-- A rule is about the value at a path, and its fault has the label of the path. -/
structure At (path : Path) (v : Value) (rule : Rule) : Prop where
  path_eq : rule.path = path
  subject_eq : rule.subject = v
  position_eq : rule.fault.position? = some path.label

/-- A rule is about what its path leads to in a configuration, and the label that its fault has, if any,
stands for that path. -/
structure Located (config : Value) (rule : Rule) : Prop where
  find?_path : rule.path.find? config = some rule.subject
  read?_position : ∀ label, rule.fault.position? = some label → Path.read? label = some rule.path

end Rule

/-! ## The rules -/

namespace Rules

/-- A required field is there, and it is good. -/
def field (path : Path) (v : Value) (name : String) (good : Value → String → Prop)
    (expected : Expectation) : List Rule :=
  [⟨path, v, fun v => ¬ Lacks v name, .missingField path.label name⟩,
    ⟨path, v, fun v => good v name, .invalidField path.label name expected⟩]

/-- The two parameters of a kind, one after the other. -/
def parameters (path : Path) (v : Value) : Kind → List Rule
  | .timeSeries => field path v "interval" HasInterval .intervalWord ++
    field path v "span" HasCount .positiveInteger
  | .freqDist => field path v "target" HasText .nonEmptyString ++
    field path v "threshold" HasCount .positiveInteger

/-- A name or a filter is not there, or it is a text that is not blank. -/
def text (path : Path) (v : Value) (name : String) : Rule :=
  ⟨path, v, fun v => Lacks v name ∨ HasText v name, .invalidField path.label name .nonEmptyString⟩

/-- An analysis is an object with parameters of its kind, a name and a filter. -/
def spec (kind : Kind) (path : Path) (v : Value) : List Rule :=
  [⟨path, v, fun v => ∃ members, v = .object members, .notAnObject path.label⟩] ++
    (parameters path v kind ++ [text path v "name", text path v "filter"])

/-- A chain: the analysis at its head, and then the one behind. -/
def chain (kind : Kind) (path : Path) (v : Value) : List Rule :=
  spec kind path v ++
    match _h : follow? v with
    | none => []
    | some child => chain kind path.next child
termination_by v
decreasing_by exact sizeOf_lt_of_follow? (by assumption)

theorem chain_of_ends {kind : Kind} {path : Path} {v : Value} (h : follow? v = none) :
    chain kind path v = spec kind path v := by
  rw [chain]
  split
  · exact List.append_nil _
  · rename_i child hchild
    rw [h] at hchild
    cases hchild

theorem chain_of_goesOn {kind : Kind} {path : Path} {v child : Value} (h : follow? v = some child) :
    chain kind path v = spec kind path v ++ chain kind path.next child := by
  rw [chain]
  split
  · rename_i hnone
    rw [h] at hnone
    cases hnone
  · rename_i child' hchild
    rw [h] at hchild
    cases hchild
    rfl

/-- A member of a group is no group, but a chain. -/
def member (kind : Kind) (index slot : Nat) (v : Value) : List Rule :=
  let path := Path.under kind.key [index, slot] 0
  ⟨path, v, fun v => ∀ items, v ≠ .array items, .nestedGroup path.label⟩ :: chain kind path v

/-- An array has items. -/
def full (path : Path) (v : Value) : Rule :=
  ⟨path, v, fun v => v ≠ .array [], .emptyGroup path.label⟩

/-- An entry is a group with members, or else a chain. -/
def entry (kind : Kind) (index : Nat) (v : Value) : List Rule :=
  let path := Path.under kind.key [index] 0
  match v with
  | .array items => full path (.array items) ::
    items.zipIdx.flatMap fun (v, slot) => member kind index slot v
  | v => chain kind path v

/-- A name at the top is the word for a kind. -/
def known (name : String) (v : Value) : Rule :=
  ⟨.under name [] 0, v, fun _ => ∃ kind : Kind, name = kind.key, .unknownKind name⟩

/-- What a name has is checked if the name is known. -/
def key (name : String) (v : Value) : List Rule :=
  known name v ::
    match Kind.ofKey? name with
    | none => []
    | some kind => full (.under name [] 0) v ::
      (elements v).zipIdx.flatMap fun (item, index) => entry kind index item

theorem key_of_unknown {name : String} {v : Value} (h : Kind.ofKey? name = none) :
    key name v = [known name v] := by
  rw [key, h]

theorem key_of_kind (kind : Kind) (v : Value) : key kind.key v =
    [known kind.key v] ++ ([full (.under kind.key [] 0) v] ++
      (elements v).zipIdx.flatMap fun (item, index) => entry kind index item) := by
  rw [key, Kind.ofKey?_eq_some.2 rfl]
  rfl

/-- The members of a document, if it is an object, in ascending order of names. -/
def members (document : Value) : Keyed Value := document.entries?.getD []

/-- A configuration is an object that is not empty, with the words for kinds as names. -/
def config (document : Value) : List Rule :=
  ⟨.root, document, fun v => ∃ members, v = .object members, .notAnObject Path.root.label⟩ ::
    ⟨.root, document, fun v => v ≠ .object [], .emptyConfig⟩ ::
    (members document).flatMap fun (name, v) => key name v

/-- Entries are the members of a document, each of them once, in the order of the bytes of their names. -/
structure InByteOrder (document : Value) (entries : Keyed Value) : Prop where
  mem_iff : ∀ name v, (name, v) ∈ entries ↔ document.member? name = some v
  ascending : (entries.map fun entry => Text.bytes entry.1).Pairwise (· < ·)

theorem members_inByteOrder (document : Value) : InByteOrder document (members document) := by
  cases document with
  | object items =>
    refine ⟨fun name v => Keyed.mem_ofEntries, List.pairwise_map.2 ?_⟩
    exact (List.pairwise_map.1 (Keyed.ascending_ofEntries items)).imp Text.lt_iff_bytes_lt.1
  | _ => exact ⟨fun name v => ⟨nofun, nofun⟩, .nil⟩

/-! ## Where the rules apply -/

variable {document v : Value} {kind : Kind} {path : Path} {rule : Rule} {index slot : Nat}

/-- A rule is located if it is about what a path leads to, and the label of the path can be read. -/
theorem located_of_at (h : rule.At path v) (hfind : path.find? document = some v)
    (hread : Path.read? path.label = some path) : rule.Located document := by
  refine ⟨?_, ?_⟩
  · rw [h.path_eq, h.subject_eq, hfind]
  · intro label hlabel
    rw [h.position_eq] at hlabel
    cases hlabel
    rw [h.path_eq, hread]

theorem field_at {name : String} {good : Value → String → Prop} {expected : Expectation}
    (h : rule ∈ field path v name good expected) : rule.At path v := by
  rcases List.mem_pair.1 h with rfl | rfl <;> exact ⟨rfl, rfl, rfl⟩

theorem spec_at (h : rule ∈ spec kind path v) : rule.At path v := by
  rcases List.mem_append.1 h with hobject | h
  · obtain rfl := List.mem_singleton.1 hobject
    exact ⟨rfl, rfl, rfl⟩
  rcases List.mem_append.1 h with hparameter | htext
  · cases kind <;> rcases List.mem_append.1 hparameter with hfield | hfield <;> exact field_at hfield
  · rcases List.mem_pair.1 htext with rfl | rfl <;> exact ⟨rfl, rfl, rfl⟩

/-- Link by link, the analyses of a chain are where the paths lead to. -/
theorem chain_located {indices : List Nat} {links : Nat} (hpath : path = .under kind.key indices links)
    (hfind : path.find? document = some v) : ∀ rule ∈ chain kind path v, rule.Located document := by
  have hspec : ∀ {path v links}, path = .under kind.key indices links → path.find? document = some v →
      ∀ rule ∈ spec kind path v, rule.Located document := by
    rintro path v links rfl hfind rule hrule
    exact located_of_at (spec_at hrule) hfind (Path.read?_label (Path.plain_key kind) indices links)
  -- By induction on the chain, along which the path grows by one link at a time.
  fun_induction chain kind path v generalizing links with
  | case1 path v ih =>
    intro rule hrule
    rcases List.mem_append.1 hrule with hown | hbehind
    · exact hspec hpath hfind rule hown
    · split at hbehind
      · cases hbehind
      · rename_i child hchild
        have hnext : path.next.find? document = some child := by
          rw [hpath, Path.find?_next, ← hpath, hfind]
          exact hchild
        exact ih child hchild (congrArg Path.next hpath) hnext rule hbehind

theorem member_located (hfind : (Path.under kind.key [index, slot] 0).find? document = some v) :
    ∀ rule ∈ member kind index slot v, rule.Located document := by
  intro rule hrule
  rcases List.mem_cons.1 hrule with rfl | hrule
  · exact located_of_at ⟨rfl, rfl, rfl⟩ hfind (Path.read?_label (Path.plain_key kind) _ _)
  · exact chain_located rfl hfind rule hrule

theorem entry_located (hfind : (Path.under kind.key [index] 0).find? document = some v) :
    ∀ rule ∈ entry kind index v, rule.Located document := by
  intro rule hrule
  cases v with
  | array items =>
    rcases List.mem_cons.1 hrule with rfl | hrule
    · exact located_of_at ⟨rfl, rfl, rfl⟩ hfind (Path.read?_label (Path.plain_key kind) _ _)
    · obtain ⟨⟨v, slot⟩, hitem, hrule⟩ := List.mem_flatMap.1 hrule
      refine member_located ?_ rule hrule
      rw [Path.find?_member hfind]
      exact List.mem_zipIdx_iff_getElem?.1 hitem
  | _ => exact chain_located rfl hfind rule hrule

theorem key_located {name : String} (hfind : document.member? name = some v) :
    ∀ rule ∈ key name v, rule.Located document := by
  have hpath : (Path.under name [] 0).find? document = some v := Path.find?_key.trans hfind
  have hknown : (known name v).Located document := ⟨hpath, nofun⟩
  intro rule hrule
  cases hkind : Kind.ofKey? name with
  | none =>
    rw [key_of_unknown hkind] at hrule
    obtain rfl := List.mem_singleton.1 hrule
    exact hknown
  | some kind =>
    obtain rfl := Kind.ofKey?_eq_some.1 hkind
    rw [key_of_kind] at hrule
    rcases List.mem_cons.1 hrule with rfl | hrule
    · exact hknown
    rcases List.mem_cons.1 hrule with rfl | hrule
    · exact located_of_at ⟨rfl, rfl, rfl⟩ hpath (Path.read?_label (Path.plain_key kind) _ _)
    · obtain ⟨⟨item, index⟩, hitem, hrule⟩ := List.mem_flatMap.1 hrule
      refine entry_located ?_ rule hrule
      rw [Path.find?_entry hpath]
      exact List.mem_zipIdx_iff_getElem?.1 hitem

/-- Every rule is about what its path leads to, and its fault is labelled with the path. -/
theorem config_located (document : Value) : ∀ rule ∈ config document, rule.Located document := by
  intro rule hrule
  rcases List.mem_cons.1 hrule with rfl | hrule
  · exact located_of_at ⟨rfl, rfl, rfl⟩ rfl rfl
  rcases List.mem_cons.1 hrule with rfl | hrule
  · exact ⟨rfl, nofun⟩
  obtain ⟨⟨name, v⟩, hentry, hrule⟩ := List.mem_flatMap.1 hrule
  exact key_located (((members_inByteOrder document).mem_iff name v).1 hentry) rule hrule

end Rules
end Config
end Inquiry
