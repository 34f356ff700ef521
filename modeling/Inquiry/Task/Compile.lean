import Inquiry.Config.Fields
import Inquiry.Config.Place
import Inquiry.Json.Reader
import Inquiry.Task.Graph

/-!
# Task.Compile — from configurations to task graphs

A configuration is an object from kinds of analyses to an entry or an array of entries. An entry is an
analysis, or a non-empty array of analyses that form a group; an analysis may hold a follow-up of the
same kind under `then`, and so on to any depth.

* `compileSpec` checks one analysis, `compileChain` follows it through its `then` links.
* `compile` checks a whole configuration. The first fault on the way, in ascending order of keys, then
  in the order of the arrays, then from head to tail of a chain, is the one reported.
* Leaves are numbered in that same order.
-/

namespace Inquiry

open Json (Value)

namespace Config

/-- Checks the analysis at a position. -/
def compileSpec (kind : Kind) (v : Value) (position : String) : Except ConfigError Spec :=
  match v with
  | .object _ => do
    let parameters ← Parameters.parse kind v position
    let name ← optionalText v "name" position
    let filter ← optionalText v "filter" position
    pure ⟨parameters.kind, name, filter, parameters⟩
  | _ => .error (.notAnObject position)

/-- The follow-up of an analysis. -/
def follow? (v : Value) : Option Value :=
  match v.member? "then" with
  | none => none
  | some .null => none
  | some child => some child

theorem sizeOf_lt_of_follow? {v child : Value} (h : follow? v = some child) :
    sizeOf child < sizeOf v := by
  unfold follow? at h
  split at h
  · cases h
  · cases h
  · rename_i c _ hc
    cases h
    exact Json.Value.sizeOf_member?_lt hc

/-- Compiles the chain that starts with the analysis at a place, behind the leaves in `front`, which
are listed the nearest first. The leaf at a place is numbered by the links that lead to it. -/
def chainBehind (kind : Kind) (first : Nat) (place : Place) (front : List Leaf) (v : Value) :
    Except ConfigError Chain :=
  match compileSpec kind v place.label with
  | .error e => .error e
  | .ok spec =>
    let leaf := Leaf.of (first + place.depth) place.label spec
    match _h : follow? v with
    | none => .ok (Chain.prepend front (.last leaf))
    | some child => chainBehind kind first place.next (leaf :: front) child
termination_by v
decreasing_by exact sizeOf_lt_of_follow? (by assumption)

/-- Compiles the chain that starts with the analysis at the head of a place, its leaves numbered from
`first`. -/
def compileChain (kind : Kind) (first : Nat) (place : Place) (v : Value) :
    Except ConfigError Chain :=
  chainBehind kind first place [] v

/-- Compiles the members of a group from a slot on. -/
def compileMembers (kind : Kind) (index first slot : Nat) :
    List Value → Except ConfigError (List Chain)
  | [] => .ok []
  | v :: rest =>
    let place : Place := ⟨kind.key, index, some slot, 0⟩
    match v with
    | .array _ => .error (.nestedGroup place.label)
    | _ =>
      match compileChain kind first place v with
      | .error e => .error e
      | .ok chain =>
        match compileMembers kind index (first + chain.length) (slot + 1) rest with
        | .error e => .error e
        | .ok chains => .ok (chain :: chains)

/-- Compiles one entry. -/
def compileNode (kind : Kind) (index first : Nat) : Value → Except ConfigError Node
  | .array [] => .error (.emptyGroup (Place.entryLabel kind.key index))
  | .array members => (compileMembers kind index first 0 members).map Node.group
  | v => (compileChain kind first ⟨kind.key, index, none, 0⟩ v).map Node.single

/-- Compiles the entries of a kind from an index on. -/
def compileEntries (kind : Kind) (index first : Nat) : List Value → Except ConfigError (List Task)
  | [] => .ok []
  | v :: rest =>
    match compileNode kind index first v with
    | .error e => .error e
    | .ok node =>
      match compileEntries kind (index + 1) (first + node.leafCount) rest with
      | .error e => .error e
      | .ok tasks => .ok (⟨kind, index, Place.entryLabel kind.key index, node⟩ :: tasks)

/-- The entries that the value of a key stands for: a value that is no array is one entry. -/
def entriesOf (key : String) : Value → Except ConfigError (List Value)
  | .array [] => .error (.emptyGroup key)
  | .array items => .ok items
  | v => .ok [v]

/-- Compiles the members of a configuration. -/
def compileTasks (first : Nat) : List (String × Value) → Except ConfigError (List Task)
  | [] => .ok []
  | (key, v) :: rest =>
    match Kind.ofKey? key with
    | none => .error (.unknownKind key)
    | some kind => do
      let tasks ← compileEntries kind 0 first (← entriesOf key v)
      let others ← compileTasks (first + (tasks.map fun t => t.node.leafCount).foldr (· + ·) 0) rest
      pure (tasks ++ others)

/-- Registers the leaves that follow a registered one and links each below the one in front. -/
def registerFrom (l : Lineage) (parent : Leaf) : List Leaf → Except ConfigError Lineage
  | [] => .ok l
  | leaf :: rest =>
    match (l.add leaf.id).link parent.id leaf.id with
    | .error _ => .error (.cycle leaf.position)
    | .ok l => registerFrom l leaf rest

/-- Registers the leaves of chains and their links. -/
def register (l : Lineage) : List Chain → Except ConfigError Lineage
  | [] => .ok l
  | chain :: rest =>
    match registerFrom (l.add chain.head.id) chain.head (chain.toList.drop 1) with
    | .error e => .error e
    | .ok l => register l rest

end Config

/-- Compiles a configuration. -/
def Graph.compile (config : Value) : Except ConfigError Graph :=
  match config.entries? with
  | none => .error (.notAnObject "<root>")
  | some [] => .error .emptyConfig
  | some entries => do
    let tasks ← Config.compileTasks 0 entries
    let lineage ← Config.register .empty (tasks.flatMap fun t => t.node.chains)
    pure ⟨tasks, lineage⟩

/-- Compiles a configuration given as text. -/
def Graph.compileText (text : String) : Except ConfigError Graph :=
  match Json.Reader.read? text with
  | none => .error .invalidJson
  | some config => Graph.compile config

end Inquiry
