import Mathlib.Data.List.DropRight
import Mathlib.Data.List.TakeWhile
import Inquiry.Proofs.Task.Links
import Inquiry.Task.Compile

/-!
# Proofs.Task.Outcome — what each part of the compiler accepts

For every function of the compiler one lemma says when it succeeds and with what. A proof about compiled
configurations takes the functions apart with these lemmas, and need not look at how they fail.

* `Describes`: an object describes an analysis; `Config.compileSpec_eq_ok`: these are the objects that
  are accepted, each as the analysis that it describes.
* `Config.elements` are the entries that the value of a key stands for.
* `Graph.compile_eq_ok`: a configuration is compiled if its entries are, and their chains can be
  registered.
-/

namespace Inquiry

open Json (Value)

/-- What is left of a computation that succeeds after its first step. -/
theorem bind_eq_ok {ε α β : Type} {x : Except ε α} {f : α → Except ε β} {b : β} :
    (x >>= f) = .ok b ↔ ∃ a, x = .ok a ∧ f a = .ok b := by
  cases x with
  | error e =>
    constructor
    · intro h
      cases h
    · rintro ⟨a, ha, -⟩
      cases ha
  | ok a =>
    constructor
    · intro h
      exact ⟨a, rfl, h⟩
    · rintro ⟨a', ha', h⟩
      cases ha'
      exact h

/-- A mapped computation succeeds where the computation does. -/
theorem map_eq_ok {ε α β : Type} {x : Except ε α} {f : α → β} {b : β} :
    x.map f = .ok b ↔ ∃ a, x = .ok a ∧ b = f a := by
  cases x with
  | error e => simp [Except.map]
  | ok a => simp [Except.map, eq_comm]

/-- A text is blank if nothing is left of it once it is trimmed. -/
theorem Text.isBlankText_iff {s : String} : isBlankText s = true ↔ trim s = "" := by
  have hchars : trimChars s.toList = [] ↔ ∀ c ∈ s.toList, isBlank c = true := by
    rw [trimChars, List.reverse_eq_nil_iff, List.dropWhile_eq_nil_iff]
    constructor
    · intro h c hc
      -- What is left after the blank characters in front would start with one that is not blank.
      by_cases hleft : s.toList.dropWhile isBlank = []
      · exact List.dropWhile_eq_nil_iff.1 hleft c hc
      · have hhead := List.head_dropWhile_not isBlank hleft
        have hblank := h _ (List.mem_reverse.2 (List.head_mem hleft))
        rw [hblank] at hhead
        cases hhead
    · intro h c hc
      have hin : c ∈ s.toList.dropWhile isBlank := List.mem_reverse.1 hc
      exact h c ((List.dropWhile_sublist isBlank).subset hin)
  rw [isBlankText, List.all_eq_true, trim, ← hchars]
  constructor
  · intro h
    rw [h]
  · intro h
    exact String.ofList_injective h

/-- A trimmed text has no blank characters at its ends. -/
theorem Text.trim_trim (s : String) : trim (trim s) = trim s := by
  have hchars : ∀ cs, trimChars (trimChars cs) = trimChars cs := by
    intro cs
    have hfront : (trimChars cs).dropWhile isBlank = trimChars cs := by
      refine List.dropWhile_eq_self_iff.2 fun hlen => ?_
      have hstart : trimChars cs <+: cs.dropWhile isBlank := List.rdropWhile_prefix isBlank _
      rw [hstart.getElem hlen]
      exact List.dropWhile_get_zero_not isBlank cs _
    rw [trimChars, hfront]
    exact List.rdropWhile_idempotent isBlank _
  rw [trim, trim, String.toList_ofList, hchars]

/-! ## Fields -/

/-- A field holds an integer from 1 to `2 ^ 32 - 1`. -/
def HoldsPositive (v : Value) (field : String) (n : UInt32) : Prop :=
  v.member? field = some (.ofNat n.toNat) ∧ 0 < n.toNat

/-- A field holds a text that is not blank, or nothing: it is absent or null. -/
def HoldsText (v : Value) (field : String) : Option String → Prop
  | some s => v.member? field = some (.string s) ∧ Text.trim s ≠ ""
  | none => v.member? field = none ∨ v.member? field = some .null

/-- The members of an object hold parameters. -/
def HoldsParameters (v : Value) : Parameters → Prop
  | .timeSeries interval span =>
    v.member? "interval" = some (.string interval.word) ∧ HoldsPositive v "span" span
  | .freqDist target threshold =>
    (∃ s, v.member? "target" = some (.string s) ∧ Text.trim s = target ∧ target ≠ "") ∧
      HoldsPositive v "threshold" threshold

/-- An object describes an analysis of a kind. -/
structure Describes (kind : Kind) (v : Value) (spec : Spec) : Prop where
  object : ∃ members, v = .object members
  ofKind : spec.kind = kind
  parametersOfKind : spec.parameters.kind = kind
  parameters : HoldsParameters v spec.parameters
  name : HoldsText v "name" spec.name
  filter : HoldsText v "filter" spec.filter

namespace Config

variable {v : Value} {field position : String}

theorem required_eq_ok {w : Value} :
    required v field position = .ok w ↔ v.member? field = some w ∧ w ≠ .null := by
  unfold required
  split
  · simp_all
  · simp_all
  · rename_i found hnull hfound
    simp only [hfound, Except.ok.injEq, Option.some.injEq]
    constructor
    · rintro rfl
      exact ⟨rfl, hnull⟩
    · rintro ⟨rfl, -⟩
      rfl

/-- A required field is read where it is there and can be read; null cannot. -/
theorem requiredAs_eq_ok {α : Type} {read? : Value → Option α} {expected : Expectation} {a : α}
    (hnull : read? .null = none) : requiredAs read? expected v field position = .ok a ↔
      ∃ w, v.member? field = some w ∧ read? w = some a := by
  unfold requiredAs
  cases hrequired : required v field position with
  | error e =>
    constructor
    · intro h
      cases h
    · rintro ⟨w, hw, ha⟩
      -- What can be read is not null, and only null and absent fields are refused here.
      have hok : required v field position = .ok w := by
        refine required_eq_ok.2 ⟨hw, ?_⟩
        rintro rfl
        rw [hnull] at ha
        cases ha
      rw [hrequired] at hok
      cases hok
  | ok w =>
    obtain ⟨hw, -⟩ := required_eq_ok.1 hrequired
    cases hread : read? w with
    | none => simp [hw, hread]
    | some b => simp [hw, hread]

theorem word_eq_some {w : Value} {interval : Interval} :
    w.text?.bind Interval.ofWord? = some interval ↔ w = .string interval.word := by
  constructor
  · intro h
    obtain ⟨s, hs, hword⟩ := Option.bind_eq_some_iff.1 h
    have hfound := List.find?_some hword
    cases w with
    | string t =>
      cases hs
      rw [← beq_iff_eq.1 hfound]
    | _ => cases hs
  · rintro rfl
    cases interval <;> rfl

theorem positive?_eq_some {w : Value} {n : UInt32} :
    positive? w = some n ↔ w = .ofNat n.toNat ∧ 0 < n.toNat := by
  unfold positive?
  constructor
  · intro h
    split at h
    · rename_i m hm
      split at h
      · rename_i hbounds
        obtain ⟨hlow, hhigh⟩ := hbounds
        cases h
        -- Within the bounds nothing is lost in thirty-two bits.
        have hsmall : m < (2 ^ 32 : Nat) := hhigh
        have hvalue : (UInt32.ofNat m.toNat).toNat = m.toNat := by
          rw [UInt32.toNat_ofNat', Nat.mod_eq_of_lt]
          omega
        cases w with
        | number number =>
          cases number with
          | integer n =>
            cases hm
            refine ⟨?_, by omega⟩
            rw [hvalue, Value.ofNat, Int.toNat_of_nonneg (by omega)]
          | float x => cases hm
        | _ => cases hm
      · cases h
    · cases h
  · rintro ⟨rfl, hpos⟩
    have hsmall : n.toNat < 2 ^ 32 := n.toNat_lt
    have hbounds : (1 : Int) ≤ (n.toNat : Int) ∧ (n.toNat : Int) < (Nat.pow 2 32 : Nat) :=
      ⟨by omega, by exact_mod_cast hsmall⟩
    simp only [Value.ofNat, Value.integer?]
    rw [if_pos hbounds]
    simp

theorem trimmedText?_eq_some {w : Value} {t : String} :
    trimmedText? w = some t ↔ ∃ s, w = .string s ∧ Text.trim s = t ∧ t ≠ "" := by
  cases w with
  | string s =>
    simp only [trimmedText?, Value.text?, Value.string.injEq]
    by_cases hblank : Text.isBlankText s = true
    · have htrim := Text.isBlankText_iff.1 hblank
      simp only [hblank, if_true]
      constructor
      · intro h
        cases h
      · rintro ⟨s', rfl, rfl, hne⟩
        exact absurd htrim hne
    · have htrim : Text.trim s ≠ "" := fun h => hblank (Text.isBlankText_iff.2 h)
      simp only [hblank]
      constructor
      · intro h
        cases h
        exact ⟨s, rfl, rfl, htrim⟩
      · rintro ⟨s', rfl, rfl, -⟩
        rfl
  | _ => simp [trimmedText?, Value.text?]

theorem optionalText_eq_ok {text : Option String} :
    optionalText v field position = .ok text ↔ HoldsText v field text := by
  unfold optionalText
  split
  · rename_i hnone
    cases text <;> simp [HoldsText, hnone]
  · rename_i hnull
    cases text <;> simp [HoldsText, hnull]
  · rename_i s hs
    by_cases hblank : Text.isBlankText s = true
    · have htrim := Text.isBlankText_iff.1 hblank
      cases text with
      | none => simp [HoldsText, hs, hblank]
      | some t =>
        simp only [HoldsText, hs, hblank, if_true, Option.some.injEq, Value.string.injEq]
        constructor
        · intro h
          cases h
        · rintro ⟨rfl, hne⟩
          exact absurd htrim hne
    · have htrim : Text.trim s ≠ "" := fun h => hblank (Text.isBlankText_iff.2 h)
      cases text with
      | none => simp [HoldsText, hs, hblank]
      | some t =>
        simp only [HoldsText, hs, hblank, Option.some.injEq, Value.string.injEq]
        constructor
        · intro h
          cases h
          exact ⟨rfl, htrim⟩
        · rintro ⟨rfl, -⟩
          rfl
  · rename_i w hnull htext hw
    cases text with
    | none =>
      simp only [HoldsText, hw, Option.some.injEq, reduceCtorEq, false_or, false_iff]
      rintro rfl
      exact hnull rfl
    | some t =>
      simp only [HoldsText, hw, Option.some.injEq, reduceCtorEq, false_iff]
      rintro ⟨rfl, -⟩
      exact htext t rfl

theorem parse_eq_ok {kind : Kind} {parameters : Parameters} :
    Parameters.parse kind v position = .ok parameters ↔
      parameters.kind = kind ∧ HoldsParameters v parameters := by
  have hword : ∀ {interval},
      requiredAs (fun v => v.text?.bind Interval.ofWord?) .intervalWord v "interval" position =
        .ok interval ↔ v.member? "interval" = some (.string interval.word) := by
    intro interval
    rw [requiredAs_eq_ok rfl]
    simp only [word_eq_some]
    exact ⟨fun ⟨w, hw, h⟩ => h ▸ hw, fun h => ⟨_, h, rfl⟩⟩
  have hpositive : ∀ {field n},
      requiredAs positive? .positiveInteger v field position = .ok n ↔ HoldsPositive v field n := by
    intro field n
    rw [requiredAs_eq_ok rfl]
    simp only [positive?_eq_some]
    exact ⟨fun ⟨w, hw, h, hpos⟩ => ⟨h ▸ hw, hpos⟩, fun h => ⟨_, h.1, rfl, h.2⟩⟩
  have htext : ∀ {t}, requiredAs trimmedText? .nonEmptyString v "target" position = .ok t ↔
      ∃ s, v.member? "target" = some (.string s) ∧ Text.trim s = t ∧ t ≠ "" := by
    intro t
    rw [requiredAs_eq_ok rfl]
    simp only [trimmedText?_eq_some]
    exact ⟨fun ⟨w, hw, s, h, ht⟩ => ⟨s, h ▸ hw, ht⟩, fun ⟨s, hs, ht⟩ => ⟨_, hs, s, rfl, ht⟩⟩
  cases kind with
  | timeSeries =>
    simp only [Parameters.parse, bind_eq_ok, hword, hpositive]
    constructor
    · rintro ⟨interval, hinterval, span, hspan, h⟩
      cases h
      exact ⟨rfl, hinterval, hspan⟩
    · rintro ⟨hkind, hholds⟩
      cases parameters with
      | timeSeries interval span => exact ⟨interval, hholds.1, span, hholds.2, rfl⟩
      | freqDist target threshold => cases hkind
  | freqDist =>
    simp only [Parameters.parse, bind_eq_ok, htext, hpositive]
    constructor
    · rintro ⟨target, htarget, threshold, hthreshold, h⟩
      cases h
      exact ⟨rfl, htarget, hthreshold⟩
    · rintro ⟨hkind, hholds⟩
      cases parameters with
      | timeSeries interval span => cases hkind
      | freqDist target threshold => exact ⟨target, hholds.1, threshold, hholds.2, rfl⟩

/-- The accepted objects are those that describe an analysis. -/
theorem compileSpec_eq_ok {kind : Kind} {spec : Spec} :
    compileSpec kind v position = .ok spec ↔ Describes kind v spec := by
  constructor
  · intro h
    cases v with
    | object members =>
      simp only [compileSpec, bind_eq_ok] at h
      obtain ⟨parameters, hparameters, name, hname, filter, hfilter, h⟩ := h
      cases h
      obtain ⟨hkind, hholds⟩ := parse_eq_ok.1 hparameters
      exact ⟨⟨members, rfl⟩, hkind, hkind, hholds, optionalText_eq_ok.1 hname, optionalText_eq_ok.1 hfilter⟩
    | _ => cases h
  · rintro ⟨⟨members, rfl⟩, hkind, hown, hparameters, hname, hfilter⟩
    have hparse : Parameters.parse kind (.object members) position = .ok spec.parameters :=
      parse_eq_ok.2 ⟨hown, hparameters⟩
    simp only [compileSpec, bind_eq_ok]
    refine ⟨_, hparse, _, optionalText_eq_ok.2 hname, _, optionalText_eq_ok.2 hfilter, ?_⟩
    rw [hown, ← hkind]
    rfl

/-! ## Chains -/

/-- The analyses that follow one another from an object on: the last is followed by nothing. -/
inductive Follows (kind : Kind) : Value → List Spec → Prop where
  | last {v : Value} {spec : Spec} (describes : Describes kind v spec) (ends : follow? v = none) :
      Follows kind v [spec]
  | link {v child : Value} {spec : Spec} {specs : List Spec} (describes : Describes kind v spec)
      (goesOn : follow? v = some child) (behind : Follows kind child specs) :
      Follows kind v (spec :: specs)

/-- The leaves of analyses from a place on, one `then` link after the other. -/
def leavesAlong (first : Nat) (place : Place) : List Spec → List Leaf
  | [] => []
  | spec :: specs =>
    .of (first + place.depth) place.label spec :: leavesAlong first place.next specs

/-- A chain is compiled where every link describes an analysis. -/
theorem chainBehind_eq_ok {kind : Kind} {first : Nat} {place : Place} {front : List Leaf} {v : Value}
    {chain : Chain} : chainBehind kind first place front v = .ok chain ↔
      ∃ specs, Follows kind v specs ∧ chain.toList = front.reverse ++ leavesAlong first place specs := by
  constructor
  · -- The compiler goes from link to link, and `front` holds what it has passed.
    intro h
    fun_induction chainBehind kind first place front v with
    | case1 => cases h
    | case2 place front v spec hspec leaf hnone =>
      cases h
      exact ⟨[spec], .last (compileSpec_eq_ok.1 hspec) hnone, Chain.toList_prepend front _⟩
    | case3 place front v spec hspec leaf child hchild ih =>
      obtain ⟨specs, hspecs, hchain⟩ := ih h
      refine ⟨spec :: specs, .link (compileSpec_eq_ok.1 hspec) hchild hspecs, ?_⟩
      rw [hchain, List.reverse_cons, List.append_assoc]
      rfl
  · rintro ⟨specs, hspecs, hchain⟩
    induction hspecs generalizing place front with
    | last hspec hends =>
      unfold chainBehind
      rw [compileSpec_eq_ok.2 hspec]
      dsimp only
      split
      · refine congrArg Except.ok (Chain.toList_injective ?_)
        rw [hchain, Chain.toList_prepend]
        rfl
      · rename_i child hchild
        rw [hends] at hchild
        cases hchild
    | @link v child spec specs hspec hgoesOn hbehind ih =>
      -- The leaf of this link joins those in front, and the rest is compiled behind it.
      unfold chainBehind
      rw [compileSpec_eq_ok.2 hspec]
      dsimp only
      split
      · rename_i hnone
        rw [hgoesOn] at hnone
        cases hnone
      · rename_i child' hchild
        rw [hgoesOn] at hchild
        cases hchild
        apply ih
        rw [hchain, List.reverse_cons, List.append_assoc]
        rfl

theorem compileChain_eq_ok {kind : Kind} {first : Nat} {place : Place} {v : Value} {chain : Chain} :
    compileChain kind first place v = .ok chain ↔
      ∃ specs, Follows kind v specs ∧ chain.toList = leavesAlong first place specs :=
  chainBehind_eq_ok

/-- A chain is compiled wherever it stands, if it is anywhere. -/
theorem compileChain_isOk {kind : Kind} {first : Nat} {place : Place} {v : Value} :
    (∃ chain, compileChain kind first place v = .ok chain) ↔ ∃ specs, Follows kind v specs := by
  constructor
  · rintro ⟨chain, hchain⟩
    obtain ⟨specs, hspecs, -⟩ := compileChain_eq_ok.1 hchain
    exact ⟨specs, hspecs⟩
  · rintro ⟨specs, hspecs⟩
    have hne : leavesAlong first place specs ≠ [] := by
      cases hspecs <;> simp [leavesAlong]
    obtain ⟨leaf, leaves, hleaves⟩ := List.exists_cons_of_ne_nil hne
    refine ⟨Chain.ofLeaves leaf leaves, compileChain_eq_ok.2 ⟨specs, hspecs, ?_⟩⟩
    rw [Chain.toList_ofLeaves, hleaves]

/-! ## Entries and tasks -/

variable {kind : Kind} {index first slot : Nat} {rest : List Value}

theorem compileMembers_cons_eq_ok {chains : List Chain} :
    compileMembers kind index first slot (v :: rest) = .ok chains ↔
      (∀ items, v ≠ .array items) ∧ ∃ chain behind,
        compileChain kind first ⟨kind.key, index, some slot, 0⟩ v = .ok chain ∧
        compileMembers kind index (first + chain.length) (slot + 1) rest = .ok behind ∧
        chains = chain :: behind := by
  cases v with
  | array items => simp [compileMembers]
  | _ =>
    simp only [compileMembers]
    split
    · rename_i hchain
      simp [hchain]
    · rename_i chain hchain
      split
      · rename_i hbehind
        simp [hchain, hbehind]
      · rename_i behind hbehind
        simp [hchain, hbehind, eq_comm]

theorem compileNode_eq_ok {node : Node} : compileNode kind index first v = .ok node ↔
    (∃ items chains, v = .array items ∧ items ≠ [] ∧
      compileMembers kind index first 0 items = .ok chains ∧ node = .group chains) ∨
    ((∀ items, v ≠ .array items) ∧ ∃ chain,
      compileChain kind first ⟨kind.key, index, none, 0⟩ v = .ok chain ∧ node = .single chain) := by
  cases v with
  | array items =>
    cases items with
    | nil => simp [compileNode]
    | cons item items => simp [compileNode, map_eq_ok]
  | _ => simp [compileNode, map_eq_ok]

/-- The entries that the value of a key stands for. -/
def elements : Value → List Value
  | .array items => items
  | v => [v]

theorem entriesOf_eq_ok {key : String} {items : List Value} :
    entriesOf key v = .ok items ↔ items = elements v ∧ elements v ≠ [] := by
  cases v with
  | array items' => cases items' <;> simp [entriesOf, elements, eq_comm]
  | _ => simp [entriesOf, elements, eq_comm]

theorem compileEntries_cons_eq_ok {tasks : List Task} :
    compileEntries kind index first (v :: rest) = .ok tasks ↔ ∃ node others,
      compileNode kind index first v = .ok node ∧
      compileEntries kind (index + 1) (first + node.leafCount) rest = .ok others ∧
      tasks = ⟨kind, index, Place.entryLabel kind.key index, node⟩ :: others := by
  simp only [compileEntries]
  split
  · rename_i hnode
    simp [hnode]
  · rename_i node hnode
    split
    · rename_i hothers
      simp [hnode, hothers]
    · rename_i others hothers
      simp [hnode, hothers, eq_comm]

/-- The number of leaves of tasks. -/
def leafTotal (tasks : List Task) : Nat := (tasks.map fun t => t.node.leafCount).foldr (· + ·) 0

theorem compileTasks_cons_eq_ok {key : String} {entries : List (String × Value)} {tasks : List Task} :
    compileTasks first ((key, v) :: entries) = .ok tasks ↔ ∃ kind own others,
      Kind.ofKey? key = some kind ∧ elements v ≠ [] ∧
      compileEntries kind 0 first (elements v) = .ok own ∧
      compileTasks (first + leafTotal own) entries = .ok others ∧ tasks = own ++ others := by
  simp only [compileTasks]
  cases hkind : Kind.ofKey? key with
  | none => simp
  | some kind =>
    simp only [bind_eq_ok, entriesOf_eq_ok]
    constructor
    · rintro ⟨items, ⟨rfl, hne⟩, own, hown, others, hothers, h⟩
      cases h
      exact ⟨kind, own, others, rfl, hne, hown, hothers, rfl⟩
    · rintro ⟨kind', own, others, hsame, hne, hown, hothers, rfl⟩
      cases hsame
      exact ⟨elements v, ⟨rfl, hne⟩, own, hown, others, hothers, rfl⟩

end Config

/-- A configuration is compiled if it has entries that are, and their chains are registered. -/
theorem Graph.compile_eq_ok {config : Value} {graph : Graph} :
    Graph.compile config = .ok graph ↔ ∃ entries, config.entries? = some entries ∧ entries ≠ [] ∧
      Config.compileTasks 0 entries = .ok graph.tasks ∧
      Config.register .empty graph.chains = .ok graph.lineage := by
  unfold Graph.compile
  split
  · rename_i hnone
    simp [hnone]
  · rename_i hempty
    simp [hempty]
  · rename_i entries hne hentries
    simp only [bind_eq_ok, hentries, Option.some.injEq]
    constructor
    · rintro ⟨tasks, htasks, lineage, hlineage, h⟩
      cases h
      refine ⟨entries, rfl, ?_, htasks, hlineage⟩
      rintro rfl
      exact hne rfl
    · rintro ⟨_, rfl, -, htasks, hlineage⟩
      exact ⟨graph.tasks, htasks, graph.lineage, hlineage, rfl⟩

end Inquiry
