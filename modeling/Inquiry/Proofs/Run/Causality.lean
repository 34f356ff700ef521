import Mathlib.Data.List.Nodup
import Inquiry.Proofs.Run.Chronicle
import Inquiry.Proofs.Task.Entry
import Inquiry.Proofs.Task.Numbering

/-!
# Proofs.Run.Causality — a link is called after the one in front of it

What a run records of the calls of a chain is the chronicle of one chain by itself, however the calls of
others come in between, and whenever the run is interrupted.

* `Strand.Tells`: a strand knows how far the record of its chain has come.
* `State.Chronicled`: every strand does; `Course.chronicled`: every course keeps that.
* `State.Chronicled.causal`: each leaf is called at most once, and behind the head of its chain only with
  the result of the leaf in front of it.
-/

namespace Inquiry
namespace Run

/-! ## The record of a chain -/

/-- Whether an event is about the call of one of some leaves. -/
def Event.concerns (leaves : List Leaf) (event : Event) : Bool := event.calls?.any leaves.contains

theorem Event.concerns_iff {leaves : List Leaf} {event : Event} :
    event.concerns leaves = true ↔ ∃ leaf ∈ leaves, event.calls? = some leaf := by
  unfold concerns
  cases event.calls? <;> simp

/-- How far the record of its chain has come when a strand is in its phase. -/
def Strand.Tells (leaves : List Leaf) (strand : Strand) (events : List Event) : Prop :=
  match strand.phase with
  | .ready link rest => Told none leaves events strand.context (link :: rest)
  | .waiting _ link rest => Told none leaves events strand.context (link :: rest)
  | .granted link rest => Told none leaves events strand.context (link :: rest)
  | .holding link rest => Told none leaves events strand.context (link :: rest)
  | .calling _ link rest _ _ => ∃ past, events = past ++ [.began link strand.context] ∧
      Told none leaves past strand.context (link :: rest)
  | _ => Chronicle none leaves events

namespace Strand.Tells

variable {leaves : List Leaf} {strand : Strand} {events : List Event}

theorem chronicle (h : strand.Tells leaves events) : Chronicle none leaves events := by
  have htold : ∀ {link rest}, Told none leaves events strand.context (link :: rest) →
      Chronicle none leaves events := by
    intro link rest h
    simpa using h.chronicle .none
  unfold Tells at h
  split at h
  · exact htold h
  · exact htold h
  · exact htold h
  · exact htold h
  · obtain ⟨past, rfl, hpast⟩ := h
    exact hpast.chronicle .inFlight
  · exact h

theorem calling_mem (h : strand.Tells leaves events) {ticket : Nat} {link : Leaf} {rest : List Leaf}
    {ends : Nat} {ending : Ending} (hp : strand.phase = .calling ticket link rest ends ending) :
    link ∈ leaves := by
  simp only [Tells, hp] at h
  obtain ⟨past, -, htold⟩ := h
  exact htold.suffix.subset List.mem_cons_self

theorem holding_mem (h : strand.Tells leaves events) {link : Leaf} {rest : List Leaf}
    (hp : strand.phase = .holding link rest) : link ∈ leaves := by
  simp only [Tells, hp] at h
  exact h.suffix.subset List.mem_cons_self

/-- The call of a link starts. -/
theorem launch (h : strand.Tells leaves events) {ticket : Nat} {link : Leaf} {rest : List Leaf} {ends : Nat}
    {ending : Ending} (hp : strand.phase = .holding link rest) :
    ({ strand with phase := .calling ticket link rest ends ending } : Strand).Tells leaves
      (events ++ [.began link strand.context]) := by
  simp only [Tells, hp] at h
  exact ⟨events, rfl, h⟩

/-- The call of a link ends. -/
theorem conclude (h : strand.Tells leaves events) (setup : Setup) {ticket : Nat} {link : Leaf}
    {rest : List Leaf} {ends : Nat} {ending : Ending}
    (hp : strand.phase = .calling ticket link rest ends ending) :
    (strand.conclude setup link rest ending).Tells leaves (events ++ [ending.event link]) := by
  simp only [Tells, hp] at h
  obtain ⟨past, rfl, htold⟩ := h
  have hspoiled : ∀ {event : Event}, event.Spoils link →
      Chronicle none leaves (past ++ [.began link strand.context] ++ [event]) := by
    intro event hspoils
    rw [List.append_assoc]
    exact htold.chronicle (.spoiled hspoils)
  rcases ending with answer | _
  · rcases answer with r | e | message
    · have hnext := htold.snoc r
      rw [← List.singleton_append, ← List.append_assoc] at hnext
      cases rest with
      | nil =>
        have hdone := hnext.chronicle .none
        rw [List.append_nil] at hdone
        exact hdone
      | cons next rest => exact hnext
    · exact hspoiled (by rfl)
    · exact hspoiled (by rfl)
  · exact hspoiled (by rfl)

/-- A strand is given up. -/
theorem giveUp (h : strand.Tells leaves events) :
    ({ strand with phase := strand.phase.giveUp } : Strand).Tells leaves
      (events ++ (strand.phase.farewell?.toList.filter (Event.concerns leaves))) := by
  have hchronicle := h.chronicle
  cases hp : strand.phase with
  | calling ticket link rest ends ending =>
    have hmem := h.calling_mem hp
    have hconcerns : (Event.cutOff link).concerns leaves = true := Event.concerns_iff.2 ⟨link, hmem, rfl⟩
    simp only [Tells, hp] at h
    obtain ⟨past, rfl, htold⟩ := h
    have hspoiled := htold.chronicle (.spoiled (show (Event.cutOff link).Spoils link from rfl))
    simpa [Tells, Phase.giveUp, Phase.isOver, Phase.farewell?, hconcerns] using hspoiled
  | _ =>
    simpa [Tells, Phase.giveUp, Phase.isOver, Phase.farewell?, Event.concerns, Event.calls?] using hchronicle

end Strand.Tells

namespace State

/-- What is recorded of the calls of some leaves, in the order of time. -/
def callsOf (s : State) (leaves : List Leaf) : List Event :=
  ((s.log.map Stamped.event).filter (Event.concerns leaves)).reverse

variable {s t : State} {leaves : List Leaf}

theorem callsOf_append {events : List Event} {time : Nat}
    (h : t.log = events.map (Stamped.mk time) ++ s.log) :
    t.callsOf leaves = s.callsOf leaves ++ (events.filter (Event.concerns leaves)).reverse := by
  rw [callsOf, callsOf, h, List.map_append, List.map_map, List.filter_append, List.reverse_append]
  simp [Function.comp_def]

theorem callsOf_cons {time : Nat} {event : Event} (h : t.log = ⟨time, event⟩ :: s.log) (leaves : List Leaf) :
    t.callsOf leaves = s.callsOf leaves ++ if event.concerns leaves then [event] else [] := by
  rw [callsOf_append (show t.log = [event].map (Stamped.mk time) ++ s.log from h)]
  cases hconcerns : event.concerns leaves <;> simp [hconcerns]

/-- Every strand knows how far the record of its chain has come, and nothing else is called. -/
structure Chronicled (chains : List Chain) (s : State) : Prop where
  length : s.strands.length = chains.length
  known : ∀ e ∈ s.log, ∀ leaf, e.event.calls? = some leaf → ∃ chain ∈ chains, leaf ∈ chain.toList
  tells : ∀ (i : Nat) (chain : Chain) (strand : Strand),
    chains[i]? = some chain → s.strands[i]? = some strand →
    strand.Tells chain.toList (s.callsOf chain.toList)

end State

/-- No leaf is in two chains, or in one chain twice. -/
abbrev Distinct (chains : List Chain) : Prop := (chains.flatMap Chain.ids).Nodup

namespace Distinct

variable {chains : List Chain}

theorem of_compile {config : Json.Value} {graph : Graph} (h : Graph.compile config = .ok graph) :
    Distinct graph.chains := by
  rw [Distinct, Graph.compile_ids h]
  exact List.nodup_range'

theorem ids_nodup (h : Distinct chains) {chain : Chain} (hchain : chain ∈ chains) : chain.ids.Nodup :=
  (List.nodup_flatMap.1 h).1 chain hchain

theorem leaves_nodup (h : Distinct chains) {chain : Chain} (hchain : chain ∈ chains) : chain.toList.Nodup :=
  (h.ids_nodup hchain).of_map _

theorem index_eq (h : Distinct chains) {i j : Nat} {c d : Chain} (hi : chains[i]? = some c)
    (hj : chains[j]? = some d) {leaf leaf' : Leaf} (hc : leaf ∈ c.toList) (hd : leaf' ∈ d.toList)
    (hid : leaf.id = leaf'.id) : i = j := by
  by_contra hne
  have hpairwise := (List.nodup_flatMap.1 h).2
  have hdisjoint : ∀ {i j : Nat} {c d : Chain}, chains[i]? = some c → chains[j]? = some d → i < j →
      ∀ x, x ∈ c.ids → x ∉ d.ids := by
    intro i j c d hi hj hlt x hxc hxd
    obtain ⟨hilt, rfl⟩ := List.getElem?_eq_some_iff.1 hi
    obtain ⟨hjlt, rfl⟩ := List.getElem?_eq_some_iff.1 hj
    exact List.pairwise_iff_getElem.1 hpairwise i j hilt hjlt hlt hxc hxd
  have hcid : leaf.id ∈ c.ids := List.mem_map_of_mem hc
  have hdid : leaf.id ∈ d.ids := hid ▸ List.mem_map_of_mem hd
  rcases Nat.lt_or_gt_of_ne hne with hlt | hgt
  · exact hdisjoint hi hj hlt _ hcid hdid
  · exact hdisjoint hj hi hgt _ hdid hcid

/-- Leaves of one number are the same leaf. -/
theorem leaf_eq (h : Distinct chains) {i j : Nat} {c d : Chain} (hi : chains[i]? = some c)
    (hj : chains[j]? = some d) {leaf leaf' : Leaf} (hc : leaf ∈ c.toList) (hd : leaf' ∈ d.toList)
    (hid : leaf.id = leaf'.id) : leaf = leaf' := by
  obtain rfl := h.index_eq hi hj hc hd hid
  rw [hi] at hj
  cases hj
  exact List.inj_on_of_nodup_map (h.ids_nodup (List.mem_of_getElem? hi)) hc hd hid

end Distinct

/-! ## Every course is told as it is -/

theorem filterMap_filter_single {α β : Type} {p : β → Bool} {f : α → Option β} {l : List α} {j : Nat} {x : α}
    (hj : l[j]? = some x)
    (hother : ∀ k y, k ≠ j → l[k]? = some y → ∀ e, f y = some e → p e = false) :
    (l.filterMap f).filter p = (f x).toList.filter p := by
  have hnone : ∀ l : List α, (∀ y ∈ l, ∀ e, f y = some e → p e = false) → (l.filterMap f).filter p = [] := by
    intro l hl
    refine List.filter_eq_nil_iff.2 fun e he => ?_
    obtain ⟨y, hy, hfe⟩ := List.mem_filterMap.1 he
    simp [hl y hy e hfe]
  induction l generalizing j with
  | nil => simp at hj
  | cons first l ih =>
    cases j with
    | zero =>
      obtain rfl : first = x := by simpa using hj
      have hrest := hnone l fun y hy e hfe => by
        obtain ⟨k, hk⟩ := List.mem_iff_getElem?.1 hy
        exact hother (k + 1) y (by simp) (by simpa using hk) e hfe
      rw [List.filterMap_cons]
      cases f first with
      | none => simpa using hrest
      | some e => simp [List.filter_cons, hrest]
    | succ j =>
      have hrest := ih (by simpa using hj) fun k y hk hy e hfe =>
        hother (k + 1) y (by omega) (by simpa using hy) e hfe
      rw [List.filterMap_cons]
      cases hfirst : f first with
      | none => simpa using hrest
      | some e => simp [hrest, hother 0 first (by simp) rfl e hfirst]

/-- Giving up a phase ends a call only if the call is under way. -/
theorem Phase.farewell?_calls {phase : Phase} {event : Event} {leaf : Leaf} (h : phase.farewell? = some event)
    (hleaf : event.calls? = some leaf) :
    ∃ ticket rest ends ending, phase = .calling ticket leaf rest ends ending := by
  cases phase with
  | calling =>
    cases h
    cases hleaf
    exact ⟨_, _, _, _, rfl⟩
  | _ =>
    cases h
    try cases hleaf

/-- The event by which a strand is given up with a task, if it is. -/
def Strand.farewell? (task : Nat) (strand : Strand) : Option Event :=
  if strand.task == task then strand.phase.farewell? else none

theorem State.withdraw_log_farewells (s : State) (task : Nat) : (s.withdraw task).log =
    (s.strands.filterMap (Strand.farewell? task)).reverse.map (Stamped.mk s.now) ++ s.log := by
  have hsame : (s.strandsOf task).filterMap (·.phase.farewell?) =
      s.strands.filterMap (Strand.farewell? task) := by
    rw [strandsOf, List.filterMap_filter]
    rfl
  rw [s.withdraw_log task, hsame]

namespace State.Chronicled

variable {chains : List Chain} {s t : State} {i : Nat} {a b : Strand}

theorem chain_at (hs : s.Chronicled chains) (hi : s.strands[i]? = some a) :
    ∃ chain, chains[i]? = some chain ∧ a.Tells chain.toList (s.callsOf chain.toList) := by
  have hlt : i < chains.length := hs.length ▸ (List.getElem?_eq_some_iff.1 hi).1
  exact ⟨chains[i], List.getElem?_eq_getElem hlt, hs.tells i _ a (List.getElem?_eq_getElem hlt) hi⟩

/-- A strand passes on, and no call starts or ends. -/
theorem pass (hs : s.Chronicled chains) (hi : s.strands[i]? = some a) (ht : t.strands = s.strands.set i b)
    (hlog : t.log = s.log) (hb : ∀ leaves events, a.Tells leaves events → b.Tells leaves events) :
    t.Chronicled chains where
  length := by rw [ht, List.length_set, hs.length]
  known := hlog ▸ hs.known
  tells j chain strand hchain hstrand := by
    have hcalls : t.callsOf chain.toList = s.callsOf chain.toList := by rw [callsOf, callsOf, hlog]
    rw [hcalls]
    rw [ht] at hstrand
    rcases getElem?_set_cases hstrand with ⟨rfl, rfl⟩ | ⟨-, hstrand⟩
    · exact hb _ _ (hs.tells i chain a hchain hi)
    · exact hs.tells j chain strand hchain hstrand

/-- Something is recorded that is not about a call. -/
theorem quiet (hs : s.Chronicled chains) (ht : t.strands = s.strands)
    (h : s.Extends (·.calls? = none) t) : t.Chronicled chains := by
  obtain ⟨events, hevents, hlog⟩ := h
  refine ⟨by rw [ht, hs.length], ?_, ?_⟩
  · intro e he leaf hleaf
    rw [hlog] at he
    rcases List.mem_append.1 he with he | he
    · obtain ⟨event, hevent, rfl⟩ := List.mem_map.1 he
      have hnone : event.calls? = none := hevents event hevent
      rw [show event.calls? = some leaf from hleaf] at hnone
      cases hnone
    · exact hs.known e he leaf hleaf
  · intro j chain strand hchain hstrand
    have hnone : events.filter (Event.concerns chain.toList) = [] := by
      refine List.filter_eq_nil_iff.2 fun event hevent => ?_
      simp [Event.concerns, hevents event hevent]
    rw [callsOf_append hlog, hnone, List.reverse_nil, List.append_nil]
    exact hs.tells j chain strand hchain (ht ▸ hstrand)

/-- The call of a link of a strand starts or ends. -/
theorem call (hs : s.Chronicled chains) (hd : Distinct chains) (hi : s.strands[i]? = some a)
    (ht : t.strands = s.strands.set i b) {time : Nat} {event : Event} {link : Leaf}
    (hlog : t.log = ⟨time, event⟩ :: s.log) (hevent : event.calls? = some link)
    (hlink : ∀ leaves events, a.Tells leaves events → link ∈ leaves)
    (hb : ∀ leaves events, a.Tells leaves events → b.Tells leaves (events ++ [event])) :
    t.Chronicled chains := by
  obtain ⟨own, hown, htells⟩ := hs.chain_at hi
  have hmem : link ∈ own.toList := hlink _ _ htells
  refine ⟨by rw [ht, List.length_set, hs.length], ?_, ?_⟩
  · intro e he leaf hleaf
    rw [hlog] at he
    rcases List.mem_cons.1 he with rfl | he
    · obtain rfl : link = leaf := Option.some.inj (hevent.symm.trans hleaf)
      exact ⟨own, List.mem_of_getElem? hown, hmem⟩
    · exact hs.known e he leaf hleaf
  · intro j chain strand hchain hstrand
    rw [ht] at hstrand
    rw [callsOf_cons hlog]
    rcases getElem?_set_cases hstrand with ⟨rfl, rfl⟩ | ⟨hij, hstrand⟩
    · rw [hown] at hchain
      cases hchain
      rw [if_pos (Event.concerns_iff.2 ⟨link, hmem, hevent⟩)]
      exact hb _ _ htells
    · -- The leaf belongs to no other chain.
      have hnot : ¬ event.concerns chain.toList = true := by
        intro hconcerns
        obtain ⟨leaf, hleaf, hsame⟩ := Event.concerns_iff.1 hconcerns
        obtain rfl : link = leaf := Option.some.inj (hevent.symm.trans hsame)
        exact hij (hd.index_eq hown hchain hmem hleaf rfl)
      rw [if_neg hnot, List.append_nil]
      exact hs.tells j chain strand hchain hstrand

theorem alike (hs : s.Chronicled chains) (h : Alike s t) : t.Chronicled chains :=
  hs.quiet h.strands ⟨[], by simp, h.log⟩

theorem release (hs : s.Chronicled chains) : s.release.Chronicled chains := by
  rcases s.release_cases with ⟨i, strand, ticket, link, rest, hi, hp, heq⟩ | ⟨_, heq⟩
  · rw [heq]
    have hpass : (s.setPhase i strand (.granted link rest)).Chronicled chains :=
      hs.pass hi rfl rfl fun leaves events h => by
        simp only [Strand.Tells, hp] at h
        exact h
    have hhand : (s.hand i strand link rest).Chronicled chains :=
      hpass.quiet rfl (extends_record _ rfl)
    exact hhand.alike (wake_alike _ i)
  · rw [heq]
    exact ⟨hs.length, hs.known, hs.tells⟩

/-- A farewell is the end of the call of a link of its own chain, or of none. -/
theorem farewell_mem (hs : s.Chronicled chains) (task : Nat) {j : Nat} {strand : Strand} {chain : Chain}
    (hj : s.strands[j]? = some strand) (hchain : chains[j]? = some chain) {event : Event}
    (hevent : strand.farewell? task = some event) {leaf : Leaf} (hleaf : event.calls? = some leaf) :
    leaf ∈ chain.toList := by
  have htells := hs.tells j chain strand hchain hj
  simp only [Strand.farewell?, Option.ite_none_right_eq_some] at hevent
  obtain ⟨_, _, _, _, hp⟩ := Phase.farewell?_calls hevent.2 hleaf
  exact htells.calling_mem hp

/-- In the record of a chain there is no farewell but that of its own strand. -/
theorem callsOf_withdraw (hs : s.Chronicled chains) (hd : Distinct chains) (task : Nat) {j : Nat}
    {strand : Strand} {chain : Chain} (hj : s.strands[j]? = some strand) (hchain : chains[j]? = some chain) :
    (s.withdraw task).callsOf chain.toList = s.callsOf chain.toList ++
      (strand.farewell? task).toList.filter (Event.concerns chain.toList) := by
  have hsingle : (s.strands.filterMap (Strand.farewell? task)).filter (Event.concerns chain.toList) =
      (strand.farewell? task).toList.filter (Event.concerns chain.toList) := by
    refine filterMap_filter_single hj fun k other hk hother event hevent => ?_
    by_contra hconcerns
    obtain ⟨leaf, hleaf, hsame⟩ := Event.concerns_iff.1 (by simpa using hconcerns)
    obtain ⟨chain', hchain', -⟩ := hs.chain_at hother
    exact hk (hd.index_eq hchain' hchain (hs.farewell_mem task hother hchain' hevent hsame) hleaf rfl)
  rw [callsOf_append (s.withdraw_log_farewells task), List.filter_reverse, List.reverse_reverse, hsingle]

/-- What is left of a task is given up, and the calls that are cut off are recorded. -/
theorem withdraw (hs : s.Chronicled chains) (hd : Distinct chains) (task : Nat) :
    (s.withdraw task).Chronicled chains where
  length := by rw [State.withdraw, List.length_map, hs.length]
  known := by
    intro e he leaf hleaf
    rw [s.withdraw_log_farewells task] at he
    rcases List.mem_append.1 he with he | he
    · obtain ⟨event, hevent, rfl⟩ := List.mem_map.1 he
      obtain ⟨strand, hstrand, hsome⟩ := List.mem_filterMap.1 (List.mem_reverse.1 hevent)
      obtain ⟨j, hj⟩ := List.mem_iff_getElem?.1 hstrand
      obtain ⟨chain, hchain, -⟩ := hs.chain_at hj
      exact ⟨chain, List.mem_of_getElem? hchain, hs.farewell_mem task hj hchain hsome hleaf⟩
    · exact hs.known e he leaf hleaf
  tells := by
    intro j chain strand hchain hstrand
    obtain ⟨before, hbefore, rfl⟩ : ∃ before, s.strands[j]? = some before ∧
        (if before.task == task then { before with phase := before.phase.giveUp } else before) =
          strand := by
      simpa [State.withdraw] using hstrand
    have htells := hs.tells j chain before hchain hbefore
    rw [hs.callsOf_withdraw hd task hbefore hchain]
    simp only [Strand.farewell?]
    split
    · exact htells.giveUp
    · simpa using htells

theorem report (hs : s.Chronicled chains) (hd : Distinct chains) (task : Nat) (outcome : Outcome) :
    (s.report task outcome).Chronicled chains := by
  have hgiveUp : (s.giveUp task).Chronicled chains := by
    rw [giveUp_eq]
    -- How many permits are given back does not matter.
    generalize (s.strandsOf task).countP (·.phase.hasPermit) = n
    have hwithdraw := hs.withdraw hd task
    generalize s.withdraw task = u at hwithdraw
    induction n generalizing u with
    | zero => exact hwithdraw
    | succ n ih => exact ih u.release hwithdraw.release
  exact hgiveUp.quiet rfl (extends_record _ rfl)

end State.Chronicled

theorem Move.chronicled {setup : Setup} {chains : List Chain} {s t : State} (h : Move setup s t)
    (hd : Distinct chains) (hs : s.Chronicled chains) : t.Chronicled chains := by
  cases h with
  | @queue i strand link rest hi hp =>
    have hpass : ({ s.setPhase i strand (.waiting s.nextTicket link rest) with
        nextTicket := s.nextTicket + 1 } : State).Chronicled chains :=
      hs.pass hi rfl rfl fun leaves events h => by
        simp only [Strand.Tells, hp] at h
        exact h
    exact hpass.quiet rfl (State.extends_record _ rfl)
  | take hi hp =>
    exact hs.pass hi rfl rfl fun leaves events h => by
      simp only [Strand.Tells, hp] at h
      exact h
  | see hi hp =>
    exact hs.pass hi rfl rfl fun leaves events h => by
      simp only [Strand.Tells, hp] at h
      exact h
  | launch hi hp =>
    exact hs.call hd hi rfl rfl rfl (fun _ _ h => h.holding_mem hp) fun _ _ h => h.launch hp
  | @conclude i strand ticket link rest ends ending hi hp =>
    refine State.Chronicled.release ?_
    have hcalls : (ending.event link).calls? = some link := by cases ending <;> rfl
    exact hs.call hd hi rfl rfl hcalls (fun _ _ h => h.calling_mem hp) fun _ _ h => h.conclude setup hp
  | decide => exact hs.report hd _ _
  | elapse => exact ⟨hs.length, hs.known, hs.tells⟩
  | schedule h => exact hs.alike h

theorem Course.chronicled {setup : Setup} {chains : List Chain} {s t : State} (h : Course setup s t)
    (hd : Distinct chains) (hs : s.Chronicled chains) : t.Chronicled chains := by
  induction h with
  | refl => exact hs
  | tail _ hmove ih => exact hmove.chronicled hd ih

/-! ## The whole run -/

theorem strandsFrom_start (base : Nat) (tasks : List Task) :
    List.Forall₂ (fun chain strand => ∃ task, strand = Strand.start task chain)
      (tasks.flatMap (·.node.chains)) (strandsFrom base tasks) := by
  induction tasks generalizing base with
  | nil => exact .nil
  | cons t tasks ih =>
    rw [List.flatMap_cons, strandsFrom]
    refine List.rel_append ?_ (ih (base + 1))
    exact List.forall₂_map_right_iff.2 (List.forall₂_same.2 fun chain _ => ⟨base, rfl⟩)

namespace Setup

theorem start_chronicled (setup : Setup) : setup.start.Chronicled setup.graph.chains where
  length := (strandsFrom_start 0 setup.graph.tasks).length_eq.symm
  known e he := absurd he List.not_mem_nil
  tells i chain strand hchain hstrand := by
    obtain ⟨chain', hchain', task, rfl⟩ := forall₂_getElem? (strandsFrom_start 0 setup.graph.tasks) hstrand
    rw [show setup.graph.chains[i]? = some chain' from hchain'] at hchain
    cases hchain
    have htold : Told none chain.toList [] none (chain.head :: chain.toList.drop 1) := by
      rw [← chain.toList_eq_cons]
      exact .none
    exact htold

theorem finalState_chronicled (setup : Setup) (interruption : Interruption)
    (hd : Distinct setup.graph.chains) :
    (setup.finalState interruption).Chronicled setup.graph.chains := by
  have hrest := fun stop => (setup.course_rest stop).chronicled hd setup.start_chronicled
  unfold finalState
  split
  · exact hrest _
  · rename_i time _
    split
    · exact hrest _
    · have hs := hrest (some time)
      exact State.cancel_induction ⟨hs.length, hs.known, hs.tells⟩ fun _ task ht => ht.report hd task _

end Setup

/-- In a record each leaf is called after the one in front of it in its chain, and with its result. -/
structure Journal.Causal (chains : List Chain) (j : Journal) : Prop where
  /-- No leaf is called twice. -/
  once : (j.calls.map (·.leaf.id)).Nodup
  /-- Nothing but the leaves of the chains is called. -/
  known : ∀ call ∈ j.calls, ∃ chain ∈ chains, call.leaf ∈ chain.toList
  /-- The head of a chain is called without context. -/
  head : ∀ chain ∈ chains, ∀ call ∈ j.calls, call.leaf = chain.head → call.context = none
  /-- Another leaf is called after the call of the leaf in front of it has ended with a result, which is
  its context and the only answer to that call. -/
  parent : ∀ chain ∈ chains, ∀ front parent leaf rest, chain.toList = front ++ parent :: leaf :: rest →
    ∀ before time context after, j.events = before ++ ⟨time, .began leaf context⟩ :: after →
      ∃ r, context = some r ∧ (∃ e ∈ before, e.event = .answered parent (.result r)) ∧
        ∀ e ∈ j.events, ∀ answer, e.event = .answered parent answer → answer = .result r
  /-- Behind a leaf whose call ends without a result, or does not end, or never starts, no leaf is
  called. -/
  failure : ∀ chain ∈ chains, ∀ front leaf rest, chain.toList = front ++ leaf :: rest →
    (∃ e ∈ j.events, e.event.Spoils leaf) ∨ (∀ e ∈ j.events, ∀ r, e.event ≠ .answered leaf (.result r)) →
    ∀ later ∈ rest, ∀ call ∈ j.calls, call.leaf ≠ later

theorem Journal.exists_of_mem_calls {j : Journal} {call : Call} (h : call ∈ j.calls) :
    ∃ e ∈ j.events, e.event = .began call.leaf call.context := by
  obtain ⟨e, he, hcall⟩ := List.mem_filterMap.1 h
  cases hevent : e.event with
  | began leaf context =>
    rw [hevent] at hcall
    cases hcall
    exact ⟨e, he, hevent⟩
  | _ =>
    rw [hevent] at hcall
    cases hcall

theorem Journal.calls_ids (j : Journal) :
    j.calls.map (·.leaf.id) = (j.events.filterMap (·.event.began?)).map Leaf.id := by
  rw [Journal.calls, List.map_filterMap, List.map_filterMap]
  refine congrArg (j.events.filterMap ·) (funext fun stamped => ?_)
  cases stamped.event <;> rfl

namespace State.Chronicled

variable {chains : List Chain} {s : State}

theorem chronicle (hs : s.Chronicled chains) {chain : Chain} (hchain : chain ∈ chains) :
    Chronicle none chain.toList (s.callsOf chain.toList) := by
  obtain ⟨i, hi⟩ := List.mem_iff_getElem?.1 hchain
  have hlt : i < s.strands.length := hs.length.symm ▸ (List.getElem?_eq_some_iff.1 hi).1
  exact (hs.tells i chain _ hi (List.getElem?_eq_getElem hlt)).chronicle

theorem mem_callsOf {leaves : List Leaf} {e : Stamped} (he : e ∈ s.log) {leaf : Leaf}
    (hleaf : e.event.calls? = some leaf) (hmem : leaf ∈ leaves) : e.event ∈ s.callsOf leaves := by
  refine List.mem_reverse.2 (List.mem_filter.2 ⟨List.mem_map_of_mem he, ?_⟩)
  exact Event.concerns_iff.2 ⟨leaf, hmem, hleaf⟩

/-- The calls of some leaves that have started. -/
theorem began_callsOf (s : State) (leaves : List Leaf) :
    (s.callsOf leaves).filterMap Event.began? =
      ((s.log.filterMap (·.event.began?)).filter leaves.contains).reverse := by
  rw [callsOf, List.filterMap_reverse]
  refine congrArg List.reverse ?_
  induction s.log with
  | nil => rfl
  | cons e log ih =>
    rw [List.map_cons, List.filter_cons]
    cases hevent : e.event with
    | began leaf context =>
      rw [List.filterMap_cons_some (b := leaf) (by rw [hevent]; rfl), List.filter_cons]
      have hconcerns : (Event.began leaf context).concerns leaves = leaves.contains leaf := rfl
      rw [hconcerns]
      split
      · rw [List.filterMap_cons_some (f := Event.began?) rfl, ih]
      · exact ih
    | _ =>
      rw [List.filterMap_cons_none (f := fun e : Stamped => e.event.began?) (by rw [hevent]; rfl)]
      split
      · rw [List.filterMap_cons_none rfl]
        exact ih
      · exact ih

/-- No leaf is called twice. -/
theorem began_nodup (hs : s.Chronicled chains) (hd : Distinct chains) :
    ((s.log.filterMap (·.event.began?)).map Leaf.id).Nodup := by
  refine List.nodup_iff_sublist.2 fun id hsub => ?_
  obtain ⟨pair, hpair, hids⟩ := List.sublist_map_iff.1 hsub
  obtain ⟨first, second, rfl⟩ : ∃ first second, pair = [first, second] := by
    have hlength : pair.length = 2 := by simpa using (congrArg List.length hids).symm
    exact List.length_eq_two.1 hlength
  simp only [List.map_cons, List.map_nil, List.cons.injEq, and_true] at hids
  have hknown : ∀ leaf ∈ [first, second], ∃ chain ∈ chains, leaf ∈ chain.toList := by
    intro leaf hleaf
    obtain ⟨e, he, hbegan⟩ := List.mem_filterMap.1 (hpair.subset hleaf)
    refine hs.known e he leaf ?_
    cases hevent : e.event <;> rw [hevent] at hbegan <;> cases hbegan
    rfl
  obtain ⟨chain, hchain, hfirst⟩ := hknown first (by simp)
  obtain ⟨chain', hchain', hsecond⟩ := hknown second (by simp)
  obtain ⟨i, hi⟩ := List.mem_iff_getElem?.1 hchain
  obtain ⟨j, hj⟩ := List.mem_iff_getElem?.1 hchain'
  have hsame : first = second := hd.leaf_eq hi hj hfirst hsecond (hids.1.symm.trans hids.2)
  subst hsame
  -- Both calls are in the record of the one chain.
  have hfilter := hpair.filter chain.toList.contains
  have hboth : [first, first].filter chain.toList.contains = [first, first] := by simp [hfirst]
  have hbegan := began_callsOf s chain.toList
  have hnodup : ((s.callsOf chain.toList).filterMap Event.began?).Nodup :=
    (hs.chronicle hchain).began_links.sublist.nodup (hd.leaves_nodup hchain)
  rw [hbegan, (List.reverse_perm _).nodup_iff] at hnodup
  rw [hboth] at hfilter
  exact List.nodup_iff_sublist.1 hnodup first hfilter

theorem mem_callsOf_call {setup : Setup} {leaves : List Leaf} {call : Call}
    (hcall : call ∈ (Journal.mk setup s.log.reverse).calls) (hleaf : call.leaf ∈ leaves) :
    .began call.leaf call.context ∈ s.callsOf leaves := by
  obtain ⟨e, he, hevent⟩ := Journal.exists_of_mem_calls hcall
  rw [← hevent]
  exact mem_callsOf (List.mem_reverse.1 he) (by rw [hevent]; rfl) hleaf

/-- The record of some leaves is split where the whole record is. -/
theorem callsOf_split {leaves : List Leaf} {leaf : Leaf} {time : Nat} {context : Option Result}
    {before after : List Stamped} (hleaf : leaf ∈ leaves)
    (hlog : s.log.reverse = before ++ ⟨time, .began leaf context⟩ :: after) :
    s.callsOf leaves = (before.map Stamped.event).filter (Event.concerns leaves) ++ .began leaf context ::
      (after.map Stamped.event).filter (Event.concerns leaves) := by
  have hconcerns : (Event.began leaf context).concerns leaves = true :=
    Event.concerns_iff.2 ⟨leaf, hleaf, rfl⟩
  have hevents : (s.log.map Stamped.event).reverse =
      before.map Stamped.event ++ .began leaf context :: after.map Stamped.event := by
    rw [← List.map_reverse]
    simpa using congrArg (List.map Stamped.event) hlog
  calc s.callsOf leaves
    _ = (s.log.map Stamped.event).reverse.filter (Event.concerns leaves) := by
      rw [State.callsOf, List.filter_reverse]
    _ = (before.map Stamped.event).filter (Event.concerns leaves) ++ .began leaf context ::
        (after.map Stamped.event).filter (Event.concerns leaves) := by
      rw [hevents, List.filter_append, List.filter_cons_of_pos hconcerns]

theorem causal (setup : Setup) (hs : s.Chronicled chains) (hd : Distinct chains) :
    (Journal.mk setup s.log.reverse).Causal chains where
  once := by
    rw [Journal.calls_ids, List.filterMap_reverse, List.map_reverse]
    exact (List.reverse_perm _).nodup_iff.2 (hs.began_nodup hd)
  known := by
    intro call hcall
    obtain ⟨e, he, hevent⟩ := Journal.exists_of_mem_calls hcall
    exact hs.known e (List.mem_reverse.1 he) call.leaf (by rw [hevent]; rfl)
  head := by
    intro chain hchain call hcall hhead
    have hlinks := chain.toList_eq_cons
    have hchronicle := hs.chronicle hchain
    have hnodup := hd.leaves_nodup hchain
    have hleaf : call.leaf ∈ chain.toList := by
      rw [hhead, hlinks]
      exact List.mem_cons_self
    have hbegan := mem_callsOf_call hcall hleaf
    rw [hlinks] at hchronicle hnodup hbegan
    rw [hhead] at hbegan
    exact hchronicle.head_context hnodup hbegan
  parent := by
    intro chain hchain front parent leaf rest hsplit before time context after hevents
    have hmem : leaf ∈ chain.toList := by simp [hsplit]
    have hparent : parent ∈ chain.toList := by simp [hsplit]
    obtain ⟨r, hc, hanswered, hunique⟩ := (hs.chronicle hchain).parent_answered (hd.leaves_nodup hchain)
      hsplit (callsOf_split hmem hevents)
    refine ⟨r, hc, ?_, ?_⟩
    · obtain ⟨e, he, hevent⟩ := List.mem_map.1 (List.mem_filter.1 hanswered).1
      exact ⟨e, he, hevent⟩
    · intro e he answer hevent
      refine hunique answer ?_
      rw [← hevent]
      exact mem_callsOf (List.mem_reverse.1 he) (by rw [hevent]; rfl) hparent
  failure := by
    intro chain hchain front leaf rest hsplit hfailure later hlater call hcall heq
    have hchronicle := hs.chronicle hchain
    have hnodup := hd.leaves_nodup hchain
    have hbegan := mem_callsOf_call hcall (show call.leaf ∈ chain.toList by simp [heq, hsplit, hlater])
    rw [heq] at hbegan
    -- Either the leaf spoils its chain, or the record of the chain lacks its result.
    rcases hfailure with ⟨e, he, hspoils⟩ | hnone
    · have hleaf : leaf ∈ chain.toList := by simp [hsplit]
      have hin := mem_callsOf (List.mem_reverse.1 he) hspoils.calls? hleaf
      exact hchronicle.spoils_rest hnodup hsplit hin hspoils later hlater _ hbegan
    · obtain ⟨r, hr⟩ := hchronicle.result_of_began hnodup hsplit hlater hbegan
      obtain ⟨e, he, hevent⟩ := List.mem_map.1 (List.mem_filter.1 (List.mem_reverse.1 hr)).1
      exact hnone e (List.mem_reverse.2 he) r hevent

end State.Chronicled

/-- Whenever a run of a compiled configuration is interrupted, and whatever the backend does, each leaf has
been called at most once, and after the leaf in front of it. -/
theorem Setup.calls_follow_chains {config : Json.Value} {graph : Graph}
    (hgraph : Graph.compile config = .ok graph) (backend : Backend) (limits : Limits)
    (interruption : Interruption) :
    (Setup.run ⟨graph, backend, limits⟩ interruption).Causal graph.chains := by
  have hd : Distinct graph.chains := .of_compile hgraph
  exact (Setup.finalState_chronicled ⟨graph, backend, limits⟩ interruption hd).causal _ hd

/-- A configuration of one analysis with a follow-up. -/
def followUp : Json.Value :=
  let analysis := [("interval", .string "day"), ("span", .ofInt 1)]
  .object [("timeSeries", .object (analysis ++ [("then", .object analysis)]))]

/-- The chain of a configuration of one analysis with a follow-up. -/
def followUpChain : Chain :=
  let spec : Spec := ⟨.timeSeries, none, none, .timeSeries .day 1⟩
  .link (.of 0 "timeSeries[0]" spec) (.last (.of 1 "timeSeries[0].then" spec))

theorem compile_followUp : ∃ lineage, Graph.compile followUp =
    .ok ⟨[⟨.timeSeries, 0, "timeSeries[0]", .single followUpChain⟩], lineage⟩ := by
  obtain ⟨v, hmembers, hitems, hchain, hnode⟩ : ∃ v, followUp.entries? = some [("timeSeries", v)] ∧
      Config.entriesOf "timeSeries" v = .ok [v] ∧
      Config.compileChain .timeSeries 0 ⟨"timeSeries", 0, none, 0⟩ v = .ok followUpChain ∧
      Config.compileNode .timeSeries 0 0 v =
        (Config.compileChain .timeSeries 0 ⟨"timeSeries", 0, none, 0⟩ v).map .single := by
    refine ⟨_, rfl, rfl, ?_, rfl⟩
    unfold Config.compileChain Config.chainBehind Config.chainBehind
    rfl
  rw [hchain] at hnode
  exact ⟨_, Graph.compile_entry hmembers rfl hitems hnode rfl⟩

/-- The follow-up of an analysis that takes its time is called after it. -/
theorem Setup.calls_follow_chains_followUp : ∃ lineage,
    Graph.compile followUp = .ok ⟨[⟨.timeSeries, 0, "timeSeries[0]", .single followUpChain⟩], lineage⟩ ∧
    (Setup.run ⟨⟨[⟨.timeSeries, 0, "timeSeries[0]", .single followUpChain⟩], lineage⟩,
      fun leaf _ => ⟨10, .result (.ofRecords leaf.spec.parameters [])⟩, {}⟩
      { cancelAt := some 15 }).Causal [followUpChain] := by
  obtain ⟨lineage, hgraph⟩ := compile_followUp
  exact ⟨lineage, hgraph, Setup.calls_follow_chains hgraph _ _ _⟩

end Run
end Inquiry
