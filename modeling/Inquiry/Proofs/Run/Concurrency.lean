import Mathlib.Order.Bounds.Defs
import Inquiry.Proofs.Run.Duration
import Inquiry.Proofs.Run.LargeGroup
import Inquiry.Proofs.Task.Descent

/-!
# Proofs.Run.Concurrency — chains that run side by side

With a permit for every chain nobody waits. Then every call starts when those in front of it in its chain
have taken their time, and a task is reported as soon as its chains allow it.

* `Backend.evaluate_append`: the value of a chain, link by link.
* `State.Records`: what a move records.
* `Strand.Punctual`: a strand is where its chain by itself would be.
* `Setup.rest_onCourse`: all strands are, whenever a run comes to rest.
* `Setup.Concurrent`, `Setup.FailsOnTime`: when calls start, and when tasks are reported.
* `Setup.concurrent_iff`: groups of up to `smallSize` chains are reported when their first chain fails, and
  only those.
-/

namespace Inquiry
namespace Run

/-! ## The value of a chain, link by link -/

namespace Backend

variable {backend : Backend} {timeout : Nat}

/-- Links are called in the context of the last result in front of them. -/
theorem evaluate_append (context : Option Result) (front rest : List Leaf) :
    backend.evaluate timeout context (front ++ rest) =
      match backend.evaluate timeout context front with
      | .ok outputs => (backend.evaluate timeout ((outputs.getLast?.map LeafOutput.result).or context) rest).map
          (outputs ++ ·)
      | .error e => .error e := by
  induction front generalizing context with
  | nil =>
    simp only [List.nil_append, evaluate, List.getLast?_nil, Option.map_none, Option.none_or]
    cases backend.evaluate timeout context rest <;> rfl
  | cons leaf front ih =>
    simp only [List.cons_append, evaluate]
    cases backend.call timeout leaf context with
    | error e => rfl
    | ok r =>
      simp only [ih]
      cases hfront : backend.evaluate timeout (some r) front with
      | error e => rfl
      | ok outputs =>
        simp only [Except.map, List.getLast?_cons]
        have hcontext : ((some (outputs.getLast?.getD (LeafOutput.of leaf r))).map LeafOutput.result).or context =
            (outputs.getLast?.map LeafOutput.result).or (some r) := by
          cases outputs.getLast? <;> rfl
        rw [hcontext]
        cases backend.evaluate timeout ((outputs.getLast?.map LeafOutput.result).or (some r)) rest <;> rfl

/-- A chain that fails does so at one of its links, when those in front of it have had results. -/
theorem exists_of_evaluate_error {context : Option Result} {links : List Leaf} {e : TaskError}
    (h : backend.evaluate timeout context links = .error e) :
    ∃ front leaf rest outputs, links = front ++ leaf :: rest ∧
      backend.evaluate timeout context front = .ok outputs ∧
      backend.call timeout leaf ((outputs.getLast?.map LeafOutput.result).or context) = .error e := by
  induction links generalizing context with
  | nil => cases h
  | cons leaf links ih =>
    simp only [evaluate] at h
    cases hcall : backend.call timeout leaf context with
    | error e' =>
      simp only [hcall] at h
      cases h
      exact ⟨[], leaf, links, [], rfl, rfl, hcall⟩
    | ok r =>
      simp only [hcall] at h
      have hrest : backend.evaluate timeout (some r) links = .error e := by
        cases hlater : backend.evaluate timeout (some r) links with
        | ok outputs =>
          rw [hlater] at h
          cases h
        | error e' =>
          rw [hlater] at h
          cases h
          rfl
      obtain ⟨front, leaf', rest, outputs, rfl, hfront, hlast⟩ := ih hrest
      refine ⟨leaf :: front, leaf', rest, LeafOutput.of leaf r :: outputs, rfl, ?_, ?_⟩
      · simp only [evaluate, hcall, hfront]
        rfl
      · rw [List.getLast?_cons]
        cases hlast' : outputs.getLast? <;> rw [hlast'] at hlast <;> exact hlast

end Backend

/-! ## What a move records -/

namespace State

/-- What a move can record in a state. -/
inductive Records (setup : Setup) (s : State) : Event → Prop
  | queued {strand : Strand} {link : Leaf} {rest : List Leaf} (mem : strand ∈ s.strands)
      (phase : strand.phase = .ready link rest) (none_free : s.free = 0) : Records setup s (.queued link)
  | granted (link : Leaf) : Records setup s (.granted link)
  | began {strand : Strand} {link : Leaf} {rest : List Leaf} (mem : strand ∈ s.strands)
      (phase : strand.phase = .holding link rest) : Records setup s (.began link strand.context)
  | answered (link : Leaf) (answer : Answer) : Records setup s (.answered link answer)
  | timedOut (link : Leaf) : Records setup s (.timedOut link)
  | cutOff (link : Leaf) : Records setup s (.cutOff link)
  | withdrawn (link : Leaf) : Records setup s (.withdrawn link)
  | reported {task : Nat} {verdict : Verdict} (decided : verdict? (s.strandsOf task) = some verdict) :
      Records setup s (.reported task (outcomeOf setup task verdict))

variable {setup : Setup}

theorem Records.of_granted (s : State) {event : Event} (h : ∃ link, event = .granted link) :
    s.Records setup event := by
  obtain ⟨link, rfl⟩ := h
  exact .granted link

theorem giveUp_records (s : State) (task : Nat) : s.Extends (s.Records setup) (s.giveUp task) := by
  have hwithdraw : s.Extends (s.Records setup) (s.withdraw task) := by
    refine ⟨_, fun event hevent => ?_, s.withdraw_log task⟩
    obtain ⟨strand, -, hstrand⟩ := List.mem_filterMap.1 (List.mem_reverse.1 hevent)
    cases hp : strand.phase <;> rw [hp] at hstrand <;> cases hstrand
    case calling => exact .cutOff _
    all_goals exact .withdrawn _
  rw [giveUp_eq]
  exact hwithdraw.trans (s.withdraw_now task)
    ((extends_releaseAll _ _).mono fun _ h => .of_granted s h)

end State

theorem Move.records {setup : Setup} {s t : State} (h : Move setup s t) : s.Extends (s.Records setup) t := by
  cases h with
  | queue hi hp hfree => exact s.extends_record (.queued (List.mem_of_getElem? hi) hp hfree)
  | launch hi hp => exact s.extends_record (.began (List.mem_of_getElem? hi) hp)
  | @conclude i strand ticket link rest ends ending =>
    have hended : s.Extends (s.Records setup) (s.record (ending.event link)) := by
      cases ending with
      | answered answer => exact s.extends_record (.answered link answer)
      | timedOut => exact s.extends_record (.timedOut link)
    exact hended.trans rfl ((s.extends_conclude setup i strand link rest ending).mono
      fun _ h => .of_granted s h)
  | decide hverdict =>
    exact (s.giveUp_records _).trans (s.giveUp_now _) (State.extends_record _ (.reported hverdict))
  | schedule h => exact ⟨[], by simp, h.log⟩
  | _ => exact .refl s

/-! ## Nobody waits -/

/-- With a permit for every strand, one that has none finds a free one. -/
theorem State.Balanced.free_ne_zero {permits : Nat} {s : State} (hs : s.Balanced permits 0)
    (hpermits : s.strands.length ≤ permits) {strand : Strand} (hmem : strand ∈ s.strands)
    (hnone : strand.phase.hasPermit = false) : s.free ≠ 0 := by
  have hfewer : s.held < s.strands.length := by
    refine Nat.lt_of_le_of_ne List.countP_le_length fun hall => ?_
    have hholds := List.countP_eq_length.1 hall strand hmem
    rw [hnone] at hholds
    cases hholds
  have hsum := hs.sum
  omega

/-- With a permit for every chain no leaf ever waits. -/
theorem Course.unqueued {setup : Setup} {s : State} (h : Course setup setup.start s)
    (hpermits : setup.graph.chains.length ≤ setup.limits.permits) :
    ∀ e ∈ s.log, ∀ leaf, e.event ≠ .queued leaf := by
  induction h with
  | refl => exact fun e he => absurd he List.not_mem_nil
  | @tail s t hcourse hmove ih =>
    obtain ⟨events, hevents, hlog⟩ := hmove.records
    intro e he leaf heq
    rw [hlog] at he
    rcases List.mem_append.1 he with hnew | hold
    · obtain ⟨event, hevent, rfl⟩ := List.mem_map.1 hnew
      obtain rfl : event = .queued leaf := heq
      cases hevents _ hevent with
      | queued mem phase none_free =>
        refine (Course.balanced hcourse setup.start_balanced).free_ne_zero ?_ mem (by rw [phase]; rfl) none_free
        rwa [Course.strands_length hcourse]
    · exact ih e hold leaf heq

/-! ## Chains by themselves, in time -/

namespace Setup

/-- How long a call takes depends on its leaf only. -/
def Steady (setup : Setup) (delay : Leaf → Nat) : Prop :=
  ∀ leaf context, (setup.backend leaf context).delay = delay leaf

/-- The leaves of a chain in front of some links have been called one right after the other, and have had
results. -/
structure Gone (setup : Setup) (delay : Leaf → Nat) (chain : Chain) (front links : List Leaf)
    (outputs : List LeafOutput) (time : Nat) : Prop where
  split : chain.toList = front ++ links
  outputs : setup.backend.evaluate setup.limits.leafTimeout none front = .ok outputs.reverse
  time : time = (front.map delay).sum

/-- A chain by itself fails at a time: the leaves in front of one take their delays and have results, and
the call of that one fails when its own delay has passed, or its deadline. -/
def FailsAfter (setup : Setup) (delay : Leaf → Nat) (chain : Chain) (time : Nat) : Prop :=
  ∃ front leaf rest outputs e, chain.toList = front ++ leaf :: rest ∧
    setup.backend.evaluate setup.limits.leafTimeout none front = .ok outputs ∧
    setup.backend.call setup.limits.leafTimeout leaf (outputs.getLast?.map LeafOutput.result) = .error e ∧
    time = (front.map delay).sum + min (delay leaf) setup.limits.leafTimeout

variable {setup : Setup} {delay : Leaf → Nat} {chain : Chain} {front rest : List Leaf} {link : Leaf}
  {outputs : List LeafOutput} {time : Nat}

theorem Steady.duration (h : setup.Steady delay) (leaf : Leaf) (context : Option Result) :
    (setup.backend leaf context).duration setup.limits = min (delay leaf) setup.limits.leafTimeout := by
  rw [Behaviour.duration, h]

/-- A call that is answered has taken its whole delay. -/
theorem Steady.delay_le (h : setup.Steady delay) {leaf : Leaf} {context : Option Result} {r : Result}
    (hcall : setup.backend.call setup.limits.leafTimeout leaf context = .ok r) :
    delay leaf ≤ setup.limits.leafTimeout := by
  rw [← h leaf context]
  by_contra hlate
  simp only [Backend.call, if_neg hlate] at hcall
  cases hcall

namespace Gone

/-- One call more has a result. -/
theorem answered (h : setup.Gone delay chain front (link :: rest) outputs time) {r : Result}
    (hcall : setup.backend.call setup.limits.leafTimeout link (outputs.head?.map LeafOutput.result) = .ok r) :
    setup.Gone delay chain (front ++ [link]) rest (LeafOutput.of link r :: outputs) (time + delay link) where
  split := by rw [h.split, List.append_assoc, List.singleton_append]
  outputs := by
    have hlast : (outputs.reverse.getLast?.map LeafOutput.result).or none =
        outputs.head?.map LeafOutput.result := by
      rw [List.getLast?_reverse, Option.or_none]
    rw [Backend.evaluate_append, h.outputs]
    simp only [hlast, Backend.evaluate, hcall, Except.map, List.reverse_cons]
  time := by
    rw [h.time, List.map_append, List.sum_append]
    simp

theorem failsAfter (h : setup.Gone delay chain front (link :: rest) outputs time) {e : TaskError}
    (hcall : setup.backend.call setup.limits.leafTimeout link (outputs.head?.map LeafOutput.result) = .error e) :
    setup.FailsAfter delay chain (time + min (delay link) setup.limits.leafTimeout) := by
  refine ⟨front, link, rest, outputs.reverse, e, h.split, h.outputs, ?_, by rw [h.time]⟩
  rw [List.getLast?_reverse]
  exact hcall

/-- What is left of a chain begins no later than all of it ends. -/
theorem le_sum (h : setup.Gone delay chain front (link :: rest) outputs time) :
    time + min (delay link) setup.limits.leafTimeout ≤ (chain.toList.map delay).sum := by
  rw [h.split, h.time, List.map_append, List.sum_append, List.map_cons, List.sum_cons]
  have hmin := Nat.min_le_left (delay link) setup.limits.leafTimeout
  omega

/-- Before a chain by itself fails, its calls end no later than it fails. -/
theorem le_of_failsAfter (h : setup.Gone delay chain front (link :: rest) outputs time) {ended : Nat}
    (hfails : setup.FailsAfter delay chain ended) :
    time + min (delay link) setup.limits.leafTimeout ≤ ended := by
  obtain ⟨front', leaf, rest', outputs', e, hsplit, hfront, hcall, rfl⟩ := hfails
  -- One of the two parts in front is the beginning of the other; the part with results cannot reach
  -- beyond the call that fails.
  rcases List.append_eq_append_iff.1 (hsplit.symm.trans h.split) with ⟨more, hmore, hrest⟩ | ⟨more, hmore, hrest⟩
  · cases more with
    | nil =>
      obtain ⟨rfl, rfl⟩ : leaf = link ∧ rest' = rest := by simpa using hrest
      obtain rfl : front = front' := by simpa using hmore
      rw [h.time]
    | cons next more =>
      obtain ⟨rfl, -⟩ : leaf = next ∧ _ := by simpa using hrest
      exfalso
      have hvalue := h.outputs
      rw [hmore, Backend.evaluate_append, hfront] at hvalue
      simp only [Option.or_none, Backend.evaluate, hcall] at hvalue
      cases hvalue
  · cases more with
    | nil =>
      obtain ⟨rfl, rfl⟩ : link = leaf ∧ rest = rest' := by simpa using hrest
      obtain rfl : front' = front := by simpa using hmore
      rw [h.time]
    | cons next more =>
      obtain ⟨rfl, -⟩ : link = next ∧ _ := by simpa using hrest
      rw [h.time, hmore, List.map_append, List.sum_append, List.map_cons, List.sum_cons]
      have hmin := Nat.min_le_left (delay link) setup.limits.leafTimeout
      omega

end Gone

/-- A chain whose value is a failure fails at some time. -/
theorem exists_failsAfter (delay : Leaf → Nat) {e : TaskError}
    (h : setup.backend.chainValue setup.limits.leafTimeout chain = .error e) :
    ∃ time, setup.FailsAfter delay chain time := by
  obtain ⟨front, leaf, rest, outputs, hsplit, hfront, hcall⟩ := Backend.exists_of_evaluate_error h
  rw [Option.or_none] at hcall
  exact ⟨_, front, leaf, rest, outputs, e, hsplit, hfront, hcall, rfl⟩

/-- A chain that fails has no outputs. -/
theorem FailsAfter.value_ne_ok (h : setup.FailsAfter delay chain time) (outputs : List LeafOutput) :
    setup.backend.chainValue setup.limits.leafTimeout chain ≠ .ok outputs := by
  obtain ⟨front, leaf, rest, outputs', e, hsplit, hfront, hcall, -⟩ := h
  rw [Backend.chainValue, hsplit, Backend.evaluate_append, hfront]
  simp only [Option.or_none, Backend.evaluate, hcall]
  intro hok
  cases hok

end Setup

/-! ## Strands that are never kept waiting -/

namespace Strand

/-- A strand is where its chain by itself would be at a time, unless it is given up. -/
def Punctual (setup : Setup) (delay : Leaf → Nat) (chain : Chain) (now : Nat) (strand : Strand) : Prop :=
  match strand.phase with
  | .ready link rest => ∃ front, setup.Gone delay chain front (link :: rest) strand.outputs now
  | .waiting _ link rest => ∃ front, setup.Gone delay chain front (link :: rest) strand.outputs now
  | .granted link rest => ∃ front, setup.Gone delay chain front (link :: rest) strand.outputs now
  | .holding link rest => ∃ front, setup.Gone delay chain front (link :: rest) strand.outputs now
  | .calling _ link rest ends ending => now ≤ ends ∧
      ending = (setup.backend link strand.context).ending setup.limits ∧
      ∃ front start, setup.Gone delay chain front (link :: rest) strand.outputs start ∧
        ends = start + min (delay link) setup.limits.leafTimeout
  | .finished => ∃ ended ≤ now, setup.Gone delay chain chain.toList [] strand.outputs ended
  | .failed _ => ∃ ended ≤ now, setup.FailsAfter delay chain ended
  | .crashed _ => ∃ ended ≤ now, setup.FailsAfter delay chain ended
  | .dropped => True

namespace Punctual

variable {setup : Setup} {delay : Leaf → Nat} {chain : Chain} {now : Nat} {a b : Strand}

theorem start (task : Nat) : (Strand.start task chain).Punctual setup delay chain 0 := by
  refine ⟨[], ?_, rfl, rfl⟩
  rw [← chain.toList_eq_cons]
  rfl

/-- A call that is over ends just now, and what it comes to is what it would come to by itself. -/
theorem conclude (hsteady : setup.Steady delay) (h : a.Punctual setup delay chain now) {ticket : Nat}
    {link : Leaf} {rest : List Leaf} {ends : Nat} {ending : Ending}
    (hp : a.phase = .calling ticket link rest ends ending) (hdue : ends ≤ now) :
    (a.conclude setup link rest ending).Punctual setup delay chain now := by
  simp only [Punctual, hp] at h
  obtain ⟨hnow, hending, front, start, hgone, hends⟩ := h
  obtain rfl : ends = now := Nat.le_antisymm hdue hnow
  have hvalue := Behaviour.ending_value setup link a.context
  rw [← hending] at hvalue
  have hfails : ∀ {e}, ending.value setup.limits link = .error e →
      ∃ ended ≤ ends, setup.FailsAfter delay chain ended := by
    intro e he
    exact ⟨ends, Nat.le_refl _, hends ▸ hgone.failsAfter (hvalue.symm.trans he)⟩
  rcases ending with answer | _
  · rcases answer with r | e | message
    · have hcall : setup.backend.call setup.limits.leafTimeout link a.context = .ok r := hvalue.symm
      have hmore := hgone.answered hcall
      rw [Nat.min_eq_left (hsteady.delay_le hcall)] at hends
      rw [← hends] at hmore
      cases rest with
      | nil =>
        have hall : front ++ [link] = chain.toList := by rw [hmore.split, List.append_nil]
        exact ⟨ends, Nat.le_refl _, hall ▸ hmore⟩
      | cons next rest => exact ⟨_, hmore⟩
    · exact hfails rfl
    · exact hfails rfl
  · exact hfails rfl

theorem pass (hsteady : setup.Steady delay) (h : a.Punctual setup delay chain now)
    (hpass : Pass setup now a b) : b.Punctual setup delay chain now := by
  cases hpass with
  | queue hp => simpa only [Punctual, hp] using h
  | take hp => simpa only [Punctual, hp] using h
  | grant hp => simpa only [Punctual, hp] using h
  | see hp => simpa only [Punctual, hp] using h
  | launch hp =>
    simp only [Punctual, hp] at h
    obtain ⟨front, hgone⟩ := h
    exact ⟨Nat.le_add_right _ _, rfl, front, now, hgone, by rw [hsteady.duration]⟩
  | conclude hp hdue => exact h.conclude hsteady hp hdue
  | drop => trivial

theorem passes (hsteady : setup.Steady delay) (h : a.Punctual setup delay chain now)
    (hpasses : Passes setup now a b) : b.Punctual setup delay chain now := by
  induction hpasses with
  | refl => exact h
  | tail _ hpass ih => exact ih.pass hsteady hpass

/-- A strand that is over or in a call can wait until the end of its call. -/
theorem later (h : a.Punctual setup delay chain now) (hsettled : a.phase.Settled now)
    (hserved : a.phase.ticket? = none) {later : Nat} (hnow : now ≤ later)
    (hearly : ∀ ticket link rest ends ending, a.phase = .calling ticket link rest ends ending → later ≤ ends) :
    a.Punctual setup delay chain later := by
  cases hp : a.phase <;> simp only [Punctual, hp] at h ⊢
  case ready => simp [hp, Phase.Settled, Phase.isOver] at hsettled
  case waiting => simp [hp, Phase.ticket?] at hserved
  case granted => simp [hp, Phase.Settled, Phase.isOver] at hsettled
  case holding => simp [hp, Phase.Settled, Phase.isOver] at hsettled
  case calling => exact ⟨hearly _ _ _ _ _ hp, h.2⟩
  all_goals
    obtain ⟨ended, hended, hover⟩ := h
    exact ⟨ended, Nat.le_trans hended hnow, hover⟩

end Punctual
end Strand

/-! ## Every run is on course -/

namespace Setup

/-- A call of a leaf starts at a time when the leaves in front of it in its chain have taken their delays. -/
def StartsAt (setup : Setup) (delay : Leaf → Nat) (leaf : Leaf) (time : Nat) : Prop :=
  ∃ chain ∈ setup.graph.chains, ∃ front rest, chain.toList = front ++ leaf :: rest ∧
    time = (front.map delay).sum

/-- By a time the chains of a task have all come to their ends with outputs, or one of them has failed. -/
def DueBy (setup : Setup) (delay : Leaf → Nat) (node : Node) (time : Nat) : Prop :=
  (∀ chain ∈ node.chains, (∃ outputs,
    setup.backend.chainValue setup.limits.leafTimeout chain = .ok outputs) ∧
      (chain.toList.map delay).sum ≤ time) ∨
  ∃ chain ∈ node.chains, ∃ ended ≤ time, setup.FailsAfter delay chain ended

end Setup

/-- All strands are where their chains by themselves would be, and have been so. -/
structure State.OnCourse (setup : Setup) (delay : Leaf → Nat) (s : State) : Prop where
  strands : ∀ (i : Nat) (chain : Chain) (strand : Strand), setup.graph.chains[i]? = some chain →
    s.strands[i]? = some strand → strand.Punctual setup delay chain s.now
  starts : ∀ time leaf context, ⟨time, .began leaf context⟩ ∈ s.log → setup.StartsAt delay leaf time
  reports : ∀ time task outcome, ⟨time, .reported task outcome⟩ ∈ s.log →
    ∀ t, setup.graph.tasks[task]? = some t → setup.DueBy delay t.node time

namespace State.OnCourse

variable {setup : Setup} {delay : Leaf → Nat} {s t : State}

/-- A call that starts is on time. -/
theorem startsAt (hs : s.OnCourse setup delay) (hcourse : Course setup setup.start s) {strand : Strand}
    {link : Leaf} {rest : List Leaf} (hmem : strand ∈ s.strands) (hp : strand.phase = .holding link rest) :
    setup.StartsAt delay link s.now := by
  obtain ⟨i, hi⟩ := List.mem_iff_getElem?.1 hmem
  have hlt : i < setup.graph.chains.length := by
    rw [← Course.strands_length hcourse]
    exact (List.getElem?_eq_some_iff.1 hi).1
  have hpunctual := hs.strands i _ strand (List.getElem?_eq_getElem hlt) hi
  simp only [Strand.Punctual, hp] at hpunctual
  obtain ⟨front, hgone⟩ := hpunctual
  exact ⟨_, List.getElem_mem hlt, front, rest, hgone.split, hgone.time⟩

/-- The strands of a task, each with its chain. -/
theorem strandsOf (hs : s.OnCourse setup delay) (hcourse : Course setup setup.start s) {task : Nat} {t : Task}
    (ht : setup.graph.tasks[task]? = some t) :
    List.Forall₂ (fun chain strand => strand.Punctual setup delay chain s.now) t.node.chains
      (s.strandsOf task) := hcourse.strandsOf_forall₂ hs.strands ht

theorem exists_strand (hs : s.OnCourse setup delay) (hcourse : Course setup setup.start s) {task : Nat}
    {t : Task} (ht : setup.graph.tasks[task]? = some t) {chain : Chain} (hchain : chain ∈ t.node.chains) :
    ∃ strand ∈ s.strandsOf task, strand.Punctual setup delay chain s.now :=
  forall₂_mem (hs.strandsOf hcourse ht).flip hchain

/-- A task is decided no sooner than its chains allow. -/
theorem dueBy (hs : s.OnCourse setup delay) (hcourse : Course setup setup.start s) {task : Nat}
    {verdict : Verdict} (h : verdict? (s.strandsOf task) = some verdict) {t : Task}
    (ht : setup.graph.tasks[task]? = some t) : setup.DueBy delay t.node s.now := by
  have hstrands := hs.strandsOf hcourse ht
  have hfailed : ∀ strand ∈ s.strandsOf task, (∃ e, strand.phase = .failed e) ∨
      (∃ message, strand.phase = .crashed message) → setup.DueBy delay t.node s.now := by
    intro strand hmem hp
    obtain ⟨chain, hchain, hpunctual⟩ := forall₂_mem hstrands hmem
    refine .inr ⟨chain, hchain, ?_⟩
    rcases hp with ⟨e, hp⟩ | ⟨message, hp⟩ <;> simpa only [Strand.Punctual, hp] using hpunctual
  rcases verdict?_cases h with ⟨strand, hmem, message, hp, -⟩ | ⟨strand, hmem, e, hp, -⟩ | ⟨hall, -⟩
  · exact hfailed strand hmem (.inr ⟨message, hp⟩)
  · exact hfailed strand hmem (.inl ⟨e, hp⟩)
  · refine .inl fun chain hchain => ?_
    obtain ⟨strand, hmem, hpunctual⟩ := hs.exists_strand hcourse ht hchain
    simp only [Strand.Punctual, hall strand hmem] at hpunctual
    obtain ⟨ended, hended, hgone⟩ := hpunctual
    exact ⟨⟨_, hgone.outputs⟩, hgone.time ▸ hended⟩

/-- What happens in no time keeps everything on course. -/
theorem move (hs : s.OnCourse setup delay) (hsteady : setup.Steady delay)
    (hcourse : Course setup setup.start s) (h : Move setup s t) (hnow : t.now = s.now) :
    t.OnCourse setup delay := by
  obtain ⟨events, hevents, hlog⟩ := h.records
  refine ⟨?strands, ?starts, ?reports⟩
  case strands =>
    intro i chain b hchain hb
    obtain ⟨a, ha, hpasses⟩ := forall₂_getElem? h.passes hb
    rw [hnow]
    exact (hs.strands i chain a hchain ha).passes hsteady hpasses
  case starts =>
    intro time leaf context hmem
    rw [hlog] at hmem
    rcases List.mem_append.1 hmem with hnew | hold
    · obtain ⟨event, hevent, heq⟩ := List.mem_map.1 hnew
      cases heq
      cases hevents _ hevent with
      | began mem phase => exact hs.startsAt hcourse mem phase
    · exact hs.starts time leaf context hold
  case reports =>
    intro time task outcome hmem t' ht
    rw [hlog] at hmem
    rcases List.mem_append.1 hmem with hnew | hold
    · obtain ⟨event, hevent, heq⟩ := List.mem_map.1 hnew
      cases heq
      cases hevents _ hevent with
      | reported decided => exact hs.dueBy hcourse decided ht
    · exact hs.reports time task outcome hold t' ht

theorem course (hs : s.OnCourse setup delay) (hsteady : setup.Steady delay)
    (hcourse : Course setup setup.start s) (h : Course setup s t) (hnow : t.now = s.now) :
    t.OnCourse setup delay :=
  h.instant_induction hnow hs fun _ _ hu hmove hsame hon => hon.move hsteady (hcourse.trans hu) hmove hsame

/-- When nobody is left to have a turn, time can pass. -/
theorem elapse (hs : s.OnCourse setup delay) (hcourse : Course setup setup.start s) (hquiet : s.Quiet setup)
    (hpermits : setup.graph.chains.length ≤ setup.limits.permits) {time : Nat}
    (hnext : nextEnd? s.strands = some time) : (s.elapse time).OnCourse setup delay := by
  obtain ⟨⟨caller, hcaller, ticket, link, rest, ending, hp⟩, hleast⟩ := nextEnd?_eq_some hnext
  have hnow : s.now ≤ time := Course.timely hcourse setup.start_timely caller hcaller _ _ _ _ _ hp
  have halike := s.elapse_alike time
  refine ⟨fun i chain strand hchain hstrand => ?strands, fun at_ leaf context hmem => ?starts,
    fun at_ task outcome hmem => ?reports⟩
  case strands =>
    rw [halike.strands] at hstrand
    rw [halike.now]
    have hmem := List.mem_of_getElem? hstrand
    exact (hs.strands i chain strand hchain hstrand).later (hquiet.settled strand hmem)
      (hquiet.not_waiting hcourse hpermits hmem) hnow (hleast strand hmem)
  case starts =>
    rw [halike.log] at hmem
    exact hs.starts at_ leaf context hmem
  case reports =>
    rw [halike.log] at hmem
    exact hs.reports at_ task outcome hmem

end State.OnCourse

namespace Setup

variable {setup : Setup} {delay : Leaf → Nat}

theorem start_onCourse (setup : Setup) (delay : Leaf → Nat) : setup.start.OnCourse setup delay where
  strands i chain strand hchain hstrand := by
    obtain ⟨own, hown, task, rfl⟩ := forall₂_getElem? (strandsFrom_start 0 setup.graph.tasks) hstrand
    rw [show setup.graph.chains[i]? = some own from hown] at hchain
    cases hchain
    exact .start task
  starts _ _ _ hmem := absurd hmem List.not_mem_nil
  reports _ _ _ hmem := absurd hmem List.not_mem_nil

/-- With a permit for every chain, a run is on course whenever it comes to rest. -/
theorem rest_onCourse (hsteady : setup.Steady delay)
    (hpermits : setup.graph.chains.length ≤ setup.limits.permits) (stop : Option Nat) :
    (setup.rest stop).OnCourse setup delay := by
  by_cases hzero : stop = some 0
  · rw [rest, if_pos hzero]
    exact setup.start_onCourse delay
  · refine setup.quiet_induction hzero ?_ fun s time hcourse hquiet hnext hs => ?_
    · exact (setup.start_onCourse delay).course hsteady .refl (Course.rest _) setup.start_between.rest_now
    · have helapse : Course setup setup.start (s.elapse time) :=
        hcourse.trans (Course.elapse (Course.timely hcourse setup.start_timely) hnext)
      exact (hs.elapse hcourse hquiet hpermits hnext).course hsteady helapse (Course.rest _)
        (hquiet.between.elapse time).rest_now

theorem endOf_onCourse (hsteady : setup.Steady delay)
    (hpermits : setup.graph.chains.length ≤ setup.limits.permits) (time : Nat) :
    (setup.endOf time).OnCourse setup delay := rest_onCourse hsteady hpermits _

end Setup

/-! ## When tasks are reported -/

/-- A run that is stopped goes on as long as calls end before that. -/
theorem State.moments_stop {setup : Setup} {stop : Nat} (n : Nat) {s : State} (hs : s.Quiet setup)
    (hn : s.work ≤ n) {time : Nat} (h : nextEnd? (s.moments setup (some stop) n).strands = some time) :
    stop ≤ time := by
  induction n generalizing s with
  | zero =>
    have hlt := hs.work_lt h
    omega
  | succ n ih =>
    simp only [moments] at h
    cases hnext : nextEnd? s.strands with
    | none => simp [hnext] at h
    | some next =>
      by_cases hstop : stop ≤ next
      · simp only [hnext, Option.any_some, hstop, decide_true, if_true, Option.some.injEq] at h
        exact h ▸ hstop
      · simp only [hnext, Option.any_some, hstop, decide_false, Bool.false_eq_true, if_false] at h
        have hlt := hs.work_lt hnext
        exact ih (hs.elapse next) (by omega) h

namespace Setup

variable {setup : Setup} {delay : Leaf → Nat} {task : Nat} {t : Task}

/-- What is in flight when all that happens up to a time has happened ends later. -/
theorem lt_of_endOf_calling (setup : Setup) (time : Nat) {strand : Strand}
    (hmem : strand ∈ (setup.endOf time).strands) {ticket : Nat} {link : Leaf} {rest : List Leaf} {ends : Nat}
    {ending : Ending} (hp : strand.phase = .calling ticket link rest ends ending) : time < ends := by
  have hfirst : (setup.start.rest setup).Quiet setup :=
    State.rest_quiet setup.start_between fun i hi => absurd hi List.not_mem_nil
  have hendOf : setup.endOf time =
      (setup.start.rest setup).moments setup (some (time + 1)) setup.start.work := by
    rw [endOf, Setup.rest, if_neg (by simp)]
  cases hnext : nextEnd? (setup.endOf time).strands with
  | none =>
    have hidle := nextEnd?_eq_none hnext strand hmem
    rw [hp] at hidle
    cases hidle
  | some next =>
    have hle := (nextEnd?_eq_some hnext).2 strand hmem _ _ _ _ _ hp
    rw [hendOf] at hnext
    have hstop := State.moments_stop _ hfirst (Course.rest setup.start).work_le hnext
    omega

/-- When a task is open at the end of a time, its strands are in calls that end later, or have come to an
end by themselves. -/
theorem endOf_strand (setup : Setup) (hpermits : setup.graph.chains.length ≤ setup.limits.permits) {time : Nat}
    (hopen : task ∉ (setup.endOf time).reported) {strand : Strand}
    (hmem : strand ∈ (setup.endOf time).strandsOf task) :
    (∃ ticket link rest ends ending, strand.phase = .calling ticket link rest ends ending ∧ time < ends) ∨
      strand.phase.isOver = true ∧ strand.phase ≠ .dropped := by
  have hcourse : Course setup setup.start (setup.endOf time) := setup.course_rest _
  obtain ⟨hin, htask⟩ := List.mem_filter.1 hmem
  have hsettled := (setup.endOf_quiet time).settled strand hin
  have hserved := (setup.endOf_quiet time).not_waiting hcourse hpermits hin
  have hkept : strand.phase ≠ .dropped := by
    intro hdropped
    have hreported := Course.dropped_reported hcourse setup.start_dropped_reported strand hin hdropped
    rw [show strand.task = task by simpa using htask] at hreported
    exact hopen hreported
  cases hp : strand.phase with
  | calling ticket link rest ends ending =>
    exact .inl ⟨ticket, link, rest, ends, ending, rfl, setup.lt_of_endOf_calling time hin hp⟩
  | waiting => simp [hp, Phase.ticket?] at hserved
  | dropped => exact absurd hp hkept
  | _ => exact .inr ⟨by simpa [hp, Phase.Settled] using hsettled, by simp⟩

/-- A task all of whose chains have outputs is reported as soon as they all have taken their time. -/
theorem reported_of_sums (hsteady : setup.Steady delay)
    (hpermits : setup.graph.chains.length ≤ setup.limits.permits) (ht : setup.graph.tasks[task]? = some t)
    {time : Nat} (htime : ∀ chain ∈ t.node.chains, (chain.toList.map delay).sum ≤ time) :
    task ∈ (setup.endOf time).reported := by
  by_contra hopen
  have hcourse : Course setup setup.start (setup.endOf time) := setup.course_rest _
  have hstrands := (endOf_onCourse hsteady hpermits time).strandsOf hcourse ht
  have hover : ∀ strand ∈ (setup.endOf time).strandsOf task,
      strand.phase.isOver = true ∧ strand.phase ≠ .dropped := by
    intro strand hmem
    refine (setup.endOf_strand hpermits hopen hmem).resolve_left ?_
    rintro ⟨ticket, link, rest, ends, ending, hp, hlate⟩
    obtain ⟨chain, hchain, hpunctual⟩ := forall₂_mem hstrands hmem
    simp only [Strand.Punctual, hp] at hpunctual
    obtain ⟨-, -, front, start, hgone, rfl⟩ := hpunctual
    exact Nat.not_le_of_lt hlate (Nat.le_trans hgone.le_sum (htime chain hchain))
  have hdecided := verdict?_isSome_of_isOver (fun strand hmem => (hover strand hmem).1)
    fun strand hmem => (hover strand hmem).2
  rw [(setup.endOf_quiet time).undecided (List.getElem?_eq_some_iff.1 ht).1 hopen] at hdecided
  cases hdecided

/-- A small group is reported as soon as one of its chains fails. -/
theorem reported_of_failsAfter (hsteady : setup.Steady delay)
    (hpermits : setup.graph.chains.length ≤ setup.limits.permits) (ht : setup.graph.tasks[task]? = some t)
    (hsmall : t.node.chains.length ≤ smallSize) {chain : Chain} (hchain : chain ∈ t.node.chains) {time : Nat}
    (hfails : setup.FailsAfter delay chain time) : task ∈ (setup.endOf time).reported := by
  by_contra hopen
  have hcourse : Course setup setup.start (setup.endOf time) := setup.course_rest _
  have hon := endOf_onCourse hsteady hpermits time
  obtain ⟨strand, hmem, hpunctual⟩ := hon.exists_strand hcourse ht hchain
  have hundecided := (setup.endOf_quiet time).undecided (List.getElem?_eq_some_iff.1 ht).1 hopen
  rw [(hon.strandsOf hcourse ht).length_eq] at hsmall
  rcases setup.endOf_strand hpermits hopen hmem with ⟨ticket, link, rest, ends, ending, hp, hlate⟩ | ⟨hover, hkept⟩
  · simp only [Strand.Punctual, hp] at hpunctual
    obtain ⟨-, -, front, start, hgone, rfl⟩ := hpunctual
    exact Nat.not_le_of_lt hlate (hgone.le_of_failsAfter hfails)
  · rcases Strand.over_cases hover hkept with hp | ⟨e, hp⟩ | ⟨message, hp⟩
    · simp only [Strand.Punctual, hp] at hpunctual
      obtain ⟨ended, -, hgone⟩ := hpunctual
      exact hfails.value_ne_ok _ hgone.outputs
    · have hdecided := verdict?_isSome_of_failure hsmall hmem hp
      rw [hundecided] at hdecided
      cases hdecided
    · have hdecided := verdict?_isSome_of_crash hmem hp
      rw [hundecided] at hdecided
      cases hdecided

/-- A report comes no later than the task is reported. -/
theorem report_at_le (setup : Setup) {report : Report} (hreport : report ∈ (setup.run {}).reports) {time : Nat}
    (hreported : report.task ∈ (setup.endOf time).reported) : report.at_ ≤ time := by
  by_contra hlate
  exact setup.endOf_open hreport (Nat.lt_of_not_le hlate) hreported

/-- A report comes no sooner than the chains of the task allow. -/
theorem report_dueBy (hsteady : setup.Steady delay)
    (hpermits : setup.graph.chains.length ≤ setup.limits.permits) {report : Report}
    (hreport : report ∈ (setup.run {}).reports) (ht : setup.graph.tasks[report.task]? = some t) :
    setup.DueBy delay t.node report.at_ :=
  (rest_onCourse hsteady hpermits none).reports _ _ _ (List.mem_reverse.1 (Journal.mem_reports hreport)) t ht

end Setup

/-! ## Runs with a permit for every chain -/

/-- In a record a task is reported once, at a time. -/
def Journal.ReportedAt (j : Journal) (task time : Nat) : Prop :=
  ∃ outcome, j.reports.filter (·.task == task) = [⟨task, time, outcome⟩]

theorem Journal.ReportedAt.mem {j : Journal} {task time : Nat} (h : j.ReportedAt task time) :
    ∃ report ∈ j.reports, report.task = task ∧ report.at_ = time := by
  obtain ⟨outcome, hfilter⟩ := h
  exact ⟨_, (List.mem_filter.1 (hfilter ▸ List.mem_singleton_self _)).1, rfl, rfl⟩

namespace Setup

/-- All chains of a run go on side by side. -/
structure Concurrent (setup : Setup) (delay : Leaf → Nat) : Prop where
  /-- No leaf ever waits for a permit. -/
  unqueued : ∀ e ∈ (setup.run {}).events, ∀ leaf, e.event ≠ .queued leaf
  /-- Each call starts when the leaves in front of it in its chain have taken their delays. -/
  starts : ∀ call ∈ (setup.run {}).calls, setup.StartsAt delay call.leaf call.start
  /-- A task all of whose chains have outputs is reported when the longest of them has taken its delays. -/
  succeeds : ∀ task t, setup.graph.tasks[task]? = some t →
    (∀ chain ∈ t.node.chains, ∃ outputs,
      setup.backend.chainValue setup.limits.leafTimeout chain = .ok outputs) →
    ∃ time, (setup.run {}).ReportedAt task time ∧
      IsGreatest { ended | ∃ chain ∈ t.node.chains, ended = (chain.toList.map delay).sum } time

/-- A task with chains that fail is reported when the first of them fails. -/
def FailsOnTime (setup : Setup) (delay : Leaf → Nat) (task : Nat) (node : Node) : Prop :=
  (∃ chain ∈ node.chains, ∃ e, setup.backend.chainValue setup.limits.leafTimeout chain = .error e) →
  ∃ time, (setup.run {}).ReportedAt task time ∧
    IsLeast { ended | ∃ chain ∈ node.chains, setup.FailsAfter delay chain ended } time

variable {setup : Setup} {delay : Leaf → Nat} {task : Nat} {t : Task}

theorem exists_report (ht : setup.graph.tasks[task]? = some t) :
    ∃ report ∈ (setup.run {}).reports, report.task = task ∧ (setup.run {}).ReportedAt task report.at_ := by
  obtain ⟨report, hfilter⟩ := setup.run_report (List.getElem?_eq_some_iff.1 ht).1
  obtain ⟨hmem, htask⟩ := List.mem_filter.1 (hfilter ▸ List.mem_singleton_self report)
  obtain rfl : report.task = task := by simpa using htask
  exact ⟨report, hmem, rfl, report.outcome, hfilter⟩

theorem concurrent (hsteady : setup.Steady delay)
    (hpermits : setup.graph.chains.length ≤ setup.limits.permits)
    (hne : ∀ t ∈ setup.graph.tasks, t.node.chains ≠ []) : setup.Concurrent delay where
  unqueued e he := Course.unqueued (setup.course_rest none) hpermits e (List.mem_reverse.1 he)
  starts call hcall := by
    obtain ⟨⟨time, event⟩, he, hstart⟩ := List.mem_filterMap.1 hcall
    cases event with
    | began leaf context =>
      cases hstart
      exact (rest_onCourse hsteady hpermits none).starts time leaf context (List.mem_reverse.1 he)
    | _ => cases hstart
  succeeds task t ht hvalues := by
    obtain ⟨report, hmem, rfl, hreported⟩ := exists_report ht
    have hsums : ∀ chain ∈ t.node.chains, (chain.toList.map delay).sum ≤ report.at_ := by
      rcases report_dueBy hsteady hpermits hmem ht with hall | ⟨chain, hchain, ended, -, hfails⟩
      · exact fun chain hchain => (hall chain hchain).2
      · obtain ⟨outputs, hvalue⟩ := hvalues chain hchain
        exact absurd hvalue (hfails.value_ne_ok outputs)
    -- The longest chain is the last to come to its end.
    obtain ⟨longest, hlongest, hmost⟩ :
        ∃ longest ∈ t.node.chains, ∀ chain ∈ t.node.chains,
          (chain.toList.map delay).sum ≤ (longest.toList.map delay).sum := by
      have hsome : (t.node.chains.map fun chain => (chain.toList.map delay).sum) ≠ [] := by
        simpa using hne t (List.mem_of_getElem? ht)
      obtain ⟨most, hmax⟩ := Option.isSome_iff_exists.1 (List.isSome_max?_of_ne_nil hsome)
      obtain ⟨hmem, hle⟩ := List.max?_eq_some_iff.1 hmax
      obtain ⟨longest, hlongest, rfl⟩ := List.mem_map.1 hmem
      exact ⟨longest, hlongest, fun chain hchain => hle _ (List.mem_map_of_mem hchain)⟩
    have hat := setup.report_at_le hmem (reported_of_sums hsteady hpermits ht hmost)
    refine ⟨report.at_, hreported, ⟨longest, hlongest, Nat.le_antisymm hat (hsums longest hlongest)⟩, ?_⟩
    rintro ended ⟨chain, hchain, rfl⟩
    exact hsums chain hchain

/-- In a small group the first chain that fails decides. -/
theorem failsOnTime (hsteady : setup.Steady delay)
    (hpermits : setup.graph.chains.length ≤ setup.limits.permits) (ht : setup.graph.tasks[task]? = some t)
    (hsmall : t.node.chains.length ≤ smallSize) : setup.FailsOnTime delay task t.node := by
  rintro ⟨chain, hchain, e, hvalue⟩
  obtain ⟨report, hmem, rfl, hreported⟩ := exists_report ht
  have hfirst : ∀ other ∈ t.node.chains, ∀ ended, setup.FailsAfter delay other ended → report.at_ ≤ ended :=
    fun other hother ended hfails => setup.report_at_le hmem
      (reported_of_failsAfter hsteady hpermits ht hsmall hother hfails)
  rcases report_dueBy hsteady hpermits hmem ht with hall | ⟨first, hfirstMem, ended, hended, hfails⟩
  · obtain ⟨⟨outputs, hok⟩, -⟩ := hall chain hchain
    rw [hvalue] at hok
    cases hok
  · obtain rfl := Nat.le_antisymm (hfirst first hfirstMem ended hfails) hended
    refine ⟨report.at_, hreported, ⟨first, hfirstMem, hfails⟩, ?_⟩
    rintro ended ⟨other, hother, hlater⟩
    exact hfirst other hother ended hlater

end Setup

/-! ## Compiled configurations -/

open Config (flat flatChains flatLeaf flatTask)

theorem Script.steady (graph : Graph) (script : Script) (limits : Limits) :
    (Setup.mk graph (.ofScript script) limits).Steady script.delay := fun _ _ => rfl

namespace Setup

/-- The call of the second chain of such a group fails after ten milliseconds. -/
theorem late_failsAfter (others : Nat) (lineage : Lineage) :
    (late others lineage).FailsAfter lateScript.delay (.last (flatLeaf 1 (some "down"))) 10 :=
  ⟨[], flatLeaf 1 (some "down"), [], [], _, rfl, rfl, late_call, rfl⟩

/-- So the group is not reported when the first of its chains fails. -/
theorem late_not_failsOnTime {others : Nat} {lineage : Lineage} (hlarge : smallSize < others + 2) :
    ¬ (late others lineage).FailsOnTime lateScript.delay 0 (flatTask (lateNames others)).node := by
  intro h
  have hdown : Chain.last (flatLeaf 1 (some "down")) ∈ (flatTask (lateNames others)).node.chains :=
    List.mem_cons_of_mem _ List.mem_cons_self
  obtain ⟨time, hreported, hleast⟩ := h ⟨_, hdown, .backend "timeSeries[0][1]" (.unavailable "down"), rfl⟩
  have hearly : time ≤ 10 := hleast.2 ⟨_, hdown, late_failsAfter others lineage⟩
  obtain ⟨⟨task, at_, outcome⟩, hmem, rfl, rfl⟩ := hreported.mem
  have hlate := late_report ((late others lineage).course_rest none) hlarge
    (List.mem_reverse.1 (Journal.mem_reports hmem))
  exact absurd (Nat.le_trans hlate hearly) (by decide)

/-- With a permit for every chain, in every run of a compiled configuration by a script, no leaf waits, each
call starts when those in front of it have taken their delays, and a task that succeeds is reported when its
longest chain has. The tasks of a number of chains are reported when the first of them fails exactly if they
have no more than `smallSize`. -/
theorem concurrent_iff (n : Nat) :
    (∀ (config : Json.Value) (graph : Graph), Graph.compile config = .ok graph →
      ∀ (script : Script) (limits : Limits), graph.chains.length ≤ limits.inFlight →
        (Setup.mk graph (.ofScript script) limits).Concurrent script.delay ∧
        ∀ task t, graph.tasks[task]? = some t → t.node.chains.length = n →
          (Setup.mk graph (.ofScript script) limits).FailsOnTime script.delay task t.node) ↔
      n ≤ smallSize := by
  constructor
  · intro h
    by_contra hlarge
    -- A group of the size whose second chain fails while its first is in flight.
    obtain ⟨others, rfl⟩ : ∃ others, n = others + 2 :=
      ⟨n - 2, (Nat.sub_add_cancel (Nat.le_trans (by decide) (Nat.le_of_not_le hlarge))).symm⟩
    obtain ⟨lineage, hgraph⟩ := Graph.compile_flat (lateNames_named others)
    have hchains : Graph.chains ⟨[flatTask (lateNames others)], lineage⟩ = flatChains 0 (lateNames others) :=
      List.append_nil _
    have hpermits : (Graph.chains ⟨[flatTask (lateNames others)], lineage⟩).length ≤ others + 2 := by
      rw [hchains, lateNames_length]
    obtain ⟨-, hfails⟩ := h _ _ hgraph lateScript { inFlight := others + 2 } hpermits
    exact late_not_failsOnTime (Nat.lt_of_not_le hlarge) (hfails 0 _ rfl (lateNames_length others))
  · rintro hsmall config graph hgraph script limits hpermits
    have hsteady := script.steady graph limits
    have hpermits' : graph.chains.length ≤ limits.permits := Nat.le_trans hpermits (Nat.le_max_left _ _)
    refine ⟨concurrent hsteady hpermits' (Graph.compile_nodes hgraph), ?_⟩
    rintro task t ht rfl
    exact failsOnTime hsteady hpermits' ht hsmall

/-- Of a group of thirty-one chains, with a permit for each, the second fails after ten milliseconds by
itself. The group is not reported before a hundred have passed. -/
theorem group_of_thirty_one_reported_late : ∃ lineage,
    Graph.compile (flat (lateNames 29)) = .ok ⟨[flatTask (lateNames 29)], lineage⟩ ∧
    (flatTask (lateNames 29)).node.chains.length = 31 ∧ (late 29 lineage).limits.inFlight = 31 ∧
    (late 29 lineage).FailsAfter lateScript.delay (.last (flatLeaf 1 (some "down"))) 10 ∧
    (∀ time, ((late 29 lineage).run {}).ReportedAt 0 time → 100 ≤ time) ∧
    ¬ (late 29 lineage).FailsOnTime lateScript.delay 0 (flatTask (lateNames 29)).node := by
  obtain ⟨lineage, hgraph⟩ := Graph.compile_flat (lateNames_named 29)
  have hlarge : smallSize < 29 + 2 := by decide
  refine ⟨lineage, hgraph, lateNames_length 29, rfl, late_failsAfter 29 lineage, ?_, late_not_failsOnTime hlarge⟩
  intro time hreported
  obtain ⟨⟨task, at_, outcome⟩, hmem, rfl, rfl⟩ := hreported.mem
  exact late_report ((late 29 lineage).course_rest none) hlarge
    (List.mem_reverse.1 (Journal.mem_reports hmem))

end Setup
end Run
end Inquiry
