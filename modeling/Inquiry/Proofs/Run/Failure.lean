import Inquiry.Proofs.Run.Causality
import Inquiry.Proofs.Run.Sequential

/-!
# Proofs.Run.Failure — which calls fail, and when

When a call starts, it is settled whether and when it is going to fail. The record of a run and the phases
of its strands agree about that: of the calls of a chain at most one fails, and as long as the chain is not
given up, its strand stands in that call or has come to an end by it.

* `State.FailsAt`: by the record, the call of a leaf fails at a time.
* `Strand.Foretold`: the phase of a strand says which of its calls fails.
* `Course.foreseen`: every course keeps the two in agreement.
-/

namespace Inquiry
namespace Run

/-! ## Failing calls -/

/-- By the record, the call of a leaf fails at a time, or would if it were not cut off before. -/
def State.FailsAt (setup : Setup) (s : State) (leaf : Leaf) (time : Nat) (e : TaskError) : Prop :=
  ∃ start context, ⟨start, .began leaf context⟩ ∈ s.log ∧
    setup.backend.call setup.limits.leafTimeout leaf context = .error e ∧
    time = start + (setup.backend leaf context).duration setup.limits

/-- By the record, the call of a leaf of a chain fails at a time. -/
def State.FailsIn (setup : Setup) (s : State) (chain : Chain) (leaf : Leaf) (time : Nat) (e : TaskError) :
    Prop :=
  leaf ∈ chain.toList ∧ s.FailsAt setup leaf time e

theorem Event.began?_of_isAside {event : Event} (h : event.isAside = true) : event.began? = none := by
  cases event <;> first | rfl | cases h

/-- Whether calls fail is settled when they start. -/
theorem State.Extends.failsAt_iff {s t : State} (h : s.Extends (·.began? = none) t) {setup : Setup}
    {leaf : Leaf} {time : Nat} {e : TaskError} :
    t.FailsAt setup leaf time e ↔ s.FailsAt setup leaf time e := by
  obtain ⟨events, hevents, hlog⟩ := h
  have hmem : ∀ start context, (⟨start, .began leaf context⟩ : Stamped) ∈ t.log ↔
      ⟨start, .began leaf context⟩ ∈ s.log := by
    intro start context
    rw [hlog, List.mem_append]
    refine ⟨fun h => h.resolve_left fun hnew => ?_, .inr⟩
    obtain ⟨event, hevent, hsame⟩ := List.mem_map.1 hnew
    cases hsame
    cases hevents _ hevent
  simp only [FailsAt, hmem]

/-! ## What the phase of a strand foretells -/

namespace Strand

/-- The phase of a strand says which of its calls fails, when, and how. -/
def Foretold (limits : Limits) (now : Nat) (fails : Leaf → Nat → TaskError → Prop) (strand : Strand) : Prop :=
  match strand.phase with
  | .calling _ link _ ends ending => ∀ leaf time e, fails leaf time e ↔
      leaf = link ∧ time = ends ∧ ending.value limits link = .error e
  | .dropped => True
  | _ =>
    match strand.error? with
    | some e => ∃ link, ∃ ended ≤ now, ∀ leaf time e', fails leaf time e' ↔
        leaf = link ∧ time = ended ∧ e' = e
    | none => ∀ leaf time e, ¬ fails leaf time e

namespace Foretold

variable {setup : Setup} {limits : Limits} {now : Nat} {fails : Leaf → Nat → TaskError → Prop} {a b : Strand}

theorem calling (h : a.Foretold limits now fails) {ticket : Nat} {link : Leaf} {rest : List Leaf} {ends : Nat}
    {ending : Ending} (hp : a.phase = .calling ticket link rest ends ending) (leaf : Leaf) (time : Nat)
    (e : TaskError) : fails leaf time e ↔ leaf = link ∧ time = ends ∧ ending.value limits link = .error e := by
  simp only [Foretold, hp] at h
  exact h leaf time e

theorem error (h : a.Foretold limits now fails) {e : TaskError} (he : a.error? = some e) :
    ∃ link, ∃ ended ≤ now, ∀ leaf time e', fails leaf time e' ↔ leaf = link ∧ time = ended ∧ e' = e := by
  cases hp : a.phase <;> simp_all [Foretold, error?]

/-- Where no call is in flight and none has failed, none is going to. -/
theorem none (h : a.Foretold limits now fails) (hidle : a.phase.isCalling = false)
    (hkept : a.phase ≠ .dropped) (he : a.error? = none) (leaf : Leaf) (time : Nat) (e : TaskError) :
    ¬ fails leaf time e := by
  cases hp : a.phase <;> simp_all [Foretold, Phase.isCalling]

theorem of_none (hfails : ∀ leaf time e, ¬ fails leaf time e) (hidle : a.phase.isCalling = false)
    (he : a.error? = .none) : a.Foretold limits now fails := by
  cases hp : a.phase <;> simp_all [Foretold, Phase.isCalling]

theorem mono {later : Nat} (h : a.Foretold limits now fails) (hnow : now ≤ later) :
    a.Foretold limits later fails := by
  unfold Foretold at h ⊢
  split
  · simpa only [*] using h
  · trivial
  · split
    · simp only [*] at h
      obtain ⟨link, ended, hended, hfails⟩ := h
      exact ⟨link, ended, Nat.le_trans hended hnow, hfails⟩
    · simpa only [*] using h

/-- The call of a link ends as it was settled when it started. -/
theorem conclude (h : a.Foretold setup.limits now fails) {ticket : Nat} {link : Leaf} {rest : List Leaf}
    {ends : Nat} {ending : Ending} (hp : a.phase = .calling ticket link rest ends ending) (hdue : ends ≤ now) :
    (a.conclude setup link rest ending).Foretold setup.limits now fails := by
  have hcalling := h.calling hp
  rcases ending with answer | _
  · rcases answer with r | e | message
    · refine of_none ?_ (by cases rest <;> rfl) (by cases rest <;> rfl)
      intro leaf time e hfails
      cases ((hcalling leaf time e).1 hfails).2.2
    · refine ⟨link, ends, hdue, fun leaf time e' => (hcalling leaf time e').trans ?_⟩
      simp [Ending.value, eq_comm]
    · refine ⟨link, ends, hdue, fun leaf time e' => (hcalling leaf time e').trans ?_⟩
      simp [Ending.value, eq_comm]
  · refine ⟨link, ends, hdue, fun leaf time e' => (hcalling leaf time e').trans ?_⟩
    simp [Ending.value, eq_comm]

/-- A pass by which no call starts. -/
theorem pass (h : a.Foretold setup.limits now fails) (hpass : Pass setup now a b)
    (hidle : b.phase.isCalling = false) : b.Foretold setup.limits now fails := by
  cases hpass with
  | queue hp => exact h.none (by rw [hp]; rfl) (by simp [hp]) (by simp [error?, hp])
  | take hp => exact h.none (by rw [hp]; rfl) (by simp [hp]) (by simp [error?, hp])
  | grant hp => exact h.none (by rw [hp]; rfl) (by simp [hp]) (by simp [error?, hp])
  | see hp => exact h.none (by rw [hp]; rfl) (by simp [hp]) (by simp [error?, hp])
  | launch => cases hidle
  | conclude hp hdue => exact h.conclude hp hdue
  | drop => trivial

theorem pushed (h : a.Foretold limits now fails) (hpushed : Relation.ReflTransGen Pushed a b) :
    b.Foretold limits now fails := by
  induction hpushed with
  | refl => exact h
  | tail _ hstep ih =>
    cases hstep with
    | grant hp => exact ih.none (by rw [hp]; rfl) (by simp [hp]) (by simp [error?, hp])
    | drop => trivial

/-- The call of a link starts. -/
theorem launch (h : a.Foretold setup.limits now fails) {ticket : Nat} {link : Leaf} {rest : List Leaf}
    (hp : a.phase = .holding link rest) {fails' : Leaf → Nat → TaskError → Prop}
    (hfails : ∀ leaf time e, fails' leaf time e ↔ fails leaf time e ∨ leaf = link ∧
      time = now + (setup.backend link a.context).duration setup.limits ∧
      setup.backend.call setup.limits.leafTimeout link a.context = .error e) :
    ({ a with
        phase := .calling ticket link rest (now + (setup.backend link a.context).duration setup.limits)
          ((setup.backend link a.context).ending setup.limits) } : Strand).Foretold setup.limits now
      fails' := by
  have hnone := h.none (by rw [hp]; rfl) (by simp [hp]) (by simp [error?, hp])
  intro leaf time e
  rw [hfails, Behaviour.ending_value]
  simp [hnone]

end Foretold
end Strand

/-! ## Every course is foretold -/

/-- The phases of all strands say which of their calls fail. -/
def State.Foreseen (setup : Setup) (chains : List Chain) (s : State) : Prop :=
  ∀ (i : Nat) (chain : Chain) (strand : Strand), chains[i]? = some chain → s.strands[i]? = some strand →
    strand.Foretold setup.limits s.now (s.FailsIn setup chain)

namespace State.Foreseen

variable {setup : Setup} {chains : List Chain} {s t : State}

/-- No call starts, and every strand stays in agreement with those that have started before. -/
theorem step (hs : s.Foreseen setup chains) (hext : s.Extends (·.began? = none) t)
    (hstrands : ∀ (i : Nat) (b : Strand), t.strands[i]? = some b → ∃ a, s.strands[i]? = some a ∧
      ∀ fails, a.Foretold setup.limits s.now fails → b.Foretold setup.limits t.now fails) :
    t.Foreseen setup chains := by
  intro i chain b hchain hb
  obtain ⟨a, ha, hstep⟩ := hstrands i b hb
  have hfails : t.FailsIn setup chain = s.FailsIn setup chain := by
    funext leaf time e
    simp only [FailsIn, hext.failsAt_iff]
  rw [hfails]
  exact hstep _ (hs i chain a hchain ha)

theorem pushed (hs : s.Foreseen setup chains) (hpushed : StrandsPushed s.strands t.strands)
    (hnow : t.now = s.now) (hext : s.Extends (·.began? = none) t) : t.Foreseen setup chains := by
  refine hs.step hext fun i b hb => ?_
  obtain ⟨a, ha, hab⟩ := forall₂_getElem? hpushed hb
  exact ⟨a, ha, fun fails h => hnow ▸ h.pushed hab⟩

theorem pass (hs : s.Foreseen setup chains) {i : Nat} {a b : Strand} (hi : s.strands[i]? = some a)
    (ht : t.strands = s.strands.set i b) (hpass : Strand.Pass setup s.now a b)
    (hidle : b.phase.isCalling = false) (hnow : t.now = s.now) (hext : s.Extends (·.began? = none) t) :
    t.Foreseen setup chains := by
  refine hs.step hext fun j c hc => ?_
  rw [hnow]
  rw [ht] at hc
  rcases getElem?_set_cases hc with ⟨rfl, rfl⟩ | ⟨-, hc⟩
  · exact ⟨a, hi, fun fails h => h.pass hpass hidle⟩
  · exact ⟨c, hc, fun fails h => h⟩

/-- The call of a link starts, which no other chain has. -/
theorem launch (hs : s.Foreseen setup chains) (hd : Distinct chains) (hc : s.Chronicled chains) {i n : Nat}
    {strand : Strand} {link : Leaf} {rest : List Leaf} (hi : s.strands[i]? = some strand)
    (hp : strand.phase = .holding link rest) :
    (s.launch setup i strand link rest n).Foreseen setup chains := by
  obtain ⟨own, hown, htells⟩ := hc.chain_at hi
  have hlink : link ∈ own.toList := htells.holding_mem hp
  have hfails : ∀ leaf time e, (s.launch setup i strand link rest n).FailsAt setup leaf time e ↔
      s.FailsAt setup leaf time e ∨ leaf = link ∧
        time = s.now + (setup.backend link strand.context).duration setup.limits ∧
        setup.backend.call setup.limits.leafTimeout link strand.context = .error e := by
    intro leaf time e
    constructor
    · rintro ⟨start, context, hmem, hcall, htime⟩
      rcases List.mem_cons.1 hmem with hnew | hold
      · cases hnew
        exact .inr ⟨rfl, htime, hcall⟩
      · exact .inl ⟨start, context, hold, hcall, htime⟩
    · rintro (⟨start, context, hmem, hcall, htime⟩ | ⟨rfl, htime, hcall⟩)
      · exact ⟨start, context, List.mem_cons_of_mem _ hmem, hcall, htime⟩
      · exact ⟨s.now, strand.context, List.mem_cons_self, hcall, htime⟩
  -- Only the chain of the link learns of the call.
  intro j chain b hchain hb
  change (s.strands.set i _)[j]? = some b at hb
  rcases getElem?_set_cases hb with ⟨rfl, rfl⟩ | ⟨hij, hb⟩
  · obtain rfl : own = chain := Option.some.inj (hown.symm.trans hchain)
    refine (hs i own strand hown hi).launch hp fun leaf time e => ?_
    simp only [FailsIn, hfails]
    constructor
    · rintro ⟨hmem, hold | hnew⟩
      · exact .inl ⟨hmem, hold⟩
      · exact .inr hnew
    · rintro (⟨hmem, hold⟩ | ⟨rfl, hnew⟩)
      · exact ⟨hmem, .inl hold⟩
      · exact ⟨hlink, .inr ⟨rfl, hnew⟩⟩
  · have hsame : (s.launch setup i strand link rest n).FailsIn setup chain = s.FailsIn setup chain := by
      funext leaf time e
      refine propext (and_congr_right fun hleaf => (hfails leaf time e).trans (or_iff_left ?_))
      rintro ⟨rfl, -⟩
      exact hij (hd.index_eq hown hchain hlink hleaf rfl)
    rw [hsame]
    exact hs j chain b hchain hb

end State.Foreseen

theorem Move.foreseen {setup : Setup} {chains : List Chain} {s t : State} (h : Move setup s t)
    (hd : Distinct chains) (hc : s.Chronicled chains) (hs : s.Foreseen setup chains) :
    t.Foreseen setup chains := by
  cases h with
  | queue hi hp => exact hs.pass hi rfl (.queue hp) rfl rfl (s.extends_record rfl)
  | take hi hp => exact hs.pass hi rfl (.take hp) rfl rfl ⟨[], by simp, rfl⟩
  | see hi hp => exact hs.pass hi rfl (.see hp) rfl rfl ⟨[], by simp, rfl⟩
  | launch hi hp => exact hs.launch hd hc hi hp
  | @conclude i strand ticket link rest ends ending hi hp hdue =>
    have hset : ((s.record (ending.event link)).setStrand i
        (strand.conclude setup link rest ending)).Foreseen setup chains := by
      exact hs.pass hi rfl (.conclude hp hdue) (strand.conclude_isCalling setup link rest ending) rfl
        (s.extends_record (by cases ending <;> rfl))
    refine hset.pushed (.release _) (State.release_now _) ((State.extends_release _).mono ?_)
    rintro event ⟨link, rfl⟩
    rfl
  | @decide task =>
    have hext := (s.extends_giveUp task).mono fun _ => Event.began?_of_isAside
    exact hs.pushed (s.report_pushed _ _) (s.report_now _ _)
      (hext.trans (s.giveUp_now _) (State.extends_record _ rfl))
  | elapse hlater =>
    refine hs.step ⟨[], by simp, rfl⟩ fun i b hb => ⟨b, hb, fun fails h => h.mono hlater⟩
  | schedule h =>
    refine hs.step ⟨[], by simp, h.log⟩ fun i b hb => ⟨b, h.strands ▸ hb, fun fails h' => h.now.symm ▸ h'⟩

theorem Course.foreseen {setup : Setup} {chains : List Chain} {s t : State} (h : Course setup s t)
    (hd : Distinct chains) (hc : s.Chronicled chains) (hs : s.Foreseen setup chains) :
    t.Foreseen setup chains := by
  induction h with
  | refl => exact hs
  | tail hcourse hmove ih => exact hmove.foreseen hd (Course.chronicled hcourse hd hc) ih

theorem Setup.start_foreseen (setup : Setup) : setup.start.Foreseen setup setup.graph.chains := by
  intro i chain strand _ hstrand
  obtain ⟨link, rest, hp⟩ := setup.start_ready strand (List.mem_of_getElem? hstrand)
  refine .of_none ?_ (by rw [hp]; rfl) (by simp [Strand.error?, hp])
  rintro leaf time e ⟨-, start, context, hmem, -⟩
  cases hmem

/-! ## Strands that are over -/

/-- A leaf of a chain whose strand is not over. -/
def State.MayCall (chains : List Chain) (s : State) (leaf : Leaf) : Prop :=
  ∃ (i : Nat) (chain : Chain) (strand : Strand), chains[i]? = some chain ∧ s.strands[i]? = some strand ∧
    strand.phase.isOver = false ∧ leaf ∈ chain.toList

theorem Event.calls?_of_granted {event : Event} (h : ∃ link, event = .granted link) : event.calls? = none := by
  obtain ⟨link, rfl⟩ := h
  rfl

/-- A call that is cut off is that of a strand that is not over. -/
theorem State.Chronicled.extends_withdraw {chains : List Chain} {s : State} (hc : s.Chronicled chains)
    (task : Nat) : s.Extends (fun event => ∀ leaf, event.calls? = some leaf → s.MayCall chains leaf)
      (s.withdraw task) := by
  refine ⟨_, fun event hevent leaf hleaf => ?_, s.withdraw_log task⟩
  obtain ⟨strand, hstrand, hfarewell⟩ := List.mem_filterMap.1 (List.mem_reverse.1 hevent)
  obtain ⟨i, hi⟩ := List.mem_iff_getElem?.1 (List.mem_filter.1 hstrand).1
  obtain ⟨chain, hchain, htells⟩ := hc.chain_at hi
  obtain ⟨_, _, _, _, hp⟩ := Phase.farewell?_calls hfarewell hleaf
  exact ⟨i, chain, strand, hchain, hi, by rw [hp]; rfl, htells.calling_mem hp⟩

/-- A call that starts or ends is that of a strand that is not over. -/
theorem Move.calls {setup : Setup} {chains : List Chain} {s t : State} (h : Move setup s t)
    (hc : s.Chronicled chains) :
    s.Extends (fun event => ∀ leaf, event.calls? = some leaf → s.MayCall chains leaf) t := by
  have hquiet : ∀ {event : Event}, event.calls? = none →
      ∀ leaf, event.calls? = some leaf → s.MayCall chains leaf := by
    intro event hnone leaf hleaf
    rw [hnone] at hleaf
    cases hleaf
  cases h with
  | queue => exact s.extends_record (hquiet rfl)
  | take => exact ⟨[], by simp, rfl⟩
  | see => exact ⟨[], by simp, rfl⟩
  | launch hi hp =>
    refine s.extends_record fun leaf hleaf => ?_
    cases hleaf
    obtain ⟨chain, hchain, htells⟩ := hc.chain_at hi
    exact ⟨_, chain, _, hchain, hi, by rw [hp]; rfl, htells.holding_mem hp⟩
  | @conclude i strand ticket link rest ends ending hi hp =>
    have hended : s.Extends (fun event => ∀ leaf, event.calls? = some leaf → s.MayCall chains leaf)
        (s.record (ending.event link)) := by
      refine s.extends_record fun leaf hleaf => ?_
      obtain rfl : link = leaf := by cases ending <;> exact Option.some.inj hleaf
      obtain ⟨chain, hchain, htells⟩ := hc.chain_at hi
      exact ⟨i, chain, strand, hchain, hi, by rw [hp]; rfl, htells.calling_mem hp⟩
    exact hended.trans rfl ((s.extends_conclude setup i strand link rest ending).mono
      fun _ h => hquiet (Event.calls?_of_granted h))
  | @decide task =>
    -- Permits that are given back are not calls.
    have hreleased := (s.withdraw task).extends_releaseAll ((s.strandsOf task).countP (·.phase.hasPermit))
    have hgiveUp := (hc.extends_withdraw task).trans (s.withdraw_now task)
      (hreleased.mono fun _ h => hquiet (Event.calls?_of_granted h))
    rw [← State.giveUp_eq] at hgiveUp
    exact hgiveUp.trans (s.giveUp_now task) (State.extends_record _ (hquiet rfl))
  | elapse => exact ⟨[], by simp, rfl⟩
  | schedule h => exact ⟨[], by simp, h.log⟩

/-- When a strand is over, no call of its chain starts or ends any more. -/
theorem Course.silent {setup : Setup} {chains : List Chain} {s t : State} (h : Course setup s t)
    (hd : Distinct chains) (hc : s.Chronicled chains) {i : Nat} {chain : Chain} {strand : Strand}
    (hchain : chains[i]? = some chain) (hi : s.strands[i]? = some strand)
    (hover : strand.phase.isOver = true) :
    t.strands[i]? = some strand ∧
      ∃ new, t.log = new ++ s.log ∧ ∀ e ∈ new, e.event.concerns chain.toList = false := by
  induction h with
  | refl => exact ⟨hi, [], rfl, by simp⟩
  | @tail u v hcourse hmove ih =>
    obtain ⟨hu, new, hlog, hnew⟩ := ih
    refine ⟨?_, ?_⟩
    · have hlength := hmove.passes.length_eq
      have hlt : i < v.strands.length := hlength ▸ (List.getElem?_eq_some_iff.1 hu).1
      obtain ⟨a, ha, hpasses⟩ := forall₂_getElem? hmove.passes (List.getElem?_eq_getElem hlt)
      obtain rfl : strand = a := Option.some.inj (hu.symm.trans ha)
      rw [List.getElem?_eq_getElem hlt, hpasses.eq_of_isOver hover]
    · obtain ⟨events, hevents, hlog'⟩ := hmove.calls (Course.chronicled hcourse hd hc)
      refine ⟨events.map (Stamped.mk u.now) ++ new, by rw [hlog', hlog, List.append_assoc], ?_⟩
      intro e he
      rcases List.mem_append.1 he with he | he
      · obtain ⟨event, hevent, rfl⟩ := List.mem_map.1 he
        by_contra hconcerns
        obtain ⟨leaf, hleaf, hcalls⟩ := Event.concerns_iff.1 (Bool.not_eq_false _ ▸ hconcerns)
        obtain ⟨j, chain', strand', hchain', hj, hactive, hleaf'⟩ := hevents event hevent leaf hcalls
        obtain rfl := hd.index_eq hchain' hchain hleaf' hleaf rfl
        obtain rfl : strand = strand' := Option.some.inj (hu.symm.trans hj)
        rw [hover] at hactive
        cases hactive
      · exact hnew e he

/-- Where nothing is recorded about the calls of a chain, no more of them fail. -/
theorem State.FailsIn.congr {setup : Setup} {s t : State} {chain : Chain} {new : List Stamped}
    (hlog : t.log = new ++ s.log) (hnew : ∀ e ∈ new, e.event.concerns chain.toList = false) :
    t.FailsIn setup chain = s.FailsIn setup chain := by
  funext leaf time e
  refine propext (and_congr_right fun hleaf => ?_)
  constructor
  · rintro ⟨start, context, hmem, hfails⟩
    rw [hlog] at hmem
    rcases List.mem_append.1 hmem with hmem | hmem
    · have hconcerns : (Event.began leaf context).concerns chain.toList = true :=
        Event.concerns_iff.2 ⟨leaf, hleaf, rfl⟩
      rw [hnew _ hmem] at hconcerns
      cases hconcerns
    · exact ⟨start, context, hmem, hfails⟩
  · rintro ⟨start, context, hmem, hfails⟩
    exact ⟨start, context, hlog ▸ List.mem_append_right _ hmem, hfails⟩

/-! ## The chains of a task and its strands -/

theorem numbersOf_append (task i : Nat) (l l' : List Strand) :
    numbersOf task i (l ++ l') = numbersOf task i l ++ numbersOf task (i + l.length) l' := by
  induction l generalizing i with
  | nil => rfl
  | cons strand l ih =>
    have hlength : i + (strand :: l).length = i + 1 + l.length := by
      rw [List.length_cons]
      omega
    rw [List.cons_append, numbersOf, numbersOf, ih, hlength]
    split <;> rfl

theorem numbersOf_eq_nil {task i : Nat} {l : List Strand} (h : ∀ strand ∈ l, strand.task ≠ task) :
    numbersOf task i l = [] := by
  refine List.eq_nil_iff_forall_not_mem.2 fun j hj => ?_
  obtain ⟨k, strand, hk, htask, -⟩ := mem_numbersOf.1 hj
  exact h strand (List.mem_of_getElem? hk) htask

theorem numbersOf_congr {task i : Nat} {l l' : List Strand} (h : l'.map Strand.task = l.map Strand.task) :
    numbersOf task i l' = numbersOf task i l := by
  induction l generalizing i l' with
  | nil =>
    obtain rfl := List.map_eq_nil_iff.1 h
    rfl
  | cons strand l ih =>
    cases l' with
    | nil => cases h
    | cons strand' l' =>
      obtain ⟨htask, hrest⟩ := List.cons.inj h
      rw [numbersOf, numbersOf, ih hrest, htask]

/-- The numbers of the strands of a task, each with its strand. -/
theorem numbersOf_strands (task i : Nat) (l : List Strand) :
    List.Forall₂ (fun n strand => ∃ k, n = i + k ∧ l[k]? = some strand) (numbersOf task i l)
      (l.filter (·.task == task)) := by
  induction l generalizing i with
  | nil => exact .nil
  | cons strand l ih =>
    have hrest : List.Forall₂ (fun n other => ∃ k, n = i + k ∧ (strand :: l)[k]? = some other)
        (numbersOf task (i + 1) l) (l.filter (·.task == task)) := by
      refine (ih (i + 1)).imp ?_
      rintro n other ⟨k, rfl, hk⟩
      exact ⟨k + 1, by omega, by simpa using hk⟩
    rw [numbersOf, List.filter_cons]
    by_cases htask : strand.task = task
    · rw [if_pos htask, if_pos (by simpa using htask)]
      exact .cons ⟨0, rfl, rfl⟩ hrest
    · rw [if_neg htask, if_neg (by simpa using htask)]
      exact hrest

theorem State.numbersOf_strandsOf (s : State) (task : Nat) :
    List.Forall₂ (fun n strand => s.strands[n]? = some strand) (numbersOf task 0 s.strands)
      (s.strandsOf task) := by
  refine (numbersOf_strands task 0 s.strands).imp ?_
  rintro n strand ⟨k, rfl, hk⟩
  rwa [Nat.zero_add]

theorem numbersOf_start (task i : Nat) (chains : List Chain) :
    List.Forall₂ (fun n chain => ∃ k, n = i + k ∧ chains[k]? = some chain)
      (numbersOf task i (chains.map (Strand.start task))) chains := by
  induction chains generalizing i with
  | nil => exact .nil
  | cons chain chains ih =>
    rw [List.map_cons, numbersOf, if_pos (show (Strand.start task chain).task = task from rfl)]
    refine .cons ⟨0, rfl, rfl⟩ ((ih (i + 1)).imp ?_)
    rintro n other ⟨k, rfl, hk⟩
    exact ⟨k + 1, by omega, by simpa using hk⟩

/-- The numbers of the strands of a task, each with its chain. -/
theorem numbersOf_chains (base i : Nat) {j : Nat} {tasks : List Task} {t : Task} (ht : tasks[j]? = some t) :
    List.Forall₂ (fun n chain => ∃ k, n = i + k ∧ (tasks.flatMap (·.node.chains))[k]? = some chain)
      (numbersOf (base + j) i (strandsFrom base tasks)) t.node.chains := by
  induction tasks generalizing base i j with
  | nil => cases ht
  | cons first tasks ih =>
    rw [strandsFrom, numbersOf_append, List.flatMap_cons]
    cases j with
    | zero =>
      obtain rfl : first = t := by simpa using ht
      have hothers : numbersOf (base + 0) (i + (first.node.chains.map (Strand.start base)).length)
          (strandsFrom (base + 1) tasks) = [] := by
        refine numbersOf_eq_nil fun strand hmem => ?_
        have htask := (strandsFrom_task strand hmem).1
        omega
      rw [hothers, List.append_nil]
      refine (numbersOf_start base i first.node.chains).imp ?_
      rintro n chain ⟨k, rfl, hk⟩
      exact ⟨k, rfl, by rw [List.getElem?_append_left (List.getElem?_eq_some_iff.1 hk).1, hk]⟩
    | succ j =>
      have hown : numbersOf (base + (j + 1)) i (first.node.chains.map (Strand.start base)) = [] := by
        refine numbersOf_eq_nil fun strand hmem => ?_
        obtain ⟨chain, -, rfl⟩ := List.mem_map.1 hmem
        simp [Strand.start]
      have hrest := ih (base + 1) (i + (first.node.chains.map (Strand.start base)).length)
        (by simpa using ht)
      rw [hown, List.nil_append]
      rw [Nat.add_assoc base, Nat.add_comm 1] at hrest
      refine hrest.imp ?_
      rintro n chain ⟨k, rfl, hk⟩
      refine ⟨first.node.chains.length + k, by rw [List.length_map, Nat.add_assoc], ?_⟩
      rw [List.getElem?_append_right (Nat.le_add_right _ _), Nat.add_sub_cancel_left, hk]

namespace Course

variable {setup : Setup} {s : State} {task : Nat} {t : Task}

/-- The numbers of the strands of a task at any time, each with its chain. -/
theorem numbersOf_chains (h : Course setup setup.start s) (ht : setup.graph.tasks[task]? = some t) :
    List.Forall₂ (fun n chain => setup.graph.chains[n]? = some chain) (numbersOf task 0 s.strands)
      t.node.chains := by
  have hchains := Run.numbersOf_chains 0 0 ht
  rw [Nat.zero_add] at hchains
  rw [numbersOf_congr h.map_task]
  refine hchains.imp ?_
  rintro n chain ⟨k, rfl, hk⟩
  rw [Nat.zero_add]
  exact hk

/-- Every chain of a task has its strand. -/
theorem exists_strand (h : Course setup setup.start s) (ht : setup.graph.tasks[task]? = some t) {chain : Chain}
    (hchain : chain ∈ t.node.chains) : ∃ (i : Nat) (strand : Strand), setup.graph.chains[i]? = some chain ∧
      s.strands[i]? = some strand ∧ strand ∈ s.strandsOf task := by
  obtain ⟨n, hn, hchain⟩ := forall₂_mem (h.numbersOf_chains ht) hchain
  obtain ⟨strand, hi, htask⟩ := mem_numbersOf_zero.1 hn
  exact ⟨n, strand, hchain, hi, List.mem_filter.2 ⟨List.mem_of_getElem? hi, by simpa using htask⟩⟩

/-- What is true of every chain and its strand is true of those of one task, each in its place. -/
theorem strandsOf_forall₂ (h : Course setup setup.start s) {R : Chain → Strand → Prop}
    (hR : ∀ (i : Nat) (chain : Chain) (strand : Strand),
      setup.graph.chains[i]? = some chain → s.strands[i]? = some strand → R chain strand)
    (ht : setup.graph.tasks[task]? = some t) : List.Forall₂ R t.node.chains (s.strandsOf task) := by
  refine forall₂_comp (T := R) ?_ (h.numbersOf_chains ht).flip (s.numbersOf_strandsOf task)
  exact fun chain n strand hchain hstrand => hR n chain strand hchain hstrand

end Course
end Run
end Inquiry
