import Inquiry.Proofs.Run.Failure

/-!
# Proofs.Run.Order — the first of the strands that fail

The worker of a small group looks at its strands in their order and stops at the first that fails. The
strands in front of it have been seen to wait, to be in a call that goes on, or to be finished; those behind
it have not been looked at.

* `State.stridden_others`: a stride leaves the other strands to themselves.
* `State.JustFailed`: the last of all calls to end was one that failed.
* `State.RoundEnds` is how a round ends; `State.round_ends`: it does so.
* `State.round_verdict`: what it decides.
-/

namespace Inquiry
namespace Run
namespace State

variable {setup : Setup} {s t : State} {i : Nat}

/-! ## The other strands -/

theorem conclude_others {strand : Strand} {link : Leaf} {rest : List Leaf} {ending : Ending} {k : Nat}
    {b : Strand} (hne : i ≠ k)
    (hb : (s.conclude setup i strand link rest ending).strands[k]? = some b) :
    ∃ a, s.strands[k]? = some a ∧ Relation.ReflTransGen Strand.Pushed a b := by
  obtain ⟨a, ha, hab⟩ := forall₂_getElem? (StrandsPushed.release _) hb
  change (s.strands.set i _)[k]? = some a at ha
  rw [List.getElem?_set_ne hne] at ha
  exact ⟨a, ha, hab⟩

/-- A stride does nothing to the other strands but give a permit to one that waits. -/
theorem stridden_others {r : Stride} (h : Stridden setup s i r) {k : Nat} {b : Strand} (hne : i ≠ k)
    (hb : r.state.strands[k]? = some b) :
    ∃ a, s.strands[k]? = some a ∧ Relation.ReflTransGen Strand.Pushed a b := by
  have hset : ∀ {strand : Strand}, (s.strands.set i strand)[k]? = some b →
      ∃ a, s.strands[k]? = some a ∧ Relation.ReflTransGen Strand.Pushed a b := by
    intro strand hb
    rw [List.getElem?_set_ne hne] at hb
    exact ⟨b, hb, .refl⟩
  cases h with
  | absent => exact ⟨b, hb, .refl⟩
  | settled => exact ⟨b, hb, .refl⟩
  | postponed => exact ⟨b, hb, .refl⟩
  | queued => exact hset hb
  | taken => exact hset hb
  | seen => exact hset hb
  | launched => exact hset hb
  | due =>
    rw [resolve_state] at hb
    exact conclude_others (s := s.spend) hne hb
  | @immediate _ _ _ t _ _ _ _ ht =>
    rw [resolve_state] at hb
    have hstrands : t.strands = s.strands := by rcases ht with rfl | rfl <;> rfl
    rw [← hstrands]
    exact conclude_others hne hb

theorem strides_others (n : Nat) {k : Nat} {b : Strand} (hne : i ≠ k)
    (hb : (s.strides setup i n).strands[k]? = some b) :
    ∃ a, s.strands[k]? = some a ∧ Relation.ReflTransGen Strand.Pushed a b := by
  induction n generalizing s with
  | zero => exact ⟨b, hb, .refl⟩
  | succ n ih =>
    have hstride := s.stridden setup i
    simp only [strides] at hb
    cases hr : s.stride setup i with
    | halt t =>
      rw [hr] at hb hstride
      exact stridden_others hstride hne hb
    | onward t =>
      rw [hr] at hb hstride
      obtain ⟨c, hc, hcb⟩ := ih hb
      obtain ⟨a, ha, hac⟩ := stridden_others hstride hne hc
      exact ⟨a, ha, hac.trans hcb⟩

theorem visit_others {k : Nat} {b : Strand} (hne : i ≠ k) (hb : (s.visit setup i).strands[k]? = some b) :
    ∃ a, s.strands[k]? = some a ∧ Relation.ReflTransGen Strand.Pushed a b := by
  unfold visit at hb
  split at hb
  · exact ⟨b, hb, .refl⟩
  · exact strides_others _ hne hb

theorem round_others {is : List Nat} {k : Nat} {b : Strand} (hk : k ∉ is)
    (hb : (s.round setup is).strands[k]? = some b) :
    ∃ a, s.strands[k]? = some a ∧ Relation.ReflTransGen Strand.Pushed a b := by
  induction is generalizing s with
  | nil => exact ⟨b, hb, .refl⟩
  | cons i is ih =>
    obtain ⟨hne, hk⟩ := List.ne_and_not_mem_of_not_mem_cons hk
    simp only [round] at hb
    split at hb
    · exact visit_others hne.symm hb
    · exact visit_others hne.symm hb
    · obtain ⟨c, hc, hcb⟩ := ih hk hb
      obtain ⟨a, ha, hac⟩ := visit_others hne.symm hc
      exact ⟨a, ha, hac.trans hcb⟩

/-! ## Time stands still -/

theorem stridden_now {r : Stride} (h : Stridden setup s i r) : r.state.now = s.now := by
  cases h with
  | due =>
    rw [resolve_state]
    exact conclude_now _ _ _ _ _ _ _
  | immediate _ _ _ _ ht =>
    rw [resolve_state, conclude_now]
    rcases ht with rfl | rfl <;> rfl
  | _ => rfl

theorem visit_now : (s.visit setup i).now = s.now := by
  have hstrides : ∀ (n : Nat) (s : State), (s.strides setup i n).now = s.now := by
    intro n
    induction n with
    | zero => exact fun _ => rfl
    | succ n ih =>
      intro s
      have hnow := stridden_now (s.stridden setup i)
      simp only [strides]
      cases hr : s.stride setup i with
      | halt t =>
        rw [hr] at hnow
        exact hnow
      | onward t =>
        rw [hr] at hnow
        exact (ih t).trans hnow
  unfold visit
  split
  · rfl
  · exact hstrides _ s

theorem round_now {is : List Nat} : (s.round setup is).now = s.now := by
  induction is generalizing s with
  | nil => rfl
  | cons i is ih =>
    simp only [round]
    split
    · exact visit_now
    · exact visit_now
    · exact ih.trans visit_now

/-! ## A turn that is used up -/

theorem stride_used_up (setup : Setup) (i : Nat) (h : s.allowance = 0) :
    s.stride setup i = .halt s ∨ s.stride setup i = .halt (s.postpone i) := by
  unfold stride
  split
  · exact .inl rfl
  · split
    · exact .inl rfl
    · exact .inr rfl

/-- When the turn is used up, no strand goes on. -/
theorem visit_used_up (setup : Setup) (i : Nat) (h : s.allowance = 0) :
    (s.visit setup i).strands = s.strands ∧ (s.visit setup i).allowance = 0 := by
  have hstrides : ∀ n, (s.strides setup i n).strands = s.strands ∧ (s.strides setup i n).allowance = 0 := by
    intro n
    cases n with
    | zero => exact ⟨rfl, h⟩
    | succ n => rcases stride_used_up setup i h with hr | hr <;> simp [strides, hr, postpone, h]
  unfold visit
  split
  · exact ⟨rfl, h⟩
  · exact hstrides _

theorem round_used_up {is : List Nat} (h : s.allowance = 0) : (s.round setup is).strands = s.strands := by
  induction is generalizing s with
  | nil => rfl
  | cons i is ih =>
    obtain ⟨hstrands, hused⟩ := visit_used_up setup i h
    simp only [round]
    split
    · exact hstrands
    · exact hstrands
    · rw [ih hused, hstrands]

/-! ## A call that has just failed -/

/-- The last of all calls to end was one of a chain that failed. -/
def JustFailed (setup : Setup) (chain : Chain) (e : TaskError) (s : State) : Prop :=
  ∃ (leaf : Leaf) (time : Nat) (ending : Ending) (before after : List Stamped),
    s.FailsIn setup chain leaf time e ∧ time ≤ s.now ∧ ending.value setup.limits leaf = .error e ∧
    s.log = after ++ ⟨s.now, ending.event leaf⟩ :: before ∧ ∀ x ∈ after, x.event.calls? = none

theorem conclude_error? (setup : Setup) (strand : Strand) (link : Leaf) (rest : List Leaf)
    (ending : Ending) {e : TaskError} (h : (strand.conclude setup link rest ending).error? = some e) :
    ending.value setup.limits link = .error e := by
  rcases ending with answer | _
  · rcases answer with r | e' | message
    · cases rest <;> cases h
    · exact congrArg Except.error (Option.some.inj h)
    · exact congrArg Except.error (Option.some.inj h)
  · exact congrArg Except.error (Option.some.inj h)

theorem conclude_justFailed {chain : Chain} {strand b : Strand} {link : Leaf} {rest : List Leaf}
    {ending : Ending} {time : Nat} {e : TaskError} (hi : s.strands[i]? = some strand)
    (hb : (s.conclude setup i strand link rest ending).strands[i]? = some b) (he : b.error? = some e)
    (hfails : ∀ e, ending.value setup.limits link = .error e → s.FailsIn setup chain link time e)
    (htime : time ≤ s.now) : (s.conclude setup i strand link rest ending).JustFailed setup chain e := by
  rw [conclude_strands_at hi] at hb
  cases hb
  have hvalue := conclude_error? setup strand link rest ending he
  obtain ⟨hlink, start, context, hmem, hcall⟩ := hfails e hvalue
  obtain ⟨events, hevents, hlog⟩ := s.extends_conclude setup i strand link rest ending
  have hnow := s.conclude_now setup i strand link rest ending
  change _ = events.map (Stamped.mk s.now) ++ ⟨s.now, ending.event link⟩ :: s.log at hlog
  refine ⟨link, time, ending, s.log, events.map (Stamped.mk s.now), ⟨hlink, start, context, ?_, hcall⟩,
    hnow.symm ▸ htime, hvalue, hnow.symm ▸ hlog, ?_⟩
  · rw [hlog]
    exact List.mem_append_right _ (List.mem_cons_of_mem _ hmem)
  · intro x hx
    obtain ⟨event, hevent, rfl⟩ := List.mem_map.1 hx
    exact Event.calls?_of_granted (hevents event hevent)

/-- A strand that goes on has not failed. -/
theorem stridden_onward_error? (h : Stridden setup s i (.onward t)) {b : Strand}
    (hb : t.strands[i]? = some b) : b.error? = none := by
  have hconclude : ∀ {c : Strand}, t.strands[i]? = some c ∧ c.phase.isOver = false → b.error? = none := by
    rintro c ⟨hc, hactive⟩
    obtain rfl : b = c := Option.some.inj (hb.symm.trans hc)
    cases hp : b.phase <;> simp_all [Strand.error?, Phase.isOver]
  have hset : ∀ {strand : Strand}, strand.error? = none → (s.strands.set i strand)[i]? = some b →
      b.error? = none := by
    intro strand hnone hb
    rcases getElem?_set_cases hb with ⟨-, rfl⟩ | ⟨hne, -⟩
    · exact hnone
    · exact absurd rfl hne
  generalize hr : Stride.onward t = r at h
  cases h with
  | taken =>
    cases hr
    exact hset rfl hb
  | seen =>
    cases hr
    exact hset rfl hb
  | due hi => exact hconclude (resolve_onward (s := s.spend) hi hr.symm)
  | @immediate strand _ _ u hi _ _ _ hu =>
    have hi' : u.strands[i]? = some strand := by
      rcases hu with rfl | rfl <;> exact hi
    exact hconclude (resolve_onward hi' hr.symm)
  | _ => cases hr

section Visit

variable {chains : List Chain} {chain : Chain}

/-- A strand that comes to an end without its answers has just failed. -/
theorem stridden_justFailed {r : Stride} (hchain : chains[i]? = some chain) (h : Stridden setup s i r)
    (hc : s.Chronicled chains) (hf : s.Foreseen setup chains)
    (hcalm : ∀ a, s.strands[i]? = some a → a.error? = none) {b : Strand}
    {e : TaskError} (hb : r.state.strands[i]? = some b) (he : b.error? = some e) :
    r.state.JustFailed setup chain e := by
  have hold : s.strands[i]? = some b → r.state.JustFailed setup chain e := by
    intro hb
    rw [hcalm b hb] at he
    cases he
  have hset : ∀ {strand : Strand}, strand.error? = none → (s.strands.set i strand)[i]? = some b →
      r.state.JustFailed setup chain e := by
    intro strand hnone hb
    rcases getElem?_set_cases hb with ⟨-, rfl⟩ | ⟨hne, -⟩
    · rw [hnone] at he
      cases he
    · exact absurd rfl hne
  cases h with
  | absent => exact hold hb
  | settled => exact hold hb
  | postponed => exact hold hb
  | queued => exact hset rfl hb
  | taken => exact hset rfl hb
  | seen => exact hset rfl hb
  | launched => exact hset rfl hb
  | @due strand ticket link rest ends ending hi hp _ hdue =>
    rw [resolve_state] at hb ⊢
    have hcalling := (hf i chain strand hchain hi).calling hp
    refine conclude_justFailed (s := s.spend) hi hb he (fun e hvalue => ?_) (show ends ≤ s.now from hdue)
    exact (hcalling link ends e).2 ⟨rfl, rfl, hvalue⟩
  | @immediate strand link rest t hi hp _ hduration ht =>
    rw [resolve_state] at hb ⊢
    obtain ⟨own, hown, htells⟩ := hc.chain_at hi
    obtain rfl : own = chain := Option.some.inj (hown.symm.trans hchain)
    have hlog : t.log = ⟨s.now, .began link strand.context⟩ :: s.log := by rcases ht with rfl | rfl <;> rfl
    have hnow : t.now = s.now := by rcases ht with rfl | rfl <;> rfl
    have hi' : t.strands[i]? = some strand := by rcases ht with rfl | rfl <;> exact hi
    refine conclude_justFailed hi' hb he (fun e hvalue => ?_) (Nat.le_refl t.now)
    rw [Behaviour.ending_value] at hvalue
    refine ⟨htells.holding_mem hp, s.now, strand.context, hlog ▸ List.mem_cons_self, hvalue, ?_⟩
    rw [hnow, hduration, Nat.add_zero]

theorem strides_justFailed (n : Nat) (hd : Distinct chains) (hchain : chains[i]? = some chain)
    (hc : s.Chronicled chains) (hf : s.Foreseen setup chains)
    (hcalm : ∀ a, s.strands[i]? = some a → a.error? = none) {b : Strand} {e : TaskError}
    (hb : (s.strides setup i n).strands[i]? = some b) (he : b.error? = some e) :
    (s.strides setup i n).JustFailed setup chain e := by
  induction n generalizing s with
  | zero =>
    rw [hcalm b hb] at he
    cases he
  | succ n ih =>
    have hstride := s.stridden setup i
    simp only [strides] at hb ⊢
    cases hr : s.stride setup i with
    | halt t =>
      rw [hr] at hb hstride
      exact stridden_justFailed hchain hstride hc hf hcalm hb he
    | onward t =>
      rw [hr] at hb hstride
      have hcourse : Course setup s t := .of_stridden hstride
      exact ih (hcourse.chronicled hd hc) (hcourse.foreseen hd hc hf)
        (fun _ ha => stridden_onward_error? hstride ha) hb

theorem visit_justFailed (hd : Distinct chains) (hchain : chains[i]? = some chain)
    (hc : s.Chronicled chains) (hf : s.Foreseen setup chains)
    (hcalm : ∀ a, s.strands[i]? = some a → a.error? = none) {b : Strand} {e : TaskError}
    (hb : (s.visit setup i).strands[i]? = some b) (he : b.error? = some e) :
    (s.visit setup i).JustFailed setup chain e := by
  unfold visit at hb ⊢
  split at hb
  · rw [hcalm b hb] at he
    cases he
  · exact strides_justFailed _ hd hchain hc hf hcalm hb he

end Visit
end State

/-! ## Rounds -/

namespace Strand

/-- A strand that has not failed, and whose call, if one is in flight, goes on. -/
def Clear (now : Nat) (strand : Strand) : Prop :=
  strand.error? = none ∧ ∀ ticket link rest ends ending,
    strand.phase = .calling ticket link rest ends ending → now < ends

theorem task_pushed {a b : Strand} (h : Relation.ReflTransGen Pushed a b) : b.task = a.task := by
  induction h with
  | refl => rfl
  | tail _ hstep ih =>
    refine Eq.trans ?_ ih
    cases hstep <;> rfl

theorem error?_pushed {a b : Strand} (h : Relation.ReflTransGen Pushed a b) (ha : a.error? = none) :
    b.error? = none := by
  induction h with
  | refl => exact ha
  | tail _ hstep _ => cases hstep <;> rfl

theorem Clear.pushed {now : Nat} {a b : Strand} (h : Relation.ReflTransGen Pushed a b) (ha : a.Clear now) :
    b.Clear now := by
  induction h with
  | refl => exact ha
  | tail _ hstep _ => cases hstep <;> exact ⟨rfl, fun _ _ _ _ _ hp => by cases hp⟩

theorem Clear.of_settled {now : Nat} {a : Strand} (h : a.phase.Settled now) (ha : a.error? = none) :
    a.Clear now := by
  refine ⟨ha, fun ticket link rest ends ending hp => ?_⟩
  rw [hp] at h
  exact h

end Strand

namespace State

variable {setup : Setup} {s : State}

theorem round_cons (i : Nat) (is : List Nat) : s.round setup (i :: is) =
    if (s.visit setup i).strands[i]?.any (·.error?.isSome) then s.visit setup i
    else (s.visit setup i).round setup is := by
  simp only [round]
  cases (s.visit setup i).strands[i]? with
  | none => rfl
  | some b => cases hp : b.phase <;> simp [hp, Strand.error?]

/-- How a round over some strands ends: without a failure, or with the first strand that has failed, behind
strands that do not fail now. -/
def RoundEnds (setup : Setup) (chains : List Chain) (is : List Nat) (t : State) : Prop :=
  (∀ i ∈ is, ∀ b, t.strands[i]? = some b → b.error? = none) ∨
  ∃ front j back b e chain, is = front ++ j :: back ∧ t.strands[j]? = some b ∧ b.error? = some e ∧
    chains[j]? = some chain ∧ t.JustFailed setup chain e ∧
    (∀ k ∈ front, ∀ a, t.strands[k]? = some a → a.Clear t.now) ∧
    ∀ k ∈ back, ∀ a, t.strands[k]? = some a → a.error? = none

/-- A round goes on behind a strand that does not fail now. -/
theorem RoundEnds.cons {chains : List Chain} {i : Nat} {is : List Nat} {t : State}
    (h : RoundEnds setup chains is t) (hclear : ∀ b, t.strands[i]? = some b → b.Clear t.now) :
    RoundEnds setup chains (i :: is) t := by
  rcases h with hnone | ⟨front, j, back, b, e, chain, rfl, hj, he, hchain, hfailed, hfront, hback⟩
  · refine .inl fun k hk b hkb => ?_
    rcases List.mem_cons.1 hk with rfl | hk
    · exact (hclear b hkb).1
    · exact hnone k hk b hkb
  · refine .inr ⟨i :: front, j, back, b, e, chain, rfl, hj, he, hchain, hfailed, fun k hk a hka => ?_, hback⟩
    rcases List.mem_cons.1 hk with rfl | hk
    · exact hclear a hka
    · exact hfront k hk a hka

/-- How a round ends over strands none of which has failed. -/
theorem round_ends {chains : List Chain} (hd : Distinct chains) {tasks task : Nat} {closed is : List Nat}
    (hs : s.Orderly tasks closed) (hc : s.Chronicled chains) (hf : s.Foreseen setup chains)
    (hsmall : s.isLarge task = false)
    (his : ∀ i ∈ is, ∃ strand, s.strands[i]? = some strand ∧ strand.task = task) (hnodup : is.Nodup)
    (hcalm : ∀ i ∈ is, ∀ a, s.strands[i]? = some a → a.error? = none) :
    RoundEnds setup chains is (s.round setup is) := by
  -- The states differ from step to step, and so do the strands that have not been looked at.
  induction is generalizing s with
  | nil => exact .inl (by simp)
  | cons i is ih =>
    obtain ⟨hi, hnodup⟩ := List.nodup_cons.1 hnodup
    obtain ⟨strand, hstrand, htask⟩ := his i List.mem_cons_self
    have hasked : i ∉ s.alerts := fun h => hs.unasked hsmall i h strand hstrand htask
    obtain ⟨hlooked, hend⟩ := visit_looked setup hs hasked
    have hcourse : Course setup s (s.visit setup i) := .visit s i
    obtain ⟨b, hb, -⟩ := exists_strand_congr hlooked.stirs.tasks ⟨strand, hstrand, htask⟩
    -- The strands behind have not been looked at yet.
    have hcalm' : ∀ k ∈ is, ∀ a, (s.visit setup i).strands[k]? = some a → a.error? = none := by
      intro k hk a ha
      obtain ⟨before, hbefore, hpushed⟩ := visit_others (by rintro rfl; exact hi hk) ha
      exact Strand.error?_pushed hpushed (hcalm k (List.mem_cons_of_mem _ hk) before hbefore)
    rw [round_cons, hb]
    cases he : b.error? with
    | some e =>
      rw [if_pos (by simp [he])]
      have hinside : i < chains.length := hc.length ▸ (List.getElem?_eq_some_iff.1 hstrand).1
      have hchain := List.getElem?_eq_getElem hinside
      have hfailed := visit_justFailed hd hchain hc hf (hcalm i List.mem_cons_self) hb he
      exact .inr ⟨[], i, is, b, e, chains[i], rfl, hb, he, hchain, hfailed, by simp, hcalm'⟩
    | none =>
      rw [if_neg (by simp [he])]
      rcases hend b hb with hsettled | ⟨-, hused⟩
      · have hsmall' : (s.visit setup i).isLarge task = false := by
          rw [isLarge_congr hlooked.stirs.tasks, hsmall]
        have his' : ∀ k ∈ is, ∃ strand, (s.visit setup i).strands[k]? = some strand ∧ strand.task = task :=
          fun k hk => exists_strand_congr hlooked.stirs.tasks (his k (List.mem_cons_of_mem _ hk))
        have hrest := ih hlooked.orderly (hcourse.chronicled hd hc) (hcourse.foreseen hd hc hf) hsmall' his'
          hnodup hcalm'
        refine hrest.cons fun c hc => ?_
        obtain ⟨a, ha, hac⟩ := round_others hi hc
        rw [hb] at ha
        cases ha
        rw [round_now]
        exact Strand.Clear.pushed hac (.of_settled hsettled he)
      · -- The turn is used up, and the round changes nothing any more.
        refine .inl fun k hk c hkc => ?_
        rw [round_used_up hused] at hkc
        rcases List.mem_cons.1 hk with rfl | hk
        · rw [hb] at hkc
          cases hkc
          exact he
        · exact hcalm' k hk c hkc

theorem numbersOf_nodup {task i : Nat} {l : List Strand} : (numbersOf task i l).Nodup := by
  induction l generalizing i with
  | nil => exact List.nodup_nil
  | cons strand l ih =>
    rw [numbersOf]
    split
    · refine List.nodup_cons.2 ⟨fun hmem => ?_, ih⟩
      obtain ⟨j, _, _, _, hj⟩ := mem_numbersOf.1 hmem
      omega
    · exact ih

/-- A strand whose call goes on does not fail now. -/
theorem Foreseen.clear {chains : List Chain} {chain : Chain} {strand : Strand} {i : Nat}
    (hs : s.Foreseen setup chains) (hchain : chains[i]? = some chain) (hi : s.strands[i]? = some strand)
    (hclear : strand.Clear s.now) (hkept : strand.phase ≠ .dropped) (leaf : Leaf) (e : TaskError) :
    ¬ s.FailsIn setup chain leaf s.now e := by
  have hforetold := hs i chain strand hchain hi
  cases hp : strand.phase with
  | calling ticket link rest ends ending =>
    intro hfails
    have htime := ((hforetold.calling hp leaf s.now e).1 hfails).2.1
    exact absurd htime (Nat.ne_of_lt (hclear.2 ticket link rest ends ending hp))
  | _ => exact hforetold.none (by rw [hp]; rfl) hkept hclear.1 leaf s.now e

/-- A round whose strands have all been looked at decides a small group by the strand that has failed. -/
theorem RoundEnds.verdict {chains : List Chain} {is : List Nat} {strands : List Strand}
    {members : List Chain} (h : RoundEnds setup chains is s)
    (hstrands : List.Forall₂ (fun n strand => s.strands[n]? = some strand) is strands)
    (hchains : List.Forall₂ (fun n chain => chains[n]? = some chain) is members)
    (hsmall : strands.length ≤ smallSize) (hf : s.Foreseen setup chains)
    (hkept : ∀ strand ∈ strands, strand.phase ≠ .dropped) :
    (∀ strand ∈ strands, strand.error? = none) ∨
    ∃ e front chain back, members = front ++ chain :: back ∧ verdict? strands = some (.error e) ∧
      s.JustFailed setup chain e ∧ ∀ other ∈ front, ∀ leaf e', ¬ s.FailsIn setup other leaf s.now e' := by
  rcases h with hnone | ⟨front, j, back, b, e, chain, rfl, hj, he, hchain, hfailed, hfront, hback⟩
  · refine .inl fun strand hmem => ?_
    obtain ⟨i, hi, hstrand⟩ := forall₂_mem hstrands hmem
    exact hnone i hi strand hstrand
  · -- The strands and the chains of the task are split where its numbers are.
    obtain ⟨chainsFront, chain', chainsBack, rfl, hchainsFront, hchain', -⟩ := forall₂_split hchains
    obtain ⟨strandsFront, b', strandsBack, rfl, hstrandsFront, hb', hstrandsBack⟩ := forall₂_split hstrands
    obtain rfl : chain = chain' := Option.some.inj (hchain.symm.trans hchain')
    obtain rfl : b = b' := Option.some.inj (hj.symm.trans hb')
    refine .inr ⟨e, chainsFront, chain, chainsBack, rfl, ?_, hfailed, fun other hother leaf e' => ?_⟩
    · refine verdict?_of_only hsmall he (fun a ha => ?_) fun a ha => ?_
      · obtain ⟨i, hi, hstrand⟩ := forall₂_mem hstrandsFront ha
        exact (hfront i hi a hstrand).1
      · obtain ⟨i, hi, hstrand⟩ := forall₂_mem hstrandsBack ha
        exact hback i hi a hstrand
    · obtain ⟨i, hi, hother'⟩ := forall₂_mem hchainsFront hother
      obtain ⟨strand, hmem, hstrand⟩ := forall₂_mem hstrandsFront.flip hi
      have hclear := hfront i hi strand hstrand
      exact hf.clear hother' hstrand hclear (hkept strand (List.mem_append_left _ hmem)) leaf e'

/-- A round in which a chain fails decides a small group, by the first of its chains that fail now. -/
theorem round_verdict {task tasks : Nat} {closed : List Nat} {t : Task} (hcourse : Course setup setup.start s)
    (hd : Distinct setup.graph.chains) (ht : setup.graph.tasks[task]? = some t)
    (hs : s.Orderly tasks closed) (hsmall : s.isLarge task = false)
    (hcalm : ∀ strand ∈ s.strandsOf task, strand.error? = none) {u : State}
    (hu : u = s.round setup (numbersOf task 0 s.strands))
    (hkept : ∀ strand ∈ u.strandsOf task, strand.phase ≠ .dropped) :
    (∀ strand ∈ u.strandsOf task, strand.error? = none) ∨
    ∃ e front chain back, t.node.chains = front ++ chain :: back ∧
      verdict? (u.strandsOf task) = some (.error e) ∧ u.JustFailed setup chain e ∧
      ∀ other ∈ front, ∀ leaf e', ¬ u.FailsIn setup other leaf u.now e' := by
  have hround : Course setup s u := hu ▸ .round _ s
  have hcourse' : Course setup setup.start u := hcourse.trans hround
  have hc := hcourse.chronicled hd setup.start_chronicled
  have hf := hcourse.foreseen hd setup.start_chronicled setup.start_foreseen
  have hf' := hcourse'.foreseen hd setup.start_chronicled setup.start_foreseen
  have hown : ∀ i ∈ numbersOf task 0 s.strands, ∃ strand, s.strands[i]? = some strand ∧ strand.task = task :=
    fun i hi => mem_numbersOf_zero.1 hi
  have hends := round_ends hd hs hc hf hsmall hown numbersOf_nodup fun i hi a ha => by
    obtain ⟨strand, hstrand, htask⟩ := hown i hi
    rw [ha] at hstrand
    cases hstrand
    exact hcalm a (List.mem_filter.2 ⟨List.mem_of_getElem? ha, by simpa using htask⟩)
  rw [← hu, ← numbersOf_congr hround.map_task] at hends
  have hsmall' : (u.strandsOf task).length ≤ smallSize := by
    have hlarge := (isLarge_congr hround.map_task task).trans hsmall
    simpa [isLarge] using hlarge
  exact hends.verdict (u.numbersOf_strandsOf task) (hcourse'.numbersOf_chains ht) hsmall' hf' hkept

end State
end Run
end Inquiry
