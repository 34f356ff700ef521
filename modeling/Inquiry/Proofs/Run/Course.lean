import Inquiry.Proofs.Run.Pass

/-!
# Proofs.Run.Course — what every course of moves keeps

* `Move.forall_strands`: what is kept by every pass of a strand is kept by every move.
* `Course.map_task`, `Course.work_le`: tasks stay, and work never grows.
* `Course.log`: a course adds to the record, at times from its beginning to its end.
* `Course.timely`: no call stays in flight beyond its end.
* `Setup.rest_induction`: what holds when a run first comes to rest, and is kept from one moment to the
  next, holds whenever it comes to rest.
* `State.cancel_induction`: what is kept when tasks are reported as cancelled is kept by cancelling a run.
* `Setup.course_rest`: the states in which a run comes to rest are reached by moves.
-/

namespace Inquiry
namespace Run

/-! ## Strands -/

/-- What is kept by every pass is kept by every move. -/
theorem Move.forall_strands {setup : Setup} {s t : State} {P : Strand → Prop}
    (hpass : ∀ a b, Strand.Pass setup s.now a b → P a → P b) (h : Move setup s t)
    (hs : ∀ strand ∈ s.strands, P strand) : ∀ strand ∈ t.strands, P strand := by
  have hpasses : ∀ a b, Strand.Passes setup s.now a b → P a → P b := by
    intro a b hab ha
    induction hab with
    | refl => exact ha
    | tail _ hstep ih => exact hpass _ _ hstep ih
  intro strand hmem
  obtain ⟨i, hi⟩ := List.mem_iff_getElem?.1 hmem
  obtain ⟨before, hbefore, hab⟩ := forall₂_getElem? h.passes hi
  exact hpasses _ _ hab (hs _ (List.mem_of_getElem? hbefore))

namespace StrandsPass

variable {setup : Setup} {now : Nat} {l l' : List Strand}

theorem map_task (h : StrandsPass setup now l l') : l'.map Strand.task = l.map Strand.task := by
  induction h with
  | nil => rfl
  | cons hab _ ih => rw [List.map_cons, List.map_cons, hab.task, ih]

theorem eq_or_work_lt (h : StrandsPass setup now l l') :
    l' = l ∨ (l'.map (·.phase.work)).foldr (· + ·) 0 < (l.map (·.phase.work)).foldr (· + ·) 0 := by
  induction h with
  | nil => exact .inl rfl
  | cons hab _ ih =>
    simp only [List.map_cons, List.foldr_cons]
    rcases hab.eq_or_work_lt with rfl | hlt
    · rcases ih with rfl | ih
      · exact .inl rfl
      · exact .inr (Nat.add_lt_add_left ih _)
    · rcases ih with rfl | ih
      · exact .inr (Nat.add_lt_add_right hlt _)
      · exact .inr (Nat.add_lt_add hlt ih)

end StrandsPass

namespace Course

variable {setup : Setup} {s t : State}

theorem map_task (h : Course setup s t) : t.strands.map Strand.task = s.strands.map Strand.task := by
  induction h with
  | refl => rfl
  | tail _ hmove ih => exact hmove.passes.map_task.trans ih

/-- Work is used up by whatever happens to a strand, and never grows. -/
theorem eq_or_work_lt (h : Course setup s t) : t.strands = s.strands ∨ t.work < s.work := by
  induction h with
  | refl => exact .inl rfl
  | @tail u t _ hmove ih =>
    have hstep : t.strands = u.strands ∨ t.work < u.work := hmove.passes.eq_or_work_lt
    rcases hstep with hstep | hstep
    · unfold State.work at ih ⊢
      rwa [hstep]
    · refine .inr ?_
      rcases ih with ih | ih
      · unfold State.work at hstep ⊢
        rwa [ih] at hstep
      · exact Nat.lt_trans hstep ih

theorem work_le (h : Course setup s t) : t.work ≤ s.work := by
  rcases h.eq_or_work_lt with h | h
  · exact Nat.le_of_eq (by rw [State.work, State.work, h])
  · exact Nat.le_of_lt h

end Course

/-! ## The record -/

/-- Whether an event is about permits only: no call starts or is answered with it, and no task is
reported. -/
def Event.isAside : Event → Bool
  | queued _ => true
  | granted _ => true
  | cutOff _ => true
  | withdrawn _ => true
  | _ => false

/-- Another state's record holds events of one time besides those of this one. -/
def State.Extends (allowed : Event → Prop) (s t : State) : Prop :=
  ∃ events : List Event, (∀ e ∈ events, allowed e) ∧ t.log = events.map (Stamped.mk s.now) ++ s.log

namespace State

theorem Extends.refl {allowed : Event → Prop} (s : State) : s.Extends allowed s := ⟨[], by simp, rfl⟩

theorem Extends.trans {allowed : Event → Prop} {s t u : State} (h₁ : s.Extends allowed t)
    (hnow : t.now = s.now) (h₂ : t.Extends allowed u) : s.Extends allowed u := by
  obtain ⟨es, hes, hlog⟩ := h₁
  obtain ⟨fs, hfs, hlog'⟩ := h₂
  refine ⟨fs ++ es, fun e he => ?_, by rw [hlog', hlog, hnow, List.map_append, List.append_assoc]⟩
  rcases List.mem_append.1 he with he | he
  · exact hfs e he
  · exact hes e he

theorem Extends.mono {allowed allowed' : Event → Prop} {s t : State} (h : s.Extends allowed t)
    (hmono : ∀ e, allowed e → allowed' e) : s.Extends allowed' t := by
  obtain ⟨events, hevents, hlog⟩ := h
  exact ⟨events, fun e he => hmono e (hevents e he), hlog⟩

theorem extends_record {allowed : Event → Prop} (s : State) {event : Event} (h : allowed event) :
    s.Extends allowed (s.record event) :=
  ⟨[event], by simpa using h, rfl⟩

theorem extends_release (s : State) : s.Extends (∃ link, · = .granted link) s.release := by
  rcases s.release_cases with ⟨i, strand, ticket, link, rest, _, _, heq⟩ | ⟨_, heq⟩
  · refine ⟨[.granted link], by simp, ?_⟩
    rw [heq, ((s.hand i strand link rest).wake_alike i).log]
    rfl
  · rw [heq]
    exact .refl s

theorem extends_releaseAll (n : Nat) (s : State) :
    s.Extends (∃ link, · = .granted link) (s.releaseAll n) := by
  induction n generalizing s with
  | zero => exact .refl s
  | succ n ih => exact s.extends_release.trans s.release_now (ih s.release)

theorem isAside_of_granted {event : Event} (h : ∃ link, event = .granted link) : event.isAside = true := by
  obtain ⟨link, rfl⟩ := h
  rfl

theorem withdraw_log (s : State) (task : Nat) :
    (s.withdraw task).log =
      ((s.strandsOf task).filterMap (·.phase.farewell?)).reverse.map (Stamped.mk s.now) ++ s.log := by
  simp [withdraw, recordFarewells_eq, List.map_filterMap]

theorem extends_withdraw (s : State) (task : Nat) : s.Extends (·.isAside) (s.withdraw task) := by
  refine ⟨_, ?_, s.withdraw_log task⟩
  intro e he
  obtain ⟨strand, -, hfarewell⟩ := List.mem_filterMap.1 (List.mem_reverse.1 he)
  cases hp : strand.phase <;> rw [hp] at hfarewell <;> cases hfarewell <;> rfl

theorem withdraw_now (s : State) (task : Nat) : (s.withdraw task).now = s.now := by
  simp [withdraw, recordFarewells_eq]

theorem giveUp_now (s : State) (task : Nat) : (s.giveUp task).now = s.now := by
  rw [giveUp_eq, releaseAll_now, withdraw_now]

theorem extends_giveUp (s : State) (task : Nat) : s.Extends (·.isAside) (s.giveUp task) := by
  rw [giveUp_eq]
  exact (s.extends_withdraw task).trans (s.withdraw_now task)
    ((extends_releaseAll _ _).mono fun _ => isAside_of_granted)

theorem extends_report (s : State) (task : Nat) (outcome : Outcome) :
    s.Extends (fun _ => True) (s.report task outcome) :=
  ((s.extends_giveUp task).mono fun _ _ => trivial).trans (s.giveUp_now task) (extends_record _ trivial)

theorem report_now (s : State) (task : Nat) (outcome : Outcome) :
    (s.report task outcome).now = s.now := s.giveUp_now task

theorem conclude_now (s : State) (setup : Setup) (i : Nat) (strand : Strand) (link : Leaf)
    (rest : List Leaf) (ending : Ending) : (s.conclude setup i strand link rest ending).now = s.now :=
  release_now _

theorem extends_conclude (s : State) (setup : Setup) (i : Nat) (strand : Strand) (link : Leaf)
    (rest : List Leaf) (ending : Ending) :
    (s.record (ending.event link)).Extends (∃ link, · = .granted link)
      (s.conclude setup i strand link rest ending) :=
  extends_release _

end State

namespace Move

variable {setup : Setup} {s t : State}

theorem log_extends (h : Move setup s t) : s.Extends (fun _ => True) t := by
  cases h with
  | queue => exact s.extends_record trivial
  | launch => exact s.extends_record trivial
  | @conclude i strand _ link rest _ ending =>
    have hconclude := s.extends_conclude setup i strand link rest ending
    exact (s.extends_record trivial).trans rfl (hconclude.mono fun _ _ => trivial)
  | decide => exact s.extends_report _ _
  | schedule h => exact ⟨[], by simp, h.log⟩
  | _ => exact .refl s

theorem now_le (h : Move setup s t) : s.now ≤ t.now := by
  cases h with
  | elapse later => exact later
  | conclude => exact Nat.le_of_eq (s.conclude_now _ _ _ _ _ _).symm
  | decide => exact Nat.le_of_eq (s.report_now _ _).symm
  | schedule h => exact Nat.le_of_eq h.now.symm
  | _ => exact Nat.le_refl _

end Move

namespace Course

variable {setup : Setup} {s t : State}

theorem now_le (h : Course setup s t) : s.now ≤ t.now := by
  induction h with
  | refl => exact Nat.le_refl _
  | tail _ hmove ih => exact Nat.le_trans ih hmove.now_le

/-- What is kept by moves that take no time is kept by a course that takes none. -/
theorem instant_induction {P : State → Prop} (h : Course setup s t) (hnow : t.now = s.now) (hs : P s)
    (hmove : ∀ u v, Course setup s u → Move setup u v → v.now = u.now → P u → P v) : P t := by
  induction h with
  | refl => exact hs
  | @tail u t hcourse hlast ih =>
    have hbefore : s.now ≤ u.now := now_le hcourse
    have hafter := hlast.now_le
    exact hmove u t hcourse hlast (by omega) (ih (by omega))

/-- A course adds events to the record, and takes none away. -/
theorem log (h : Course setup s t) :
    ∃ new, t.log = new ++ s.log ∧ ∀ e ∈ new, s.now ≤ e.at_ ∧ e.at_ ≤ t.now := by
  induction h with
  | refl => exact ⟨[], rfl, by simp⟩
  | @tail u t hcourse hmove ih =>
    obtain ⟨new, hnew, hat⟩ := ih
    obtain ⟨events, -, hevents⟩ := hmove.log_extends
    refine ⟨events.map (Stamped.mk u.now) ++ new, by rw [hevents, hnew, List.append_assoc], ?_⟩
    intro e he
    rcases List.mem_append.1 he with he | he
    · obtain ⟨event, _, rfl⟩ := List.mem_map.1 he
      exact ⟨now_le hcourse, hmove.now_le⟩
    · exact ⟨(hat e he).1, Nat.le_trans (hat e he).2 hmove.now_le⟩

end Course

/-! ## Calls end in time -/

/-- No call is in flight beyond its end. -/
def State.Timely (s : State) : Prop :=
  ∀ strand ∈ s.strands, ∀ ticket link rest ends ending,
    strand.phase = .calling ticket link rest ends ending → s.now ≤ ends

theorem Strand.Pass.timely {setup : Setup} {now : Nat} {a b : Strand}
    (h : Strand.Pass setup now a b) {ticket : Nat} {link : Leaf} {rest : List Leaf} {ends : Nat}
    {ending : Ending} (hb : b.phase = .calling ticket link rest ends ending) : now ≤ ends := by
  cases h with
  | launch =>
    simp only [Phase.calling.injEq] at hb
    omega
  | @conclude _ link' rest' _ ending' =>
    rcases ending' with answer | _
    · rcases answer with r | e | message
      · cases rest' <;> simp [Strand.conclude] at hb
      · simp [Strand.conclude] at hb
      · simp [Strand.conclude] at hb
    · simp [Strand.conclude] at hb
  | _ => cases hb

theorem Move.timely {setup : Setup} {s t : State} (h : Move setup s t) (hs : s.Timely) :
    t.Timely := by
  have hnow : t.now = s.now → t.Timely := by
    intro hnow
    unfold State.Timely
    rw [hnow]
    refine h.forall_strands ?_ hs
    intro a b hpass _ ticket link rest ends ending hb
    exact hpass.timely hb
  cases h with
  | elapse _ early => exact early
  | conclude => exact hnow (s.conclude_now _ _ _ _ _ _)
  | decide => exact hnow (s.report_now _ _)
  | schedule h => exact hnow h.now
  | _ => exact hnow rfl

theorem Course.timely {setup : Setup} {s t : State} (h : Course setup s t) (hs : s.Timely) :
    t.Timely := by
  induction h with
  | refl => exact hs
  | tail _ hmove ih => exact hmove.timely ih

/-! ## From one moment to the next -/

theorem nextEnd?_eq_none {strands : List Strand} (h : nextEnd? strands = none) :
    ∀ strand ∈ strands, strand.phase.isCalling = false := by
  induction strands with
  | nil => simp
  | cons s strands ih =>
    intro strand hmem
    simp only [nextEnd?] at h
    split at h
    · cases h
    · cases h
    · rename_i hnone hcalling
      rcases List.mem_cons.1 hmem with rfl | hmem
      · cases hp : strand.phase with
        | calling ticket link rest ends ending =>
          cases hn : nextEnd? strands with
          | none => exact absurd hn (hcalling ticket link rest ends ending hp)
          | some time => exact absurd hn (hnone ticket link rest ends ending time hp)
        | _ => rfl
      · exact ih h strand hmem

theorem nextEnd?_eq_some {strands : List Strand} {time : Nat} (h : nextEnd? strands = some time) :
    (∃ strand ∈ strands, ∃ ticket link rest ending,
      strand.phase = .calling ticket link rest time ending) ∧
    ∀ strand ∈ strands, ∀ ticket link rest ends ending,
      strand.phase = .calling ticket link rest ends ending → time ≤ ends := by
  induction strands generalizing time with
  | nil => cases h
  | cons s strands ih =>
    simp only [nextEnd?] at h
    split at h
    · -- The first strand calls, and so does another one.
      rename_i ticket link rest ends ending time' hp hn
      obtain ⟨⟨strand, hmem, hstrand⟩, hleast⟩ := ih hn
      cases h
      refine ⟨?_, ?_⟩
      · rcases Nat.le_total ends time' with hle | hle
        · exact ⟨s, List.mem_cons_self, ticket, link, rest, ending, by rw [hp, Nat.min_eq_left hle]⟩
        · exact ⟨strand, List.mem_cons_of_mem _ hmem, by rwa [Nat.min_eq_right hle]⟩
      · intro other hother ticket' link' rest' ends' ending' hp'
        rcases List.mem_cons.1 hother with rfl | hother
        · rw [hp] at hp'
          cases hp'
          exact Nat.min_le_left _ _
        · exact Nat.le_trans (Nat.min_le_right _ _) (hleast other hother _ _ _ _ _ hp')
    · -- The first strand alone calls.
      rename_i ticket link rest ends ending hp hn
      cases h
      refine ⟨⟨s, List.mem_cons_self, ticket, link, rest, ending, hp⟩, ?_⟩
      intro other hother ticket' link' rest' ends' ending' hp'
      rcases List.mem_cons.1 hother with rfl | hother
      · rw [hp] at hp'
        cases hp'
        exact Nat.le_refl _
      · have hidle := nextEnd?_eq_none hn other hother
        rw [hp'] at hidle
        cases hidle
    · -- The first strand does not call.
      rename_i hnone hcalling
      obtain ⟨⟨strand, hmem, hstrand⟩, hleast⟩ := ih h
      refine ⟨⟨strand, List.mem_cons_of_mem _ hmem, hstrand⟩, ?_⟩
      intro other hother ticket' link' rest' ends' ending' hp'
      rcases List.mem_cons.1 hother with rfl | hother
      · exact absurd h (hnone ticket' link' rest' ends' ending' time hp')
      · exact hleast other hother _ _ _ _ _ hp'

theorem State.elapse_alike (s : State) (time : Nat) : State.Alike { s with now := time } (s.elapse time) :=
  State.Alike.trans (t := { s with now := time, turns := 0 }) ⟨rfl, rfl, rfl, rfl, rfl⟩
    (State.foldl_wake_alike _ _)

theorem Course.elapse {setup : Setup} {s : State} {time : Nat} (hs : s.Timely)
    (h : nextEnd? s.strands = some time) : Course setup s (s.elapse time) := by
  obtain ⟨⟨strand, hmem, ticket, link, rest, ending, hp⟩, hleast⟩ := nextEnd?_eq_some h
  have helapse : Course setup s { s with now := time } :=
    .single (.elapse (hs strand hmem _ _ _ _ _ hp) hleast)
  exact helapse.tail (.schedule (s.elapse_alike time))

/-- What holds when a run first comes to rest, and is kept from one moment to the next, holds whenever
the run comes to rest. -/
theorem Setup.rest_induction {setup : Setup} {stop : Option Nat} {P : State → Prop}
    (hstart : stop = some 0 → P setup.start) (hrest : P (setup.start.rest setup))
    (hstep : ∀ s time, P s → nextEnd? s.strands = some time → stop.any (· ≤ time) = false →
      P ((s.elapse time).rest setup)) : P (setup.rest stop) := by
  -- The fuel bounds the number of moments, and the state changes from one to the next.
  have hmoments : ∀ n s, P s → P (s.moments setup stop n) := by
    intro n
    induction n with
    | zero => exact fun s hs => hs
    | succ n ih =>
      intro s hs
      simp only [State.moments]
      split
      · exact hs
      · rename_i time hnext
        split
        · exact hs
        · rename_i hstop
          exact ih _ (hstep s time hs hnext (by simpa using hstop))
  unfold Setup.rest
  split
  · rename_i hzero
    exact hstart hzero
  · exact hmoments _ _ hrest

/-- What is kept when a task is reported as cancelled is kept when a run is cancelled. -/
theorem State.cancel_induction {P : State → Prop} {s : State} {setup : Setup} {time : Nat}
    (hs : P { s with now := time }) (hreport : ∀ t task, P t → P (t.report task (.error .cancelled))) :
    P (s.cancel setup time) := by
  have hfold : ∀ (tasks : List Nat) (t : State), P t →
      P (tasks.foldl (fun t task => t.report task (.error .cancelled)) t) := by
    intro tasks
    induction tasks with
    | nil => exact fun _ ht => ht
    | cons task tasks ih => exact fun t ht => ih _ (hreport t task ht)
  exact hfold _ _ hs

theorem Setup.start_ready (setup : Setup) : ∀ strand ∈ setup.start.strands, ∃ link rest,
    strand.phase = .ready link rest := by
  have hready : ∀ task tasks, ∀ strand ∈ strandsFrom task tasks, ∃ link rest,
      strand.phase = .ready link rest := by
    intro task tasks
    induction tasks generalizing task with
    | nil => simp [strandsFrom]
    | cons t tasks ih =>
      intro strand hmem
      rcases List.mem_append.1 hmem with hmem | hmem
      · obtain ⟨chain, _, rfl⟩ := List.mem_map.1 hmem
        exact ⟨_, _, rfl⟩
      · exact ih _ strand hmem
  exact hready 0 setup.graph.tasks

theorem Setup.start_timely (setup : Setup) : setup.start.Timely := by
  intro strand hmem ticket link rest ends ending hp
  obtain ⟨link', rest', hready⟩ := setup.start_ready strand hmem
  rw [hready] at hp
  cases hp

theorem Setup.course_rest (setup : Setup) (stop : Option Nat) :
    Course setup setup.start (setup.rest stop) := by
  refine Setup.rest_induction (fun _ => .refl) (Course.rest _) ?_
  intro s time hcourse hnext _
  have htimely : s.Timely := Course.timely hcourse setup.start_timely
  exact (hcourse.trans (Course.elapse htimely hnext)).trans (Course.rest _)

end Run
end Inquiry
