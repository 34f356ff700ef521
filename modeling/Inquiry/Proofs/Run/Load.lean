import Inquiry.Proofs.Run.Between

/-!
# Proofs.Run.Load — a turn leaves less to be done

Time stands still only for so many turns. In a turn some strand gets on, and uses up some of the work that
is left; else the turn takes a worker off the agenda, or strands off the alerts, and nobody is called up.

* `State.load` is what waits to be looked at: postponed strands, alerts and workers.
* `State.charge` adds the work that is left, which pays for everybody who is called up.
* `turn_load`: a bound on what a turn adds to the load.
* `turn_idle`: in a turn work is used up, or the load becomes less.
-/

namespace Inquiry
namespace Run

/-- A strand stays with its task, and stays as it is once it is over. -/
def Strand.Onward (a b : Strand) : Prop := b.task = a.task ∧ (a.phase.isOver = true → b = a)

theorem StrandsPass.onward {setup : Setup} {now : Nat} {l l' : List Strand} (h : StrandsPass setup now l l') :
    List.Forall₂ Strand.Onward l l' :=
  h.imp fun _ _ hpass => ⟨hpass.task, hpass.eq_of_isOver⟩

namespace State

/-! ## Work -/

theorem sum_work_set {l : List Strand} {i : Nat} {a : Strand} (b : Strand) (hi : l[i]? = some a) :
    ((l.set i b).map (·.phase.work)).foldr (· + ·) 0 + a.phase.work =
      (l.map (·.phase.work)).foldr (· + ·) 0 + b.phase.work := by
  induction l generalizing i with
  | nil => simp at hi
  | cons x l ih =>
    cases i with
    | zero =>
      obtain rfl : x = a := by simpa using hi
      simp only [List.set_cons_zero, List.map_cons, List.foldr_cons]
      omega
    | succ i =>
      have htail := ih (by simpa using hi)
      simp only [List.set_cons_succ, List.map_cons, List.foldr_cons]
      omega

theorem work_set_lt {s t : State} {i : Nat} {a b : Strand} (hi : s.strands[i]? = some a)
    (ht : t.strands = s.strands.set i b) (h : b.phase.work < a.phase.work) : t.work < s.work := by
  have hsum := sum_work_set b hi
  rw [work, work, ht]
  omega

/-! ## The load -/

/-- Whether calling up the worker of a strand comes to anything. -/
def pending (s : State) (i : Nat) : Bool :=
  match s.strands[i]? with
  | none => false
  | some strand => if s.isLarge strand.task then !strand.phase.isOver else !s.isOver strand.task

/-- What waits to be looked at; an alert has a weight. -/
def load (weight : Nat) (s : State) : Nat :=
  2 * s.postponed.countP s.pending + weight * s.alerts.length + s.agenda.length

/-- The load, and the work that pays for what is added to it. -/
def charge (weight : Nat) (s : State) : Nat :=
  s.load weight + s.again.toNat + (weight + 1) * s.work

variable {s t : State} {weight : Nat}

theorem isOver_mono (h : List.Forall₂ Strand.Onward s.strands t.strands) {task : Nat}
    (hover : s.isOver task = true) : t.isOver task = true := by
  refine List.all_eq_true.2 fun strand hmem => ?_
  obtain ⟨hmem, htask⟩ := List.mem_filter.1 hmem
  obtain ⟨i, hi⟩ := List.mem_iff_getElem?.1 hmem
  obtain ⟨before, hbefore, hsame, hstays⟩ := forall₂_getElem? h hi
  have hown : before ∈ s.strandsOf task := by
    rw [hsame] at htask
    exact List.mem_filter.2 ⟨List.mem_of_getElem? hbefore, htask⟩
  have hbeforeOver := List.all_eq_true.1 hover before hown
  rwa [hstays hbeforeOver]

theorem map_task_of_onward {l l' : List Strand} (h : List.Forall₂ Strand.Onward l l') :
    l'.map Strand.task = l.map Strand.task := by
  induction h with
  | nil => rfl
  | cons hab _ ih => rw [List.map_cons, List.map_cons, hab.1, ih]

/-- What strands go through never makes a worker have more to look at. -/
theorem pending_mono (h : List.Forall₂ Strand.Onward s.strands t.strands) {i : Nat}
    (hi : t.pending i = true) : s.pending i = true := by
  unfold pending at hi ⊢
  cases hstrand : t.strands[i]? with
  | none => simp [hstrand] at hi
  | some strand =>
    obtain ⟨before, hbefore, hsame, hstays⟩ := forall₂_getElem? h hstrand
    simp only [hstrand, hbefore, hsame, isLarge_congr (map_task_of_onward h)] at hi ⊢
    split
    · rename_i hlarge
      rw [if_pos hlarge] at hi
      cases hover : before.phase.isOver with
      | false => rfl
      | true => simp [hstays hover, hover] at hi
    · rename_i hsmall
      rw [if_neg hsmall] at hi
      cases hover : s.isOver before.task with
      | false => rfl
      | true => simp [isOver_mono h hover] at hi

/-- Nobody is called up, and nothing is postponed. -/
structure SameCalls (s t : State) : Prop where
  postponed : t.postponed = s.postponed
  alerts : t.alerts = s.alerts
  agenda : t.agenda = s.agenda
  again : t.again = s.again

theorem SameCalls.load_le (hsame : SameCalls s t) (h : List.Forall₂ Strand.Onward s.strands t.strands) :
    t.load weight ≤ s.load weight := by
  have hcount : s.postponed.countP t.pending ≤ s.postponed.countP s.pending :=
    List.countP_mono_left fun i _ => pending_mono h
  simp only [load, hsame.postponed, hsame.alerts, hsame.agenda]
  omega

theorem SameCalls.charge_le (hsame : SameCalls s t) (h : List.Forall₂ Strand.Onward s.strands t.strands)
    (hwork : t.work ≤ s.work) : t.charge weight ≤ s.charge weight := by
  have hload : t.load weight ≤ s.load weight := hsame.load_le h
  have hmul : (weight + 1) * t.work ≤ (weight + 1) * s.work := Nat.mul_le_mul_left _ hwork
  simp only [charge, hsame.again]
  omega

variable (weight) in
/-- A strand uses up some of its work, and nobody is called up for that. -/
theorem SameCalls.set {i : Nat} {a b : Strand} (hsame : SameCalls s t) (hi : s.strands[i]? = some a)
    (ha : a.phase.isOver = false) (hb : b.task = a.task) (hwork : b.phase.work < a.phase.work)
    (ht : t.strands = s.strands.set i b) : t.charge weight ≤ s.charge weight ∧ t.work < s.work := by
  have honward : List.Forall₂ Strand.Onward s.strands t.strands := by
    rw [ht]
    refine forall₂_set (fun _ => ⟨rfl, fun _ => rfl⟩) hi ⟨hb, fun hover => ?_⟩
    rw [ha] at hover
    cases hover
  have hlt : t.work < s.work := work_set_lt hi ht hwork
  exact ⟨hsame.charge_le honward (Nat.le_of_lt hlt), hlt⟩

variable (weight) in
theorem callUp_load (s : State) (task : Nat) :
    (s.callUp task).load weight + (s.callUp task).again.toNat ≤ s.load weight + s.again.toNat + 1 := by
  rcases s.callUp_cases task with ⟨_, heq⟩ | ⟨_, heq⟩ | ⟨_, _, heq⟩
  · rw [heq]
    have hle : (true.toNat : Nat) ≤ s.again.toNat + 1 := by simp
    exact Nat.add_le_add_left hle _
  · rw [heq]
    exact Nat.le_succ _
  · rw [heq]
    change 2 * s.postponed.countP s.pending + weight * s.alerts.length + (s.agenda ++ [task]).length +
      s.again.toNat ≤ _
    rw [List.length_append, List.length_singleton, load]
    omega

variable (weight) in
theorem wake_load (s : State) (i : Nat) :
    (s.wake i).load weight + (s.wake i).again.toNat ≤
      s.load weight + s.again.toNat + if s.pending i then weight + 1 else 0 := by
  cases hi : s.strands[i]? with
  | none =>
    have hsame : s.wake i = s := by simp [wake, hi]
    rw [hsame]
    omega
  | some strand =>
    have hcallUp := s.callUp_load weight strand.task
    rcases wake_cases hi with ⟨_, _, heq⟩ | ⟨hlarge, hactive, _, heq⟩ | ⟨_, _, heq⟩ | ⟨hsmall, hopen, heq⟩
    · rw [heq]
      omega
    · have hpending : s.pending i = true := by simp [pending, hi, hlarge, hactive]
      have halerts := s.callUp_alerts_eq strand.task
      rw [heq, if_pos hpending]
      change 2 * (s.callUp strand.task).postponed.countP (s.callUp strand.task).pending +
        weight * (s.alerts ++ [i]).length + (s.callUp strand.task).agenda.length +
        (s.callUp strand.task).again.toNat ≤ _
      simp only [load, halerts, List.length_append, List.length_singleton, Nat.mul_add] at hcallUp ⊢
      omega
    · rw [heq]
      omega
    · have hpending : s.pending i = true := by simp [pending, hi, hsmall, hopen]
      rw [heq, if_pos hpending]
      omega

/-- The worker who is called up for a permit is paid for by the strand that the permit goes to. -/
theorem release_charge (s : State) : s.release.charge weight ≤ s.charge weight := by
  rcases s.release_cases with ⟨i, strand, ticket, link, rest, hi, hp, heq⟩ | ⟨_, heq⟩
  · let u := s.hand i strand link rest
    have hsame : SameCalls s u := ⟨rfl, rfl, rfl, rfl⟩
    have honward : List.Forall₂ Strand.Onward s.strands u.strands := by
      refine forall₂_set (fun _ => ⟨rfl, fun _ => rfl⟩) hi ⟨rfl, fun hover => ?_⟩
      rw [hp] at hover
      cases hover
    have hwork : u.work < s.work := by
      refine work_set_lt (b := { strand with phase := .granted link rest }) hi rfl ?_
      simp [hp, Phase.work]
    have hload : u.load weight ≤ s.load weight := hsame.load_le honward
    have hwake := u.wake_load weight i
    -- The strand has used up work by getting its permit, which pays for being woken.
    have hmul : (weight + 1) * (u.work + 1) ≤ (weight + 1) * s.work := Nat.mul_le_mul_left _ hwork
    have hstrands : (u.wake i).work = u.work := by rw [work, work, (u.wake_alike i).strands]
    have hagain : u.again = s.again := rfl
    rw [heq]
    change (u.wake i).charge weight ≤ _
    simp only [charge, hstrands, hagain, Nat.mul_add] at *
    split at hwake <;> omega
  · rw [heq]
    have hsame : SameCalls s { s with free := s.free + 1 } := ⟨rfl, rfl, rfl, rfl⟩
    exact hsame.charge_le (List.forall₂_same.2 fun _ _ => ⟨rfl, fun _ => rfl⟩) (Nat.le_refl _)

theorem report_charge (setup : Setup) (s : State) (task : Nat) (outcome : Outcome) :
    (s.report task outcome).charge weight ≤ s.charge weight := by
  have hpasses := (s.withdraw_pushed task).passes setup s.now
  have hsame : SameCalls s (s.withdraw task) := by
    constructor <;> simp [withdraw, recordFarewells_eq]
  have hwork : (s.withdraw task).work ≤ s.work := by
    rcases hpasses.eq_or_work_lt with heq | hlt
    · exact Nat.le_of_eq (by rw [work, work, heq])
    · exact Nat.le_of_lt hlt
  change (s.giveUp task).charge weight ≤ s.charge weight
  rw [giveUp_eq]
  -- Each permit that is given back costs nothing.
  refine releaseAll_induction (P := fun t => t.charge weight ≤ s.charge weight) ?_ _
    (hsame.charge_le hpasses.onward hwork)
  intro t ht
  exact Nat.le_trans t.release_charge ht

/-! ## Visits -/

variable (weight) in
theorem conclude_charge (setup : Setup) {i : Nat} {strand : Strand} (link : Leaf) (rest : List Leaf)
    (ending : Ending) (hi : s.strands[i]? = some strand) (hactive : strand.phase.isOver = false)
    (hwork : 5 * rest.length < strand.phase.work) :
    (s.conclude setup i strand link rest ending).charge weight ≤ s.charge weight ∧
      (s.conclude setup i strand link rest ending).work < s.work := by
  let u := (s.record (ending.event link)).setStrand i (strand.conclude setup link rest ending)
  have hsame : SameCalls s u := ⟨rfl, rfl, rfl, rfl⟩
  obtain ⟨hcharge, hlt⟩ := hsame.set weight hi hactive (Strand.conclude_task _ _ _ _ _)
    (Nat.lt_of_le_of_lt (Strand.conclude_work setup strand link rest ending) hwork) rfl
  refine ⟨Nat.le_trans u.release_charge hcharge, Nat.lt_of_le_of_lt ?_ hlt⟩
  rcases ((StrandsPushed.release u).passes setup 0).eq_or_work_lt with heq | hle
  · exact Nat.le_of_eq (by rw [conclude, work, work, heq])
  · exact Nat.le_of_lt hle

variable (weight) in
/-- A stride uses up work, or changes nothing, or postpones the strand. -/
theorem stridden_charge {setup : Setup} {i : Nat} {r : Stride} (h : Stridden setup s i r) :
    r = .halt s ∨ (s.allowance = 0 ∧ r = .halt (s.postpone i)) ∨
      (r.state.charge weight ≤ s.charge weight ∧ r.state.work < s.work) := by
  cases h with
  | absent => exact .inl rfl
  | settled => exact .inl rfl
  | postponed _ _ hused => exact .inr (.inl ⟨hused, rfl⟩)
  | @queued strand link rest hi hp =>
    have hsame : SameCalls s (s.queue i strand link rest) := ⟨rfl, rfl, rfl, rfl⟩
    exact .inr (.inr (hsame.set weight (b := { strand with phase := .waiting s.nextTicket link rest }) hi
      (by rw [hp]; rfl) rfl (by simp [hp, Phase.work]) rfl))
  | @taken strand link rest hi hp =>
    have hsame : SameCalls s (s.spend.take i strand link rest) := ⟨rfl, rfl, rfl, rfl⟩
    exact .inr (.inr (hsame.set weight (b := { strand with phase := .holding link rest }) hi
      (by rw [hp]; rfl) rfl (by simp [hp, Phase.work]) rfl))
  | @seen strand link rest hi hp =>
    have hsame : SameCalls s (s.spend.setPhase i strand (.holding link rest)) := ⟨rfl, rfl, rfl, rfl⟩
    exact .inr (.inr (hsame.set weight (b := { strand with phase := .holding link rest }) hi
      (by rw [hp]; rfl) rfl (by simp [hp, Phase.work]) rfl))
  | @launched strand link rest hi hp =>
    have hsame : SameCalls s (s.launch setup i strand link rest (s.nextTicket + 1)) := ⟨rfl, rfl, rfl, rfl⟩
    refine .inr (.inr (hsame.set weight hi (by rw [hp]; rfl) ?_ ?_ rfl))
    · rfl
    · simp [hp, Phase.work]
  | @due strand ticket link rest ends ending hi hp =>
    rw [resolve_state]
    have hconclude := s.spend.conclude_charge weight setup link rest ending hi
      (by rw [hp]; rfl) (by rw [hp]; exact Nat.lt_succ_self _)
    exact .inr (.inr hconclude)
  | @immediate strand link rest u hi hp _ _ hu =>
    rw [resolve_state]
    have hi' : u.strands[i]? = some strand := by
      rcases hu with rfl | rfl <;> exact hi
    have hconclude := u.conclude_charge weight setup link rest
      ((setup.backend link strand.context).ending setup.limits) hi'
      (by rw [hp]; rfl) (by rw [hp]; simp [Phase.work])
    refine .inr (.inr ?_)
    rcases hu with rfl | rfl <;> exact hconclude

theorem postpone_charge (s : State) (i : Nat) : (s.postpone i).charge weight ≤ s.charge weight + 2 := by
  change 2 * (i :: s.postponed).countP s.pending + weight * s.alerts.length + s.agenda.length +
    s.again.toNat + (weight + 1) * s.work ≤ _
  rw [List.countP_cons, charge, load]
  split <;> omega

/-- A strand that is looked at adds no more to the charge than its being postponed. -/
theorem strides_charge (setup : Setup) (i n : Nat) (s : State) :
    (s.strides setup i n).charge weight ≤ s.charge weight + 2 := by
  induction n generalizing s with
  | zero => exact Nat.le_add_right _ _
  | succ n ih =>
    have hstride := stridden_charge weight (s.stridden setup i)
    simp only [strides]
    rcases hstride with heq | ⟨-, heq⟩ | ⟨hle, -⟩
    · rw [heq]
      exact Nat.le_add_right _ _
    · rw [heq]
      exact s.postpone_charge i
    · cases hr : s.stride setup i with
      | halt t =>
        rw [hr] at hle
        exact Nat.le_add_right_of_le hle
      | onward t =>
        rw [hr] at hle
        exact Nat.le_trans (ih t) (Nat.add_le_add_right hle 2)

variable (weight) in
theorem visit_charge (setup : Setup) (i : Nat) (s : State) :
    (s.visit setup i).charge weight ≤ s.charge weight + 2 := by
  unfold visit
  split
  · exact Nat.le_add_right _ _
  · exact strides_charge _ _ _ _

/-- While the turn is not used up, a look at a strand uses up work, or changes nothing. -/
theorem visit_idle (setup : Setup) {i : Nat} (hallowed : s.allowance ≠ 0) :
    s.visit setup i = s ∨ (s.visit setup i).work < s.work := by
  have hstrides : ∀ n, s.strides setup i n = s ∨ (s.strides setup i n).work < s.work := by
    intro n
    cases n with
    | zero => exact .inl rfl
    | succ n =>
      have hstride := stridden_charge 0 (s.stridden setup i)
      simp only [strides]
      rcases hstride with heq | ⟨hused, -⟩ | ⟨-, hlt⟩
      · rw [heq]
        exact .inl rfl
      · exact absurd hused hallowed
      · cases hr : s.stride setup i with
        | halt t =>
          rw [hr] at hlt
          exact .inr hlt
        | onward t =>
          rw [hr] at hlt
          exact .inr (Nat.lt_of_le_of_lt (Course.strides n i t : Course setup _ _).work_le hlt)
  unfold visit
  split
  · exact .inl rfl
  · exact hstrides _

/-- A strand that asked to be looked at is paid for by its alert. -/
theorem hear_charge (setup : Setup) {i : Nat} (hi : i ∈ s.alerts) :
    (s.hear setup i).charge 2 ≤ s.charge 2 := by
  have hvisit := visit_charge 2 setup i { s with alerts := s.alerts.erase i }
  have hlength : (s.alerts.erase i).length + 1 = s.alerts.length := by
    have hpos : 0 < s.alerts.length := List.length_pos_of_mem hi
    rw [List.length_erase_of_mem hi]
    omega
  have hless : charge 2 { s with alerts := s.alerts.erase i } + 2 = s.charge 2 := by
    change 2 * s.postponed.countP s.pending + 2 * (s.alerts.erase i).length + s.agenda.length +
      s.again.toNat + (2 + 1) * s.work + 2 = _
    rw [charge, load, ← hlength]
    omega
  exact Nat.le_trans hvisit (Nat.le_of_eq hless)

/-! ## Turns -/

theorem round_charge (setup : Setup) (is : List Nat) (s : State) :
    (s.round setup is).charge 2 ≤ s.charge 2 + 2 * is.length := by
  induction is generalizing s with
  | nil => exact Nat.le_refl _
  | cons i is ih =>
    have hvisit := visit_charge 2 setup i s
    have hrest := ih (s.visit setup i)
    simp only [round, List.length_cons]
    split <;> omega

theorem attend_charge (setup : Setup) (task unfinished left : Nat) (s : State) :
    (s.attend setup task unfinished left).charge 2 ≤ s.charge 2 + 1 := by
  fun_induction State.attend setup task unfinished left s with
  | case1 unfinished s =>
    have hle : (true.toNat : Nat) ≤ s.again.toNat + 1 := by simp
    change s.load 2 + true.toNat + 3 * s.work ≤ s.load 2 + s.again.toNat + 3 * s.work + 1
    omega
  | case2 => exact Nat.le_add_right _ _
  | case3 left s i hi => exact Nat.le_add_right_of_le (hear_charge setup (alert?_eq_some hi).1)
  | case4 left s i hi => exact Nat.le_add_right_of_le (hear_charge setup (alert?_eq_some hi).1)
  | case5 left s i hi _ _ _ _ ih =>
    exact Nat.le_trans ih (Nat.add_le_add_right (hear_charge setup (alert?_eq_some hi).1) 1)
  | case6 unfinished left s i hi _ _ ih =>
    exact Nat.le_trans ih (Nat.add_le_add_right (hear_charge setup (alert?_eq_some hi).1) 1)

theorem numbersOf_length_le (task base : Nat) (strands : List Strand) :
    (numbersOf task base strands).length ≤ strands.length := by
  induction strands generalizing base with
  | nil => exact Nat.le_refl _
  | cons s strands ih =>
    unfold numbersOf
    split
    · exact Nat.succ_le_succ (ih _)
    · exact Nat.le_succ_of_le (ih _)

variable (weight) in
theorem endTurn_load (s : State) (task : Nat) :
    (s.endTurn task).load weight ≤ s.load weight + s.again.toNat := by
  have hlength : (if s.again && !s.isOver task then s.agenda ++ [task] else s.agenda).length ≤
      s.agenda.length + s.again.toNat := by
    split
    · rename_i h
      simp only [Bool.and_eq_true] at h
      simp [h.1]
    · exact Nat.le_add_right _ _
  change 2 * s.postponed.countP s.pending + weight * s.alerts.length +
    (if s.again && !s.isOver task then s.agenda ++ [task] else s.agenda).length ≤ _
  rw [load]
  omega

variable (weight) in
theorem settle_charge (setup : Setup) (task : Nat) (s : State) :
    (s.settle setup task).charge weight ≤ s.charge weight := by
  unfold settle
  split
  · exact report_charge setup _ _ _
  · exact Nat.le_refl _

theorem settle_again (setup : Setup) (task : Nat) (hagain : s.again = true) :
    (s.settle setup task).again = true := by
  unfold settle
  split
  · exact (s.giveUp_stirs task).again hagain
  · exact hagain

/-- A bound on what a turn adds to the load. -/
theorem turn_load (setup : Setup) (task : Nat) (s : State) :
    (s.turn setup task).load 2 + 3 * (s.turn setup task).work ≤
      s.load 2 + 3 * s.work + 2 * s.strands.length + 1 := by
  have hbegin : (s.beginTurn task).charge 2 = s.load 2 + 3 * s.work := rfl
  have hlook : ((s.beginTurn task).look setup task).charge 2 ≤
      (s.beginTurn task).charge 2 + 2 * s.strands.length + 1 := by
    unfold look
    split
    · exact Nat.le_trans (attend_charge _ _ _ _ _) (by omega)
    · have hlength : (numbersOf task 0 (s.beginTurn task).strands).length ≤ s.strands.length :=
        numbersOf_length_le _ _ _
      exact Nat.le_trans (round_charge _ _ _) (by omega)
  have hsettle := settle_charge 2 setup task ((s.beginTurn task).look setup task)
  have hend := endTurn_load 2 (((s.beginTurn task).look setup task).settle setup task) task
  have hwork : (s.turn setup task).work =
      (((s.beginTurn task).look setup task).settle setup task).work := rfl
  rw [hwork]
  change State.load 2 (State.endTurn _ task) + _ ≤ _
  simp only [charge] at hbegin hlook hsettle
  omega

/-! ## Turns in which no strand gets on -/

theorem round_idle (setup : Setup) (is : List Nat) (hallowed : s.allowance ≠ 0) :
    s.round setup is = s ∨ (s.round setup is).work < s.work := by
  induction is with
  | nil => exact .inl rfl
  | cons i is ih =>
    rcases visit_idle setup (i := i) hallowed with heq | hlt
    · simp only [round, heq]
      split
      · exact .inl rfl
      · exact .inl rfl
      · exact ih
    · refine .inr (Nat.lt_of_le_of_lt ?_ hlt)
      simp only [round]
      split
      · exact Nat.le_refl _
      · exact Nat.le_refl _
      · exact (Course.round is _ : Course setup _ _).work_le

/-- A worker who looks at strands that ask for it, none of which gets on, does nothing but hear them. -/
structure Heeds (left : Nat) (s t : State) : Prop where
  same : t = { s with alerts := t.alerts, again := t.again }
  heard : t.again = s.again ∧ t.alerts.length ≤ s.alerts.length ∨
    t.again = true ∧ t.alerts.length + left ≤ s.alerts.length

/-- One more strand is heard first. -/
theorem Heeds.hear {left i : Nat} {t : State} (h : Heeds left { s with alerts := s.alerts.erase i } t)
    (hi : i ∈ s.alerts) : Heeds (left + 1) s t := by
  obtain ⟨hsame, hheard⟩ := h
  have hlength : (s.alerts.erase i).length + 1 = s.alerts.length := by
    have hpos : 0 < s.alerts.length := List.length_pos_of_mem hi
    rw [List.length_erase_of_mem hi]
    omega
  refine ⟨hsame, ?_⟩
  rcases hheard with ⟨hagain, hle⟩ | ⟨hagain, hle⟩
  · exact .inl ⟨hagain, by simp only at hle; omega⟩
  · exact .inr ⟨hagain, by simp only at hle; omega⟩

/-- A strand that is heard and does not get on is not over. -/
theorem hear_idle (setup : Setup) {tasks task i : Nat} {closed : List Nat} (hs : s.Orderly tasks closed)
    (hopen : task ∉ closed) (hallowed : s.allowance ≠ 0) (hi : s.alert? task = some i) :
    s.hear setup i = { s with alerts := s.alerts.erase i } ∧
      ¬((s.hear setup i).strands[i]?.any (·.phase.isOver) = true) ∨
    (s.hear setup i).work < s.work := by
  have hidle : s.hear setup i = { s with alerts := s.alerts.erase i } ∨ (s.hear setup i).work < s.work :=
    visit_idle setup hallowed
  refine hidle.imp_left fun heq => ⟨heq, fun hover => ?_⟩
  obtain ⟨strand, hstrand, -, hactive⟩ := hs.alert_active hopen hi
  rw [heq] at hover
  simp [hstrand, hactive] at hover

theorem attend_idle (setup : Setup) {tasks task unfinished left : Nat} {closed : List Nat}
    (hs : s.Orderly tasks closed) (hopen : task ∉ closed) (hallowed : s.allowance ≠ 0) :
    Heeds left s (s.attend setup task unfinished left) ∨
      (s.attend setup task unfinished left).work < s.work := by
  fun_induction State.attend setup task unfinished left s with
  | case1 unfinished s => exact .inl ⟨rfl, .inr ⟨rfl, Nat.le_refl _⟩⟩
  | case2 unfinished left s => exact .inl ⟨rfl, .inl ⟨rfl, Nat.le_refl _⟩⟩
  | case3 left s i hi t hover =>
    rcases hear_idle setup hs hopen hallowed hi with ⟨-, hactive⟩ | hlt
    · exact absurd hover hactive
    · exact .inr hlt
  | case4 left s i hi t hover =>
    rcases hear_idle setup hs hopen hallowed hi with ⟨-, hactive⟩ | hlt
    · exact absurd hover hactive
    · exact .inr hlt
  | case5 left s i hi t hover unfinished =>
    rcases hear_idle setup hs hopen hallowed hi with ⟨-, hactive⟩ | hlt
    · exact absurd hover hactive
    · exact .inr (Nat.lt_of_le_of_lt (Course.attend _ _ _ _ : Course setup _ _).work_le hlt)
  | case6 unfinished left s i hi t hover ih =>
    rcases hear_idle setup hs hopen hallowed hi with ⟨heq, -⟩ | hlt
    · have ht : t = { s with alerts := s.alerts.erase i } := heq
      rw [ht] at ih ⊢
      exact (ih (hs.erase i) hallowed).imp_left fun hheeds => hheeds.hear (alert?_eq_some hi).1
    · exact .inr (Nat.lt_of_le_of_lt (Course.attend _ _ _ _ : Course setup _ _).work_le hlt)

theorem look_idle (setup : Setup) {tasks task : Nat} {closed : List Nat} (hs : s.Orderly tasks closed)
    (hopen : task ∉ closed) (hallowed : s.allowance ≠ 0) :
    Heeds (s.unfinished task) s (s.look setup task) ∨ (s.look setup task).work < s.work := by
  unfold look
  split
  · exact attend_idle setup hs hopen hallowed
  · rcases round_idle setup (numbersOf task 0 s.strands) hallowed with heq | hlt
    · rw [heq]
      exact .inl ⟨rfl, .inl ⟨rfl, Nat.le_refl _⟩⟩
    · exact .inr hlt

theorem Heeds.load_eq {left : Nat} {t : State} (h : Heeds left s t) :
    t.load 1 + s.alerts.length = s.load 1 + t.alerts.length := by
  have hshape : t.load 1 = 2 * s.postponed.countP s.pending + 1 * t.alerts.length + s.agenda.length := by
    rw [h.same]
    rfl
  rw [hshape, load]
  omega

theorem Heeds.strands_eq {left : Nat} {t : State} (h : Heeds left s t) : t.strands = s.strands := by
  rw [h.same]

/-- When a decision gives nobody up, whoever it calls up was paid for. -/
theorem settle_load {setup : Setup} {task : Nat} (hsame : (s.settle setup task).strands = s.strands) :
    (s.settle setup task).load 1 + (s.settle setup task).again.toNat ≤ s.load 1 + s.again.toNat := by
  have hcharge := settle_charge 1 setup task s
  have hwork : (s.settle setup task).work = s.work := by rw [work, work, hsame]
  simp only [charge, hwork] at hcharge
  omega

/-- A worker whose strands are all over does not come back. -/
theorem endTurn_over_load {task : Nat} (hover : s.isOver task = true) :
    (s.endTurn task).load 1 = s.load 1 := by
  change 2 * s.postponed.countP s.pending + 1 * s.alerts.length +
    (if s.again && !s.isOver task then s.agenda ++ [task] else s.agenda).length = _
  simp [hover, load]

/-- Where nothing but the worker's having looked has happened, the load becomes less in the rest of the turn
than it was with the worker on the agenda. -/
theorem Heeds.endTurn_load_le {setup : Setup} {task : Nat} {t : State} (h : Heeds (s.unfinished task) s t)
    (hagain : s.again = false) (hsame : (t.settle setup task).strands = t.strands) :
    ((t.settle setup task).endTurn task).load 1 ≤ s.load 1 := by
  have hload := h.load_eq
  have hsettle := settle_load hsame
  have hend := endTurn_load 1 (t.settle setup task) task
  rcases h.heard with ⟨hkept, hle⟩ | ⟨hback, hle⟩
  · have hnot : t.again.toNat = 0 := by
      rw [hkept, hagain]
      rfl
    omega
  · have hback' : t.again.toNat = 1 := by
      rw [hback]
      rfl
    by_cases hzero : s.unfinished task = 0
    · have hover : (t.settle setup task).isOver task = true := by
        have hcount := List.countP_eq_zero.1 hzero
        rw [isOver, strandsOf, hsame, h.strands_eq]
        exact List.all_eq_true.2 fun strand hmem => by simpa using hcount strand hmem
      have hagain' : (t.settle setup task).again.toNat = 1 := by
        rw [settle_again setup task hback]
        rfl
      rw [endTurn_over_load hover]
      omega
    · -- As many alerts are gone as strands are left, which pays for the worker's coming back.
      omega

/-- In a turn work is used up, or the load becomes less. -/
theorem turn_idle {setup : Setup} {task : Nat} {rest : List Nat} (hs : s.Between setup fun _ => False)
    (hagenda : s.agenda = task :: rest) :
    ({ s with agenda := rest }.turn setup task).work < s.work ∨
    ({ s with agenda := rest }.turn setup task).work = s.work ∧
      ({ s with agenda := rest }.turn setup task).load 1 < s.load 1 := by
  let u := { s with agenda := rest }.beginTurn task
  let v := u.look setup task
  let w := v.settle setup task
  -- The worker that has the turn is off the agenda.
  have hload : u.load 1 + 1 = s.load 1 := by
    change 2 * s.postponed.countP s.pending + 1 * s.alerts.length + rest.length + 1 = _
    rw [load, hagenda, List.length_cons]
    omega
  have hsettle : Course setup v w := Course.settle v task
  change w.work < s.work ∨ w.work = s.work ∧ (w.endTurn task).load 1 < s.load 1
  obtain ⟨horderly, -⟩ := hs.beginTurn hagenda
  have hopen : task ∉ s.reported := hs.orderly.agenda_open task (hagenda ▸ List.mem_cons_self)
  rcases look_idle setup horderly hopen (by simp [beginTurn, turnAllowance]) with hheeds | hlt
  · have hwork : v.work = s.work := by
      rw [work, hheeds.strands_eq]
      rfl
    rcases hsettle.eq_or_work_lt with hsettled | hlt
    · have hle : (w.endTurn task).load 1 ≤ u.load 1 := hheeds.endTurn_load_le rfl hsettled
      refine .inr ⟨by rw [← hwork, work, work, hsettled], ?_⟩
      omega
    · exact .inl (hwork ▸ hlt)
  · exact .inl (Nat.lt_of_le_of_lt hsettle.work_le hlt)

end State
end Run
end Inquiry
