import Mathlib.Data.List.Perm.Subperm
import Inquiry.Proofs.Run.Load

/-!
# Proofs.Run.Quiet — the end of a moment

Time stands still until nobody is left to have a turn. Then all strands wait for a permit, or for their
calls to end, or are over, and no task is decided that is not reported.

* `State.potential` becomes less in every turn, and so `State.turnBound` turns are enough.
* `State.Quiet` is the state in which nobody is left.
* `rest_quiet`, `Setup.rest_quiet`: that is how a moment, and a run, comes to rest.
-/

namespace Inquiry
namespace Run
namespace State

variable {setup : Setup} {s t : State} {weight : Nat}

/-! ## What was postponed is called up -/

theorem pending_congr (h : t.strands = s.strands) (i : Nat) : t.pending i = s.pending i := by
  unfold pending isLarge isOver strandsOf
  rw [h]

theorem wake_postponed (s : State) (i : Nat) : (s.wake i).postponed = s.postponed := by
  have hcallUp : ∀ task, (s.callUp task).postponed = s.postponed := by
    intro task
    rcases s.callUp_cases task with ⟨_, heq⟩ | ⟨_, heq⟩ | ⟨_, _, heq⟩ <;> rw [heq]
  cases hi : s.strands[i]? with
  | none => simp [wake, hi]
  | some strand =>
    rcases wake_cases hi with ⟨_, _, heq⟩ | ⟨_, _, _, heq⟩ | ⟨_, _, heq⟩ | ⟨_, _, heq⟩
    · rw [heq]
    · rw [heq]
      exact hcallUp strand.task
    · rw [heq]
    · rw [heq]
      exact hcallUp strand.task

theorem wake_active (s : State) (i : Nat) : (s.wake i).active = s.active := (s.wake_stirs i).active

theorem callUp_again (s : State) (task : Nat) (h : s.active = none) : (s.callUp task).again = s.again := by
  rcases s.callUp_cases task with ⟨hactive, _⟩ | ⟨_, heq⟩ | ⟨_, _, heq⟩
  · rw [h] at hactive
    cases hactive
  · rw [heq]
  · rw [heq]

theorem wake_again (s : State) (i : Nat) (h : s.active = none) : (s.wake i).again = s.again := by
  cases hi : s.strands[i]? with
  | none =>
    have hsame : s.wake i = s := by simp [wake, hi]
    rw [hsame]
  | some strand =>
    rcases wake_cases hi with ⟨_, _, heq⟩ | ⟨_, _, _, heq⟩ | ⟨_, _, heq⟩ | ⟨_, _, heq⟩
    · rw [heq]
    · rw [heq]
      exact s.callUp_again strand.task h
    · rw [heq]
    · rw [heq]
      exact s.callUp_again strand.task h

variable (weight) in
/-- Between turns, calling up workers adds to the load what there is to be called up. -/
theorem foldl_wake_load (is : List Nat) (s : State) (h : s.active = none) :
    (is.foldl wake s).load weight ≤ s.load weight + (weight + 1) * is.countP s.pending := by
  induction is generalizing s with
  | nil => exact Nat.le_add_right _ _
  | cons i is ih =>
    have hwake := s.wake_load weight i
    have hagain := s.wake_again i h
    have hrest := ih (s.wake i) ((s.wake_active i).trans h)
    have hcount : is.countP (s.wake i).pending = is.countP s.pending :=
      congrArg (is.countP ·) (funext (pending_congr (s.wake_alike i).strands))
    rw [hcount] at hrest
    rw [hagain] at hwake
    rw [List.foldl_cons, List.countP_cons, Nat.mul_add]
    split at hwake
    · rename_i hpending
      rw [if_pos hpending]
      omega
    · omega

theorem pause_load (s : State) (h : s.active = none) : s.pause.load 1 ≤ s.load 1 := by
  have hwake := foldl_wake_load 1 s.postponed { s with postponed := [], turns := 0 } h
  have hcount : s.postponed.countP ({ s with postponed := [], turns := 0 } : State).pending =
      s.postponed.countP s.pending := rfl
  have hload : ({ s with postponed := [], turns := 0 } : State).load 1 =
      1 * s.alerts.length + s.agenda.length := by
    simp [load]
  rw [hcount, hload] at hwake
  rw [load.eq_def 1 s]
  exact Nat.le_trans hwake (by omega)

/-- The worker of a strand that has something to be looked at is put on the agenda. -/
theorem wake_agenda {tasks : Nat} {closed : List Nat} (hs : s.Orderly tasks closed) (hidle : s.active = none)
    {i : Nat} {strand : Strand} (hi : s.strands[i]? = some strand) (hpending : s.pending i = true) :
    strand.task ∈ (s.wake i).agenda := by
  have hcalled : strand.task ∈ (s.callUp strand.task).agenda := by
    rcases s.callUp_called strand.task with h | ⟨h, _⟩
    · exact h
    · rw [(s.callUp_stirs strand.task).active, hidle] at h
      cases h
  rcases wake_cases hi with ⟨hlarge, hskip, heq⟩ | ⟨_, _, _, heq⟩ | ⟨hsmall, hover, _⟩ | ⟨_, _, heq⟩
  · have hactive : strand.phase.isOver = false := by simpa [pending, hi, hlarge] using hpending
    have hmem : i ∈ s.alerts := hskip.resolve_left (by simp [hactive])
    obtain ⟨other, hother, _, _, hsummoned⟩ := hs.alerts_strand i hmem
    rw [hi] at hother
    cases hother
    rw [heq]
    refine (hsummoned hactive).resolve_right ?_
    simp [hidle]
  · rw [heq]
    exact hcalled
  · simp [pending, hi, hsmall, hover] at hpending
  · rw [heq]
    exact hcalled

theorem foldl_wake_agenda {tasks : Nat} {closed : List Nat} {is : List Nat} (hs : s.Orderly tasks closed)
    (hidle : s.active = none) :
    (∀ task ∈ s.agenda, task ∈ (is.foldl wake s).agenda) ∧
    ∀ i ∈ is, s.pending i = true → (is.foldl wake s).agenda ≠ [] := by
  induction is generalizing s with
  | nil => exact ⟨fun _ h => h, by simp⟩
  | cons i is ih =>
    obtain ⟨hkept, hrest⟩ := ih (hs.wake i) ((s.wake_active i).trans hidle)
    refine ⟨fun task h => hkept task ((s.wake_stirs i).agenda task h), ?_⟩
    intro j hj hpending
    rw [List.foldl_cons]
    rcases List.mem_cons.1 hj with rfl | hj
    · cases hstrand : s.strands[j]? with
      | none => simp [pending, hstrand] at hpending
      | some strand =>
        exact List.ne_nil_of_mem (hkept _ (wake_agenda hs hidle hstrand hpending))
    · exact hrest j hj ((pending_congr (s.wake_alike i).strands j).trans hpending)

/-! ## The potential -/

theorem length_le_of_nodup {n : Nat} {l : List Nat} (hnodup : l.Nodup) (hlt : ∀ x ∈ l, x < n) :
    l.length ≤ n := by
  have hsub : l ⊆ List.range n := fun x hx => List.mem_range.2 (hlt x hx)
  simpa using (List.subperm_of_subset hnodup hsub).length_le

theorem Orderly.alerts_length {tasks : Nat} {closed : List Nat} (hs : s.Orderly tasks closed) :
    s.alerts.length ≤ s.strands.length := by
  refine length_le_of_nodup hs.alerts_nodup fun i hi => ?_
  obtain ⟨strand, hstrand, _⟩ := hs.alerts_strand i hi
  exact (List.getElem?_eq_some_iff.1 hstrand).1

/-- What becomes less in every turn: a stride is worth `price` times what waits to be looked at. -/
def potential (price : Nat) (s : State) : Nat := s.work * price + s.load 1

theorem refresh_potential (price : Nat) (s : State) (h : s.active = none) :
    s.refresh.potential price ≤ s.potential price := by
  have hwork : s.refresh.work = s.work := by rw [work, work, s.refresh_alike.strands]
  have hload : s.refresh.load 1 ≤ s.load 1 := by
    unfold refresh
    split
    · exact s.pause_load h
    · exact Nat.le_refl _
  rw [potential, potential, hwork]
  omega

theorem nextTurn?_potential {price : Nat} (hs : s.Between setup fun _ => False)
    (hprice : 3 * s.strands.length + 5 ≤ price) (h : s.nextTurn? setup = some t) :
    t.potential price < s.potential price := by
  obtain ⟨r, task, rest, hr, hagenda, ht⟩ := nextTurn?_eq_some h
  have hbetween : r.Between setup fun _ => False := hr ▸ hs.refresh
  have hlength : r.strands.length = s.strands.length := by rw [hr, s.refresh_alike.strands]
  have hrefresh : r.potential price ≤ s.potential price := hr ▸ s.refresh_potential price hs.idle
  have halerts := hbetween.orderly.alerts_length
  have hidle := turn_idle hbetween hagenda
  have hturn := turn_load setup task { r with agenda := rest }
  have hpopped : ({ r with agenda := rest } : State).load 2 + 1 = r.load 1 + r.alerts.length := by
    change 2 * r.postponed.countP r.pending + 2 * r.alerts.length + rest.length + 1 = _
    rw [load, hagenda, List.length_cons]
    omega
  have hwork : ({ r with agenda := rest } : State).work = r.work := rfl
  rw [← ht] at hidle hturn
  rw [hwork] at hturn
  simp only [hlength] at hturn halerts
  have hweight : t.load 1 ≤ t.load 2 := by
    simp only [load]
    omega
  refine Nat.lt_of_lt_of_le ?_ hrefresh
  rw [potential, potential]
  rcases hidle with hlt | ⟨heq, hlt⟩
  · -- Each bit of work that is used up pays for more than the load can have grown.
    obtain ⟨d, hd⟩ := Nat.exists_eq_add_of_lt hlt
    have hpay : (d + 1) * (3 * s.strands.length + 5) ≤ (d + 1) * price := Nat.mul_le_mul_left _ hprice
    have hmore : 3 * s.strands.length + 5 + 5 * d ≤ (d + 1) * (3 * s.strands.length + 5) := by
      rw [Nat.add_mul, Nat.one_mul, Nat.mul_add, Nat.mul_comm d 5]
      omega
    have hsum : r.work * price = t.work * price + (d + 1) * price := by
      rw [← Nat.add_mul, hd, Nat.add_assoc]
    omega
  · rw [heq]
    exact Nat.add_lt_add_left hlt _

theorem turnsUpTo_nextTurn? {price : Nat} (n : Nat) (hs : s.Between setup fun _ => False)
    (hprice : 3 * s.strands.length + 5 ≤ price) (hn : s.potential price ≤ n) :
    (s.turnsUpTo setup n).nextTurn? setup = none := by
  induction n generalizing s with
  | zero =>
    simp only [turnsUpTo]
    cases h : s.nextTurn? setup with
    | none => rfl
    | some t =>
      have hlt := nextTurn?_potential hs hprice h
      omega
  | succ n ih =>
    simp only [turnsUpTo]
    cases h : s.nextTurn? setup with
    | none => exact h
    | some t =>
      have hlt := nextTurn?_potential hs hprice h
      have hlength : t.strands.length = s.strands.length := by
        simpa using congrArg List.length (Course.nextTurn? h).map_task
      exact ih (hs.nextTurn? h) (by rwa [hlength]) (by omega)

/-! ## At rest -/

/-- Nobody is left to have a turn. -/
structure Quiet (setup : Setup) (s : State) : Prop where
  between : s.Between setup fun _ => False
  agenda : s.agenda = []
  postponed : ∀ i ∈ s.postponed, s.pending i = false
  settled : ∀ strand ∈ s.strands, strand.phase.Settled s.now

theorem Quiet.undecided (hs : s.Quiet setup) {task : Nat} (hlt : task < setup.graph.tasks.length)
    (hopen : task ∉ s.reported) : verdict? (s.strandsOf task) = none := by
  rcases hs.between.decided task hlt with h | h | h
  · exact absurd h hopen
  · rw [hs.agenda] at h
    cases h
  · exact h

/-- Nobody is summoned by a pause that leaves the agenda empty. -/
theorem refresh_agenda_nil (hs : s.Between setup fun _ => False) (h : s.refresh.agenda = []) :
    s.agenda = [] ∧ ∀ i ∈ s.postponed, s.pending i = false := by
  have hsummons : (∀ task ∈ s.agenda, task ∈ s.pause.agenda) ∧
      ∀ i ∈ s.postponed, s.pending i = true → s.pause.agenda ≠ [] :=
    foldl_wake_agenda (hs.orderly.of_eq (t := { s with postponed := [], turns := 0 }) rfl rfl rfl rfl)
      hs.idle
  have hempty : s.agenda = [] := by
    by_contra hne
    unfold refresh at h
    split at h
    · obtain ⟨task, hmem⟩ := List.exists_mem_of_ne_nil _ hne
      have hkept : task ∈ s.pause.agenda := hsummons.1 task hmem
      rw [h] at hkept
      cases hkept
    · exact hne h
  refine ⟨hempty, fun i hi => ?_⟩
  have hpause : s.pause.agenda = [] := by
    unfold refresh at h
    rwa [if_pos (by simp [hempty])] at h
  by_contra hpending
  exact hsummons.2 i hi (by simpa using hpending) hpause

/-- A strand that nobody is summoned for is over. -/
theorem isOver_of_not_pending {i : Nat} {strand : Strand} (hi : s.strands[i]? = some strand)
    (h : s.pending i = false) : strand.phase.isOver = true := by
  unfold pending at h
  rw [hi] at h
  simp only at h
  split at h
  · simpa using h
  · exact isOver_of_mem (by simpa using h) (List.mem_of_getElem? hi)

theorem quiet_of_nextTurn? (hs : s.Between setup fun _ => False) (h : s.nextTurn? setup = none) :
    s.Quiet setup := by
  obtain ⟨hempty, hpostponed⟩ := refresh_agenda_nil hs (nextTurn?_eq_none h)
  refine ⟨hs, hempty, hpostponed, fun strand hmem => ?_⟩
  obtain ⟨i, hi⟩ := List.mem_iff_getElem?.1 hmem
  -- A strand that is not settled would be heard by somebody, and nobody has a turn.
  rcases hs.attended i strand hi with h | h | h | ⟨hlarge, h⟩ | ⟨hsmall, h | ⟨hactive, _⟩⟩
  · exact absurd h id
  · exact h
  · exact .of_isOver (isOver_of_not_pending hi (hpostponed i h))
  · obtain ⟨other, hother, _, _, hsummoned⟩ := hs.orderly.alerts_strand i h
    rw [hi] at hother
    cases hother
    refine .of_isOver ?_
    by_contra hactive
    rcases hsummoned (by simpa using hactive) with h | h
    · rw [hempty] at h
      cases h
    · rw [hs.idle] at h
      cases h
  · rw [hempty] at h
    cases h
  · rw [hs.idle] at hactive
    cases hactive

/-- The turns that are given at one time are enough. -/
theorem rest_quiet (hs : s.Between setup fun _ => False) (hpostponed : ∀ i ∈ s.postponed, s.pending i = false) :
    (s.rest setup).Quiet setup := by
  let price := 4 * s.strands.length + 2 * setup.graph.tasks.length + 5
  have hcount : s.postponed.countP s.pending = 0 :=
    List.countP_eq_zero.2 fun i hi => by simp [hpostponed i hi]
  have hload : s.load 1 ≤ price := by
    have halerts := hs.orderly.alerts_length
    have hagenda := length_le_of_nodup hs.orderly.agenda_nodup hs.orderly.agenda_lt
    simp only [load, hcount, price]
    omega
  have hbound : s.potential price ≤ s.turnBound setup := by
    have hsum : s.turnBound setup = s.work * price + price := by
      rw [turnBound, Nat.add_mul, Nat.one_mul]
    rw [potential, hsum]
    exact Nat.add_le_add_left hload _
  refine quiet_of_nextTurn? hs.rest (turnsUpTo_nextTurn? _ hs ?_ hbound)
  simp only [price]
  omega

theorem Quiet.elapse (hs : s.Quiet setup) (time : Nat) : ((s.elapse time).rest setup).Quiet setup := by
  have hstrands := (s.elapse_alike time).strands
  have hkept : ∀ (is : List Nat) (u : State), (is.foldl wake u).postponed = u.postponed := by
    intro is
    induction is with
    | nil => exact fun _ => rfl
    | cons i is ih => exact fun u => (ih (u.wake i)).trans (wake_postponed u i)
  refine rest_quiet (hs.between.elapse time) fun i hi => ?_
  have hmem : i ∈ s.postponed := by
    rw [State.elapse, hkept] at hi
    exact hi
  rw [pending_congr (s := s) hstrands]
  exact hs.postponed i hmem

end State

/-- A run that has begun comes to rest when nobody is left to have a turn. -/
theorem Setup.rest_quiet (setup : Setup) {stop : Option Nat} (hstop : stop ≠ some 0) :
    (setup.rest stop).Quiet setup := by
  refine Setup.rest_induction (fun h => absurd h hstop) ?_ fun s time hs _ _ => hs.elapse time
  exact State.rest_quiet setup.start_between fun i hi => absurd hi List.not_mem_nil

/-- What holds when a run first comes to rest, and is kept from one time at which nobody is left to the next,
holds whenever a run comes to rest. -/
theorem Setup.quiet_induction {setup : Setup} {stop : Option Nat} {P : State → Prop} (hstop : stop ≠ some 0)
    (hrest : P (setup.start.rest setup))
    (hstep : ∀ s time, Course setup setup.start s → s.Quiet setup → nextEnd? s.strands = some time → P s →
      P ((s.elapse time).rest setup)) : P (setup.rest stop) := by
  let Q (s : State) : Prop := Course setup setup.start s ∧ s.Quiet setup ∧ P s
  have hall : Q (setup.rest stop) := by
    refine Setup.rest_induction (fun h => absurd h hstop) ⟨Course.rest _, ?_, hrest⟩ ?_
    · exact State.rest_quiet setup.start_between fun i hi => absurd hi List.not_mem_nil
    · rintro s time ⟨hcourse, hquiet, hs⟩ hnext _
      have htimely : s.Timely := Course.timely hcourse setup.start_timely
      refine ⟨(hcourse.trans (Course.elapse htimely hnext)).trans (Course.rest _), hquiet.elapse time, ?_⟩
      exact hstep s time hcourse hquiet hnext hs
  exact hall.2.2

end Run
end Inquiry
