import Inquiry.Proofs.Run.Verdict

/-!
# Proofs.Run.Turn — what a turn keeps

A worker who has the turn looks at the strands of its task only. When the turn ends, none of them is
forgotten, and the task is reported if its strands decide it.

* `State.Seen` says what comes of a look at the strands of a task.
* `State.look_seen`: how a worker leaves its strands.
-/

namespace Inquiry
namespace Run

theorem mem_numbersOf {task i base : Nat} {strands : List Strand} :
    i ∈ numbersOf task base strands ↔
      ∃ j strand, strands[j]? = some strand ∧ strand.task = task ∧ i = base + j := by
  induction strands generalizing base with
  | nil => simp [numbersOf]
  | cons s strands ih =>
    have htail : i ∈ numbersOf task (base + 1) strands ↔
        ∃ j strand, (s :: strands)[j + 1]? = some strand ∧ strand.task = task ∧ i = base + (j + 1) := by
      simp only [ih, List.getElem?_cons_succ, Nat.add_assoc, Nat.add_comm 1]
    constructor
    · intro h
      unfold numbersOf at h
      split at h
      · rename_i htask
        rcases List.mem_cons.1 h with rfl | h
        · exact ⟨0, s, rfl, htask, rfl⟩
        · obtain ⟨j, strand, hj⟩ := htail.1 h
          exact ⟨j + 1, strand, hj⟩
      · obtain ⟨j, strand, hj⟩ := htail.1 h
        exact ⟨j + 1, strand, hj⟩
    · rintro ⟨j, strand, hj, htask, hi⟩
      unfold numbersOf
      cases j with
      | zero =>
        obtain rfl : s = strand := by simpa using hj
        simp [htask, hi]
      | succ j =>
        have hmem := htail.2 ⟨j, strand, hj, htask, hi⟩
        split
        · exact List.mem_cons_of_mem _ hmem
        · exact hmem

theorem mem_numbersOf_zero {task i : Nat} {strands : List Strand} :
    i ∈ numbersOf task 0 strands ↔ ∃ strand, strands[i]? = some strand ∧ strand.task = task := by
  rw [mem_numbersOf]
  constructor
  · rintro ⟨j, strand, hj, htask, rfl⟩
    exact ⟨strand, by rwa [Nat.zero_add], htask⟩
  · rintro ⟨strand, hi, htask⟩
    exact ⟨i, strand, hi, htask, (Nat.zero_add i).symm⟩

namespace State

/-! ## The strands of one task -/

theorem strandsOf_standings (s : State) (task : Nat) :
    (s.strandsOf task).map Strand.standing = s.standings.filter (·.task == task) := by
  rw [standings, List.filter_map]
  rfl

/-- The number of strands of a task that are not over. -/
def unfinished (s : State) (task : Nat) : Nat := (s.strandsOf task).countP (!·.phase.isOver)

theorem unfinished_eq (s : State) (task : Nat) :
    s.unfinished task = s.standings.countP fun standing => !standing.isOver && standing.task == task := by
  rw [unfinished, strandsOf, List.countP_filter, standings, List.countP_map]
  rfl

theorem filter_set_of_neg {α : Type} {p : α → Bool} {l : List α} {i : Nat} {a b : α}
    (hi : l[i]? = some a) (ha : p a = false) (hb : p b = false) : (l.set i b).filter p = l.filter p := by
  induction l generalizing i with
  | nil => simp at hi
  | cons x l ih =>
    cases i with
    | zero =>
      obtain rfl : x = a := by simpa using hi
      simp [ha, hb]
    | succ i =>
      rw [List.set_cons_succ, List.filter_cons, List.filter_cons, ih (by simpa using hi)]

/-- What a look at the strands of a task leaves as it is. -/
structure Kept (task : Nat) (s t : State) : Prop where
  now : t.now = s.now
  active : t.active = s.active
  reported : t.reported = s.reported
  tasks : t.strands.map Strand.task = s.strands.map Strand.task
  agenda : ∀ other ∈ s.agenda, other ∈ t.agenda
  others : ∀ other, other ≠ task →
    (t.strandsOf other).map Strand.standing = (s.strandsOf other).map Strand.standing

namespace Kept

variable {task i tasks : Nat} {closed : List Nat} {s t u : State}

theorem refl (s : State) : Kept task s s := ⟨rfl, rfl, rfl, rfl, fun _ h => h, fun _ _ => rfl⟩

theorem trans (h₁ : Kept task s t) (h₂ : Kept task t u) : Kept task s u where
  now := h₂.now.trans h₁.now
  active := h₂.active.trans h₁.active
  reported := h₂.reported.trans h₁.reported
  tasks := h₂.tasks.trans h₁.tasks
  agenda other h := h₂.agenda other (h₁.agenda other h)
  others other h := (h₂.others other h).trans (h₁.others other h)

theorem of_looked {strand : Strand} (h : Looked tasks closed i s t) (hi : s.strands[i]? = some strand)
    (htask : strand.task = task) : Kept task s t where
  now := h.stirs.now
  active := h.stirs.active
  reported := h.stirs.reported
  tasks := h.stirs.tasks
  agenda := h.stirs.agenda
  others := by
    intro other hother
    obtain ⟨standing, hstandings⟩ := h.standings
    have hold : s.standings[i]? = some strand.standing := by simp [State.standings, hi]
    have hlt : i < s.standings.length := (List.getElem?_eq_some_iff.1 hold).1
    have hsame : standing.task = task := by
      have htasks := congrArg (·[i]?) h.stirs.tasks
      have hnew : t.standings[i]? = some standing := by simp [hstandings, hlt]
      obtain ⟨strand', hstrand', rfl⟩ : ∃ strand', t.strands[i]? = some strand' ∧
          strand'.standing = standing := by
        simpa [State.standings] using hnew
      simp only [List.getElem?_map, hi, hstrand', Option.map_some, Option.some.injEq] at htasks
      exact htasks.trans htask
    rw [strandsOf_standings, strandsOf_standings, hstandings]
    refine filter_set_of_neg hold ?_ ?_
    · simpa [Strand.standing, htask] using hother.symm
    · simpa [hsame] using hother.symm

end Kept

/-! ## Looking at the strands of a task -/

/-- Whether a strand belongs to a task that is decided. -/
def Decides (s : State) (task i : Nat) : Prop :=
  (verdict? (s.strandsOf task)).isSome = true ∧ ∃ strand, s.strands[i]? = some strand ∧ strand.task = task

/-- What comes of a look at the strands of a task. -/
structure Seen (tasks : Nat) (closed : List Nat) (task : Nat) (s t : State) : Prop where
  kept : Kept task s t
  orderly : t.Orderly tasks closed
  attended : t.Attended (t.Decides task)
  quiet : t.again = true ∨ (verdict? (t.strandsOf task)).isSome = true ∨
    ∀ i ∈ t.alerts, ∀ strand, t.strands[i]? = some strand → strand.task ≠ task

theorem Attended.mono {looked looked' : Nat → Prop} {s : State} (hs : s.Attended looked)
    (h : ∀ i, looked i → looked' i) : s.Attended looked' := by
  intro i strand hi
  rcases hs i strand hi with hl | hl
  · exact .inl (h i hl)
  · exact .inr hl

variable {tasks task : Nat} {closed : List Nat} {s t : State}

/-- Strands of small groups do not ask to be looked at. -/
theorem Orderly.unasked (hs : s.Orderly tasks closed) (hsmall : s.isLarge task = false) :
    ∀ i ∈ s.alerts, ∀ strand, s.strands[i]? = some strand → strand.task ≠ task := by
  rintro i hi strand hstrand rfl
  obtain ⟨other, hother, hlarge, _⟩ := hs.alerts_strand i hi
  rw [hstrand] at hother
  cases hother
  rw [hsmall] at hlarge
  cases hlarge

theorem exists_strand_congr {i : Nat} (h : t.strands.map Strand.task = s.strands.map Strand.task)
    (hi : ∃ strand, s.strands[i]? = some strand ∧ strand.task = task) :
    ∃ strand, t.strands[i]? = some strand ∧ strand.task = task := by
  obtain ⟨strand, hstrand, htask⟩ := hi
  have htasks := congrArg (·[i]?) h
  simpa [hstrand, htask] using htasks

theorem round_seen (setup : Setup) {is : List Nat} (hs : s.Orderly tasks closed)
    (hsmall : s.isLarge task = false)
    (his : ∀ i ∈ is, ∃ strand, s.strands[i]? = some strand ∧ strand.task = task)
    (ha : s.Attended (· ∈ is)) : Seen tasks closed task s (s.round setup is) := by
  induction is generalizing s with
  | nil =>
    refine ⟨.refl s, hs, ha.mono fun i h => absurd h List.not_mem_nil, .inr (.inr (hs.unasked hsmall))⟩
  | cons i is ih =>
    obtain ⟨strand, hstrand, htask⟩ := his i List.mem_cons_self
    have hasked : i ∉ s.alerts := fun hmem => hs.unasked hsmall i hmem strand hstrand htask
    obtain ⟨hlooked, -⟩ := visit_looked setup hs hasked
    have hattended : (s.visit setup i).Attended (· ∈ is) :=
      visit_attended setup hs hasked (ha.mono fun j hj => List.mem_cons.1 hj)
    have hkept : Kept task s (s.visit setup i) := .of_looked hlooked hstrand htask
    have hsmall' : (s.visit setup i).isLarge task = false := by rwa [isLarge_congr hkept.tasks]
    have his' : ∀ j ∈ is, ∃ strand, (s.visit setup i).strands[j]? = some strand ∧ strand.task = task :=
      fun j hj => exists_strand_congr hkept.tasks (his j (List.mem_cons_of_mem _ hj))
    -- A strand that has failed or crashed ends the round, and decides the task.
    have hdecided : (verdict? ((s.visit setup i).strandsOf task)).isSome = true →
        Seen tasks closed task s (s.visit setup i) := fun hsome =>
      ⟨hkept, hlooked.orderly, hattended.mono fun j hj => ⟨hsome, his' j hj⟩, .inr (.inl hsome)⟩
    have hown : ∀ other, (s.visit setup i).strands[i]? = some other →
        other ∈ (s.visit setup i).strandsOf task := by
      intro other hother
      have htasks := congrArg (·[i]?) hkept.tasks
      simp only [List.getElem?_map, hother, hstrand, Option.map_some, Option.some.injEq] at htasks
      simp [strandsOf, List.mem_of_getElem? hother, htasks, htask]
    simp only [round]
    split
    · rename_i e hp
      obtain ⟨other, hother, hphase⟩ := Option.map_eq_some_iff.1 hp
      refine hdecided (verdict?_isSome_of_failure ?_ (hown other hother) hphase)
      simpa [isLarge] using hsmall'
    · rename_i message hp
      obtain ⟨other, hother, hphase⟩ := Option.map_eq_some_iff.1 hp
      exact hdecided (verdict?_isSome_of_crash (hown other hother) hphase)
    · have hrest := ih hlooked.orderly hsmall' his' hattended
      exact { hrest with kept := hkept.trans hrest.kept }

theorem alert?_eq_some {i : Nat} (h : s.alert? task = some i) :
    i ∈ s.alerts ∧ ∃ strand, s.strands[i]? = some strand ∧ strand.task = task := by
  refine ⟨List.mem_of_find?_eq_some h, ?_⟩
  have htask := List.find?_some h
  simpa [Option.any_eq_true] using htask

theorem alert?_eq_none (h : s.alert? task = none) :
    ∀ i ∈ s.alerts, ∀ strand, s.strands[i]? = some strand → strand.task ≠ task := by
  rintro i hi strand hstrand rfl
  have hnone := List.find?_eq_none.1 h i hi
  simp [hstrand] at hnone

/-- A strand of an open task that asks to be looked at is not over. -/
theorem Orderly.alert_active {i : Nat} (hs : s.Orderly tasks closed) (hopen : task ∉ closed)
    (hi : s.alert? task = some i) :
    ∃ strand, s.strands[i]? = some strand ∧ strand.task = task ∧ strand.phase.isOver = false := by
  obtain ⟨hmem, strand, hstrand, htask⟩ := alert?_eq_some hi
  refine ⟨strand, hstrand, htask, ?_⟩
  obtain ⟨other, hother, _, hover, _⟩ := hs.alerts_strand i hmem
  rw [hstrand] at hother
  cases hother
  by_contra h
  exact hopen (htask ▸ hover (by simpa using h))

theorem Orderly.erase (hs : s.Orderly tasks closed) (i : Nat) :
    { s with alerts := s.alerts.erase i }.Orderly tasks closed :=
  { hs with
    alerts_nodup := hs.alerts_nodup.erase i
    alerts_strand := fun j hj => hs.alerts_strand j (List.mem_of_mem_erase hj) }

/-- The strand that is taken out of those that ask to be looked at is about to be looked at. -/
theorem Attended.erase (ha : s.Attended fun _ => False) (i : Nat) :
    { s with alerts := s.alerts.erase i }.Attended fun j => j = i ∨ False := by
  intro j other hother
  by_cases hji : j = i
  · exact .inl (.inl hji)
  · rcases ha j other hother with h | h | h | ⟨hlarge, h⟩ | h
    · exact absurd h id
    · exact .inr (.inl h)
    · exact .inr (.inr (.inl h))
    · exact .inr (.inr (.inr (.inl ⟨hlarge, (List.mem_erase_of_ne hji).2 h⟩)))
    · exact .inr (.inr (.inr (.inr h)))

/-- After a look at an active strand, one strand fewer is unfinished if that one is over. -/
theorem Looked.unfinished {i : Nat} {strand : Strand} (h : Looked tasks closed i s t)
    (hi : s.strands[i]? = some strand) (htask : strand.task = task) (hactive : strand.phase.isOver = false) :
    t.unfinished task ≤ s.unfinished task ∧
    (t.strands[i]?.any (·.phase.isOver) = true → t.unfinished task < s.unfinished task) := by
  obtain ⟨standing, hstandings⟩ := h.standings
  have hold : s.standings[i]? = some strand.standing := by simp [State.standings, hi]
  have hcount := countP_set (fun standing : Standing => !standing.isOver && standing.task == task)
    standing hold
  have hone : (!strand.standing.isOver && strand.standing.task == task) = true := by
    simp [Strand.standing, hactive, htask]
  rw [← hstandings, ← unfinished_eq, ← unfinished_eq, if_pos hone] at hcount
  refine ⟨by split at hcount <;> omega, fun hover => ?_⟩
  have hnew : t.standings[i]? = some standing := by
    rw [hstandings]
    exact List.getElem?_set_self (List.getElem?_eq_some_iff.1 hold).1
  have hstanding : standing.isOver = true := by
    obtain ⟨other, hother, rfl⟩ : ∃ other, t.strands[i]? = some other ∧ other.standing = standing := by
      simpa [State.standings] using hnew
    rw [hother] at hover
    exact hover
  rw [hstanding, Bool.not_true, Bool.false_and, if_neg Bool.false_ne_true] at hcount
  omega

/-- What comes of a look at a strand that has asked for it. -/
theorem hear_seen (setup : Setup) {i : Nat} (hs : s.Orderly tasks closed) (hopen : task ∉ closed)
    (ha : s.Attended fun _ => False) (hi : s.alert? task = some i) :
    Kept task s (s.hear setup i) ∧ (s.hear setup i).Orderly tasks closed ∧
    ((s.hear setup i).Attended fun _ => False) ∧
    (s.hear setup i).unfinished task ≤ s.unfinished task ∧
    ((s.hear setup i).strands[i]?.any (·.phase.isOver) = true →
      (s.hear setup i).unfinished task < s.unfinished task) := by
  obtain ⟨strand, hstrand, htask, hactive⟩ := hs.alert_active hopen hi
  -- The strand has been heard before the look at it begins.
  let u : State := { s with alerts := s.alerts.erase i }
  have hasked : i ∉ u.alerts := hs.alerts_nodup.not_mem_erase
  obtain ⟨hlooked, -⟩ := visit_looked setup (hs.erase i) hasked
  have hkept : Kept task u (u.visit setup i) := .of_looked hlooked hstrand htask
  exact ⟨⟨hkept.now, hkept.active, hkept.reported, hkept.tasks, hkept.agenda, hkept.others⟩,
    hlooked.orderly, visit_attended setup (hs.erase i) hasked (Attended.erase ha i),
    hlooked.unfinished hstrand htask hactive⟩

theorem attend_seen (setup : Setup) {unfinished left : Nat} (hs : s.Orderly tasks closed)
    (hopen : task ∉ closed) (ha : s.Attended fun _ => False) (hcount : s.unfinished task ≤ unfinished) :
    Seen tasks closed task s (s.attend setup task unfinished left) := by
  fun_induction State.attend setup task unfinished left s with
  | case1 unfinished s =>
    have hstirs : Stirs s { s with again := true } := { Stirs.refl s with again := fun _ => rfl }
    refine ⟨⟨rfl, rfl, rfl, rfl, fun _ h => h, fun _ _ => rfl⟩, hs.of_eq rfl rfl rfl rfl, ?_, .inl rfl⟩
    intro i strand hi
    rcases ha i strand hi with h | h | h
    · exact absurd h id
    · exact .inr (.inl h)
    · exact .inr (.inr (hstirs.heard h))
  | case2 unfinished left s hnone =>
    exact ⟨.refl s, hs, ha.mono fun _ h => absurd h id, .inr (.inr (alert?_eq_none hnone))⟩
  | case3 left s i hi t hover =>
    -- The strand was not over before, and so it was counted.
    obtain ⟨-, -, -, -, hlt⟩ := hear_seen setup hs hopen ha hi
    exact absurd (hlt hover) (by omega)
  | case4 left s i hi t hover unfinished hsome =>
    obtain ⟨hkept, horderly, hattended, -, -⟩ := hear_seen setup hs hopen ha hi
    exact ⟨hkept, horderly, hattended.mono fun _ h => absurd h id, .inr (.inl hsome)⟩
  | case5 left s i hi t hover unfinished _ ih =>
    obtain ⟨hkept, horderly, hattended, -, hlt⟩ := hear_seen setup hs hopen ha hi
    have hrest := ih horderly hattended (Nat.le_of_lt_succ (Nat.lt_of_lt_of_le (hlt hover) hcount))
    exact { hrest with kept := hkept.trans hrest.kept }
  | case6 unfinished left s i hi t hover ih =>
    obtain ⟨hkept, horderly, hattended, hle, -⟩ := hear_seen setup hs hopen ha hi
    have hrest := ih horderly hattended (Nat.le_trans hle hcount)
    exact { hrest with kept := hkept.trans hrest.kept }

/-- What comes of a look, which may begin with the strands of a small group forgotten. -/
theorem look_seen (setup : Setup) (hs : s.Orderly tasks closed) (hopen : task ∉ closed)
    (ha : s.Attended fun i => s.isLarge task = false ∧ i ∈ numbersOf task 0 s.strands) :
    Seen tasks closed task s (s.look setup task) := by
  unfold look
  split
  · rename_i hlarge
    refine attend_seen setup hs hopen (ha.mono ?_) (Nat.le_refl _)
    intro i h
    rw [hlarge] at h
    exact absurd h.1 (by simp)
  · rename_i hsmall
    refine round_seen setup hs (by simpa using hsmall) ?_ (ha.mono fun _ h => h.2)
    exact fun i hi => mem_numbersOf_zero.1 hi

end State
end Run
end Inquiry
