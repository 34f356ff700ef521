import Inquiry.Proofs.Run.Course

/-!
# Proofs.Run.Permits — no permit is lost

A permit is free, or a strand has it. None is free while a strand waits for one.

* `State.Balanced` says so of a state in which some permits are on their way back.
* `Course.balanced`: every course keeps the balance.
-/

namespace Inquiry
namespace Run

theorem countP_set {α : Type} (p : α → Bool) {l : List α} {i : Nat} {a : α} (b : α)
    (hi : l[i]? = some a) :
    (l.set i b).countP p + (if p a then 1 else 0) = l.countP p + (if p b then 1 else 0) := by
  induction l generalizing i with
  | nil => simp at hi
  | cons x l ih =>
    cases i with
    | zero =>
      obtain rfl : x = a := by simpa using hi
      simp only [List.set_cons_zero, List.countP_cons]
      omega
    | succ i =>
      have htail := ih (by simpa using hi)
      simp only [List.set_cons_succ, List.countP_cons]
      omega

theorem Strand.conclude_hasPermit (setup : Setup) (strand : Strand) (link : Leaf) (rest : List Leaf)
    (ending : Ending) : (strand.conclude setup link rest ending).phase.hasPermit = false := by
  rcases ending with answer | _
  · rcases answer with r | e | message
    · cases rest <;> rfl
    · rfl
    · rfl
  · rfl

namespace State

/-- The number of permits that strands have. -/
def held (s : State) : Nat := s.strands.countP (·.phase.hasPermit)

/-- What is true of no strand that is given up was true of so many more as there are in the task. -/
theorem withdraw_countP {p : Phase → Bool} (hp : ∀ phase : Phase, p phase.giveUp = false) (s : State)
    (task : Nat) : (s.withdraw task).strands.countP (p ·.phase) + (s.strandsOf task).countP (p ·.phase) =
      s.strands.countP (p ·.phase) := by
  have hcount : ∀ l : List Strand,
      (l.map fun strand => if strand.task == task then
          { strand with phase := strand.phase.giveUp } else strand).countP (p ·.phase) +
        (l.filter (·.task == task)).countP (p ·.phase) = l.countP (p ·.phase) := by
    intro l
    induction l with
    | nil => rfl
    | cons strand l ih =>
      have hnone := hp strand.phase
      rw [List.map_cons, List.countP_cons, List.countP_cons, List.filter_cons]
      split
      · rw [List.countP_cons]
        simp only [hnone] at *
        simp at *
        omega
      · omega
  exact hcount s.strands

/-- All permits are accounted for, `spare` of them on their way back, and none is free while a strand
waits. -/
structure Balanced (permits spare : Nat) (s : State) : Prop where
  sum : s.free + s.held + spare = permits
  busy : ∀ strand ∈ s.strands, strand.phase.ticket? ≠ none → s.free = 0

namespace Balanced

variable {permits spare : Nat} {s t : State}

theorem alike (h : Alike s t) (hs : s.Balanced permits spare) : t.Balanced permits spare := by
  refine ⟨?_, ?_⟩
  · rw [h.free, held, h.strands]
    exact hs.sum
  · rw [h.free, h.strands]
    exact hs.busy

/-- Replacing a strand by one that does not wait, and has a permit or not. -/
theorem set {i : Nat} {strand strand' : Strand} {free spare' : Nat}
    (hi : s.strands[i]? = some strand) (hs : s.Balanced permits spare)
    (hquiet : strand'.phase.ticket? ≠ none → free = 0) (hfree : free = s.free ∨
      ∀ other ∈ s.strands, other.phase.ticket? = none)
    (hsum : free + spare' + (if strand'.phase.hasPermit then 1 else 0) =
      s.free + spare + (if strand.phase.hasPermit then 1 else 0))
    (ht : t.strands = s.strands.set i strand') (htfree : t.free = free) :
    t.Balanced permits spare' := by
  refine ⟨?_, ?_⟩
  · have hcount := countP_set (·.phase.hasPermit) strand' hi
    have hheld := hs.sum
    simp only [held, ht, htfree] at *
    omega
  · intro other hmem hwaits
    rw [htfree]
    rw [ht] at hmem
    rcases List.mem_or_eq_of_mem_set hmem with hmem | rfl
    · rcases hfree with rfl | hnone
      · exact hs.busy other hmem hwaits
      · exact absurd (hnone other hmem) hwaits
    · exact hquiet hwaits

/-- A permit that is given back is spare no longer. -/
theorem release (hs : s.Balanced permits (spare + 1)) : s.release.Balanced permits spare := by
  rcases s.release_cases with ⟨i, strand, ticket, link, rest, hi, hp, heq⟩ | ⟨hnone, heq⟩
  · rw [heq]
    refine alike (wake_alike _ i) ?_
    refine hs.set hi ?_ (.inl rfl) ?_ rfl rfl
    · simp [Phase.ticket?]
    · simp only [hp, Phase.hasPermit, if_true]
      simp
      omega
  · rw [heq]
    refine ⟨?_, ?_⟩
    · have hsum := hs.sum
      simp only [held] at *
      omega
    · intro strand hmem hwaits
      exact absurd (hnone strand hmem) hwaits

theorem releaseAll {n : Nat} (hs : s.Balanced permits (spare + n)) :
    (s.releaseAll n).Balanced permits spare := by
  induction n generalizing s with
  | zero => exact hs
  | succ n ih => exact ih hs.release

theorem withdraw {task : Nat} (hs : s.Balanced permits spare) :
    (s.withdraw task).Balanced permits
      (spare + (s.strandsOf task).countP (·.phase.hasPermit)) := by
  -- What the strands of the task held is spare when they have given up.
  have hcount := s.withdraw_countP (p := Phase.hasPermit) (fun phase => by cases phase <;> rfl) task
  refine ⟨?_, ?_⟩
  · have hsum := hs.sum
    have hfree : (s.withdraw task).free = s.free := by
      rw [State.withdraw, recordFarewells_eq]
    simp only [held, hfree] at *
    omega
  · intro strand hmem hwaits
    simp only [State.withdraw, recordFarewells_eq] at hmem ⊢
    obtain ⟨before, hbefore, rfl⟩ := List.mem_map.1 hmem
    -- A strand that waits has not given up.
    refine hs.busy before hbefore ?_
    intro hnone
    apply hwaits
    split
    · cases hp : before.phase <;> rfl
    · exact hnone

theorem report {task : Nat} {outcome : Outcome} (hs : s.Balanced permits spare) :
    (s.report task outcome).Balanced permits spare := by
  have hgiveUp : (s.giveUp task).Balanced permits spare := by
    rw [giveUp_eq]
    exact hs.withdraw.releaseAll
  exact ⟨hgiveUp.sum, hgiveUp.busy⟩

end Balanced
end State

theorem Move.balanced {setup : Setup} {s t : State} {permits : Nat} (h : Move setup s t)
    (hs : s.Balanced permits 0) : t.Balanced permits 0 := by
  cases h with
  | queue hi hp hfree =>
    refine hs.set hi (fun _ => hfree) (.inl rfl) ?_ rfl rfl
    simp [hp, Phase.hasPermit]
  | @take i strand link rest hi hp hfree =>
    have htake : (s.take i strand link rest).free = s.free - 1 := rfl
    refine hs.set hi (by simp [Phase.ticket?]) (.inr ?_) ?_ rfl htake
    · -- There is a free permit, so nobody waits for one.
      intro other hmem
      by_contra hwaits
      exact hfree (hs.busy other hmem hwaits)
    · simp only [hp, Phase.hasPermit]
      simp
      omega
  | see hi hp =>
    refine hs.set hi (by simp [Phase.ticket?]) (.inl rfl) ?_ rfl rfl
    simp [hp, Phase.hasPermit]
  | launch hi hp =>
    refine hs.set hi (by simp [Phase.ticket?]) (.inl rfl) ?_ rfl rfl
    simp [hp, Phase.hasPermit]
  | @conclude i strand ticket link rest ends ending hi hp =>
    have hpermit := strand.conclude_hasPermit setup link rest ending
    have hquiet := Strand.conclude_ticket? setup strand link rest ending
    have hcalling : strand.phase.hasPermit = true := by
      rw [hp]
      rfl
    -- For a moment the permit is neither held nor free.
    refine State.Balanced.release ?_
    refine hs.set hi (fun hwaits => absurd hquiet hwaits) (.inl rfl) ?_ rfl rfl
    simp [hcalling, hpermit]
  | decide => exact hs.report
  | elapse => exact ⟨hs.sum, hs.busy⟩
  | schedule h => exact hs.alike h

theorem Course.balanced {setup : Setup} {s t : State} {permits : Nat} (h : Course setup s t)
    (hs : s.Balanced permits 0) : t.Balanced permits 0 := by
  induction h with
  | refl => exact hs
  | tail _ hmove ih => exact hmove.balanced ih

theorem Setup.start_balanced (setup : Setup) : setup.start.Balanced setup.limits.permits 0 := by
  have hready : ∀ strand ∈ setup.start.strands, strand.phase.hasPermit = false ∧
      strand.phase.ticket? = none := by
    intro strand hmem
    obtain ⟨link, rest, hp⟩ := setup.start_ready strand hmem
    rw [hp]
    exact ⟨rfl, rfl⟩
  refine ⟨?_, ?_⟩
  · have hheld : setup.start.held = 0 := by
      refine List.countP_eq_zero.2 ?_
      intro strand hmem
      simp [(hready strand hmem).1]
    rw [hheld]
    rfl
  · intro strand hmem hwaits
    exact absurd (hready strand hmem).2 hwaits

end Run
end Inquiry
