import Inquiry.Proofs.Run.Attention

/-!
# Proofs.Run.Verdict — what a decision says

* `verdict?_cases`: a decision is the crash or the failure of a strand, or all strands are finished.
* `verdict?_isSome_of_isOver`: strands that are all over by themselves allow a decision.
* `verdict?_congr_none`: only the standings of the strands count for whether there is one.
-/

namespace Inquiry
namespace Run

namespace Strand

/-- Why a strand has come to an end before its links were all answered. -/
def error? (strand : Strand) : Option TaskError :=
  match strand.phase with
  | .failed e => some e
  | .crashed message => some (.aborted ("task worker panicked: " ++ message))
  | _ => none

variable {strand : Strand}

theorem crash?_eq_some {message : String} :
    strand.crash? = some message ↔ strand.phase = .crashed message := by
  unfold crash?
  split <;> simp_all

theorem failure?_eq_some {e : TaskError} : strand.failure? = some e ↔ strand.phase = .failed e := by
  unfold failure?
  split <;> simp_all

theorem isFinished_iff : strand.isFinished = true ↔ strand.phase = .finished := by
  unfold isFinished
  split <;> simp_all

/-- A strand that is over, and was not given up, is finished, or has failed or crashed. -/
theorem over_cases (hover : strand.phase.isOver = true) (hkept : strand.phase ≠ .dropped) :
    strand.phase = .finished ∨ (∃ e, strand.phase = .failed e) ∨
      ∃ message, strand.phase = .crashed message := by
  cases hp : strand.phase with
  | finished => exact .inl rfl
  | failed e => exact .inr (.inl ⟨e, rfl⟩)
  | crashed message => exact .inr (.inr ⟨message, rfl⟩)
  | dropped => exact absurd hp hkept
  | _ =>
    rw [hp] at hover
    cases hover

end Strand

/-! ## Failures -/

theorem leadingFailure?_mem {strands : List Strand} {e : TaskError}
    (h : leadingFailure? strands = some e) : ∃ strand ∈ strands, strand.failure? = some e := by
  induction strands with
  | nil => cases h
  | cons s strands ih =>
    unfold leadingFailure? at h
    split at h
    · obtain ⟨strand, hmem, hfailure⟩ := ih h
      exact ⟨strand, List.mem_cons_of_mem _ hmem, hfailure⟩
    · exact ⟨s, List.mem_cons_self, h⟩

theorem decidingFailure?_mem {strands : List Strand} {e : TaskError}
    (h : decidingFailure? strands = some e) : ∃ strand ∈ strands, strand.failure? = some e := by
  unfold decidingFailure? at h
  split at h
  · exact List.exists_of_findSome?_eq_some h
  · exact leadingFailure?_mem h

/-- With nobody unfinished in front, the first failure counts. -/
theorem leadingFailure?_isSome {strands : List Strand}
    (hends : ∀ strand ∈ strands, strand.isFinished = true ∨ strand.failure?.isSome = true)
    (hsome : ∃ strand ∈ strands, strand.isFinished = false) :
    (leadingFailure? strands).isSome = true := by
  induction strands with
  | nil => simp at hsome
  | cons s strands ih =>
    unfold leadingFailure?
    split
    · rename_i hfinished
      obtain ⟨strand, hmem, hleft⟩ := hsome
      refine ih (fun other hother => hends other (List.mem_cons_of_mem _ hother)) ⟨strand, ?_, hleft⟩
      rcases List.mem_cons.1 hmem with rfl | hmem
      · rw [hfinished] at hleft
        cases hleft
      · exact hmem
    · rename_i hleft
      exact (hends s List.mem_cons_self).resolve_left hleft

/-! ## Decisions -/

/-- What a decision comes from. -/
theorem verdict?_cases {strands : List Strand} {verdict : Verdict} (h : verdict? strands = some verdict) :
    (∃ strand ∈ strands, ∃ message, strand.phase = .crashed message ∧
      verdict = .error (.aborted ("task worker panicked: " ++ message))) ∨
    (∃ strand ∈ strands, ∃ e, strand.phase = .failed e ∧ verdict = .error e) ∨
    ((∀ strand ∈ strands, strand.phase = .finished) ∧
      verdict = .ok (strands.map Strand.chainOutput)) := by
  unfold verdict? at h
  split at h
  · rename_i message hcrash
    obtain ⟨strand, hmem, hstrand⟩ := List.exists_of_findSome?_eq_some hcrash
    cases h
    exact .inl ⟨strand, hmem, message, Strand.crash?_eq_some.1 hstrand, rfl⟩
  · split at h
    · rename_i e hfailure
      obtain ⟨strand, hmem, hstrand⟩ := decidingFailure?_mem hfailure
      cases h
      exact .inr (.inl ⟨strand, hmem, e, Strand.failure?_eq_some.1 hstrand, rfl⟩)
    · split at h
      · rename_i hall
        cases h
        refine .inr (.inr ⟨fun strand hmem => ?_, rfl⟩)
        exact Strand.isFinished_iff.1 (List.all_eq_true.1 hall strand hmem)
      · cases h

theorem verdict?_isSome_of_crash {strands : List Strand} {strand : Strand} {message : String}
    (hmem : strand ∈ strands) (hp : strand.phase = .crashed message) :
    (verdict? strands).isSome = true := by
  unfold verdict?
  split
  · rfl
  · rename_i hnone
    have hcrash := List.findSome?_eq_none_iff.1 hnone strand hmem
    rw [Strand.crash?_eq_some.2 hp] at hcrash
    cases hcrash

/-- A failure decides a small group at once. -/
theorem verdict?_isSome_of_failure {strands : List Strand} {strand : Strand} {e : TaskError}
    (hsmall : strands.length ≤ smallSize) (hmem : strand ∈ strands) (hp : strand.phase = .failed e) :
    (verdict? strands).isSome = true := by
  unfold verdict?
  split
  · rfl
  · split
    · rfl
    · rename_i hnone
      rw [decidingFailure?, if_pos hsmall] at hnone
      have hfailure := List.findSome?_eq_none_iff.1 hnone strand hmem
      rw [Strand.failure?_eq_some.2 hp] at hfailure
      cases hfailure

/-- Strands that are all over, none of them given up, decide their task. -/
theorem verdict?_isSome_of_isOver {strands : List Strand}
    (hover : ∀ strand ∈ strands, strand.phase.isOver = true)
    (hkept : ∀ strand ∈ strands, strand.phase ≠ .dropped) : (verdict? strands).isSome = true := by
  by_cases hcrash : ∃ strand ∈ strands, ∃ message, strand.phase = .crashed message
  · obtain ⟨strand, hmem, message, hp⟩ := hcrash
    exact verdict?_isSome_of_crash hmem hp
  have hends : ∀ strand ∈ strands, strand.phase = .finished ∨ ∃ e, strand.phase = .failed e := by
    intro strand hmem
    rcases Strand.over_cases (hover strand hmem) (hkept strand hmem) with h | h | ⟨message, h⟩
    · exact .inl h
    · exact .inr h
    · exact absurd ⟨strand, hmem, message, h⟩ hcrash
  unfold verdict?
  split
  · rfl
  · split
    · rfl
    · rename_i hnone
      split
      · rfl
      · rename_i hleft
        -- Then some strand has failed, and it would have decided the task.
        obtain ⟨strand, hmem, hunfinished⟩ : ∃ strand ∈ strands, strand.isFinished = false := by
          simpa using hleft
        have hfailed : ∃ e, strand.phase = .failed e := by
          rcases hends strand hmem with h | h
          · rw [Strand.isFinished_iff.2 h] at hunfinished
            cases hunfinished
          · exact h
        obtain ⟨e, hp⟩ := hfailed
        have hsome : (decidingFailure? strands).isSome = true := by
          unfold decidingFailure?
          split
          · refine List.findSome?_isSome_iff.2 ⟨strand, hmem, ?_⟩
            rw [Strand.failure?_eq_some.2 hp]
            rfl
          · refine leadingFailure?_isSome ?_ ⟨strand, hmem, hunfinished⟩
            intro other hother
            rcases hends other hother with h | ⟨e', h⟩
            · exact .inl (Strand.isFinished_iff.2 h)
            · refine .inr ?_
              rw [Strand.failure?_eq_some.2 h]
              rfl
        rw [hnone] at hsome
        cases hsome

/-- In a small group the only strand that has failed decides. -/
theorem verdict?_of_only {front back : List Strand} {strand : Strand} {e : TaskError}
    (hsmall : (front ++ strand :: back).length ≤ smallSize) (he : strand.error? = some e)
    (hfront : ∀ other ∈ front, other.error? = none) (hback : ∀ other ∈ back, other.error? = none) :
    verdict? (front ++ strand :: back) = some (.error e) := by
  have hcrash : ∀ l : List Strand, (∀ other ∈ l, other.error? = none) → l.findSome? Strand.crash? = none := by
    refine fun l hl => List.findSome?_eq_none_iff.2 fun other hmem => ?_
    have hnone := hl other hmem
    cases hp : other.phase <;> simp_all [Strand.error?, Strand.crash?]
  have hfailure : ∀ l : List Strand, (∀ other ∈ l, other.error? = none) →
      l.findSome? Strand.failure? = none := by
    refine fun l hl => List.findSome?_eq_none_iff.2 fun other hmem => ?_
    have hnone := hl other hmem
    cases hp : other.phase <;> simp_all [Strand.error?, Strand.failure?]
  unfold verdict? decidingFailure?
  rw [if_pos hsmall]
  simp only [List.findSome?_append, List.findSome?_cons, hcrash front hfront, hcrash back hback,
    hfailure front hfront, hfailure back hback, Option.none_or]
  cases hp : strand.phase with
  | failed e' =>
    obtain rfl : e' = e := by simpa [Strand.error?, hp] using he
    simp [Strand.crash?, Strand.failure?, hp]
  | crashed message =>
    obtain rfl : _ = e := by simpa [Strand.error?, hp] using he
    simp [Strand.crash?, hp]
  | _ => simp [Strand.error?, hp] at he

/-! ## Decisions and standings -/

theorem leadingFailure?_congr {as bs : List Strand}
    (h : bs.map Strand.standing = as.map Strand.standing) :
    leadingFailure? bs = leadingFailure? as := by
  induction as generalizing bs with
  | nil =>
    obtain rfl : bs = [] := by simpa using h
    rfl
  | cons a as ih =>
    cases bs with
    | nil => cases h
    | cons b bs =>
      simp only [List.map_cons, List.cons.injEq] at h
      have hfinished : b.isFinished = a.isFinished := congrArg Standing.finished h.1
      have hfailure : b.failure? = a.failure? := congrArg Standing.failure? h.1
      rw [leadingFailure?, leadingFailure?, hfinished, hfailure, ih h.2]

/-- Only the standings count for whether strands decide their task. -/
theorem verdict?_congr_none {as bs : List Strand}
    (h : bs.map Strand.standing = as.map Strand.standing) (has : verdict? as = none) :
    verdict? bs = none := by
  have hcrash : ∀ strands : List Strand, strands.findSome? Strand.crash? =
      (strands.map Strand.standing).findSome? Standing.crash? := by
    intro strands
    rw [List.findSome?_map]
    rfl
  have hfailure : ∀ strands : List Strand, strands.findSome? Strand.failure? =
      (strands.map Strand.standing).findSome? Standing.failure? := by
    intro strands
    rw [List.findSome?_map]
    rfl
  have hfinished : ∀ strands : List Strand, strands.all Strand.isFinished =
      (strands.map Strand.standing).all Standing.finished := by
    intro strands
    rw [List.all_map]
    rfl
  have hdeciding : decidingFailure? bs = decidingFailure? as := by
    have hlength : bs.length = as.length := by
      simpa using congrArg List.length h
    rw [decidingFailure?, decidingFailure?, hlength, hfailure, hfailure, h, leadingFailure?_congr h]
  unfold verdict? at has ⊢
  rw [hcrash, h, ← hcrash, hdeciding, hfinished, h, ← hfinished]
  cases hc : as.findSome? Strand.crash? with
  | some message => simp [hc] at has
  | none =>
    cases hd : decidingFailure? as with
    | some e => simp [hc, hd] at has
    | none =>
      cases hall : as.all Strand.isFinished with
      | true => simp [hc, hd, hall] at has
      | false => rfl

end Run
end Inquiry
