import Mathlib.Data.List.Forall2
import Inquiry.Proofs.Run.Move

/-!
# Proofs.Run.Pass — what a strand passes through

A move of a run is, for each strand, some passes from a phase to a later one. What is true of a strand by
itself is kept by every pass, and so by every course.

* `Strand.Pass` lists the passes; `Strand.Passes` is any number of them at one time.
* `Strand.Pushed` lists those that a strand goes through while no worker looks at it; `StrandsPushed.release`
  and `State.report_pushed` are how they come about.
* `Move.passes`: every move is made of passes.
* `Strand.Pass.work_lt`: no strand passes through a phase twice.
-/

namespace Inquiry
namespace Run

/-! ## Relations between lists -/

theorem forall₂_comp {α β γ : Type} {R : α → β → Prop} {S : β → γ → Prop} {T : α → γ → Prop}
    (h : ∀ a b c, R a b → S b c → T a c) {l₁ : List α} {l₂ : List β} {l₃ : List γ}
    (h₁ : List.Forall₂ R l₁ l₂) (h₂ : List.Forall₂ S l₂ l₃) : List.Forall₂ T l₁ l₃ := by
  induction h₁ generalizing l₃ with
  | nil =>
    cases h₂
    exact .nil
  | cons hab _ ih =>
    cases h₂ with
    | cons hbc h₂ => exact .cons (h _ _ _ hab hbc) (ih h₂)

theorem forall₂_set {α : Type} {R : α → α → Prop} (hrefl : ∀ a, R a a) {l : List α} {i : Nat}
    {a b : α} (hi : l[i]? = some a) (h : R a b) : List.Forall₂ R l (l.set i b) := by
  induction l generalizing i with
  | nil => simp at hi
  | cons x l ih =>
    cases i with
    | zero =>
      obtain rfl : x = a := by simpa using hi
      exact .cons h (List.forall₂_same.2 fun y _ => hrefl y)
    | succ i => exact .cons (hrefl x) (ih (by simpa using hi))

/-- An element of a list in which one has been replaced. -/
theorem getElem?_set_cases {α : Type} {l : List α} {i j : Nat} {a b : α} (h : (l.set i a)[j]? = some b) :
    (i = j ∧ b = a) ∨ (i ≠ j ∧ l[j]? = some b) := by
  by_cases hij : i = j
  · refine .inl ⟨hij, ?_⟩
    have hmem := List.getElem?_eq_some_iff.1 h
    simpa [hij] using hmem.2.symm
  · rw [List.getElem?_set_ne hij] at h
    exact .inr ⟨hij, h⟩

theorem forall₂_getElem? {α β : Type} {R : α → β → Prop} {l : List α} {l' : List β}
    (h : List.Forall₂ R l l') {i : Nat} {b : β} (hi : l'[i]? = some b) :
    ∃ a, l[i]? = some a ∧ R a b := by
  induction h generalizing i with
  | nil => simp at hi
  | @cons a _ _ _ hab _ ih =>
    cases i with
    | zero =>
      obtain rfl : _ = b := by simpa using hi
      exact ⟨a, rfl, hab⟩
    | succ i => simpa using ih (by simpa using hi)

theorem forall₂_mem {α β : Type} {R : α → β → Prop} {l : List α} {l' : List β}
    (h : List.Forall₂ R l l') {b : β} (hb : b ∈ l') : ∃ a ∈ l, R a b := by
  obtain ⟨i, hi⟩ := List.mem_iff_getElem?.1 hb
  obtain ⟨a, ha, hab⟩ := forall₂_getElem? h hi
  exact ⟨a, List.mem_of_getElem? ha, hab⟩

theorem forall₂_split {α β : Type} {R : α → β → Prop} {front back : List α} {a : α} {l : List β}
    (h : List.Forall₂ R (front ++ a :: back) l) :
    ∃ front' b back', l = front' ++ b :: back' ∧ List.Forall₂ R front front' ∧ R a b ∧
      List.Forall₂ R back back' := by
  induction front generalizing l with
  | nil =>
    cases h with
    | cons hab hback => exact ⟨[], _, _, rfl, .nil, hab, hback⟩
  | cons x front ih =>
    cases h with
    | cons hxy hrest =>
      obtain ⟨front', b, back', rfl, hfront, hab, hback⟩ := ih hrest
      exact ⟨_ :: front', b, back', rfl, .cons hxy hfront, hab, hback⟩

/-! ## Passes -/

namespace Strand

/-- A strand goes from its phase to another. -/
inductive Pass (setup : Setup) (now : Nat) : Strand → Strand → Prop
  | queue {strand : Strand} {link : Leaf} {rest : List Leaf} {ticket : Nat}
      (phase : strand.phase = .ready link rest) :
      Pass setup now strand { strand with phase := .waiting ticket link rest }
  | take {strand : Strand} {link : Leaf} {rest : List Leaf}
      (phase : strand.phase = .ready link rest) :
      Pass setup now strand { strand with phase := .holding link rest }
  | grant {strand : Strand} {ticket : Nat} {link : Leaf} {rest : List Leaf}
      (phase : strand.phase = .waiting ticket link rest) :
      Pass setup now strand { strand with phase := .granted link rest }
  | see {strand : Strand} {link : Leaf} {rest : List Leaf}
      (phase : strand.phase = .granted link rest) :
      Pass setup now strand { strand with phase := .holding link rest }
  | launch {strand : Strand} {link : Leaf} {rest : List Leaf} {ticket : Nat}
      (phase : strand.phase = .holding link rest) :
      Pass setup now strand { strand with
        phase := .calling ticket link rest
          (now + (setup.backend link strand.context).duration setup.limits)
          ((setup.backend link strand.context).ending setup.limits) }
  | conclude {strand : Strand} {ticket : Nat} {link : Leaf} {rest : List Leaf} {ends : Nat}
      {ending : Ending} (phase : strand.phase = .calling ticket link rest ends ending)
      (due : ends ≤ now) : Pass setup now strand (strand.conclude setup link rest ending)
  | drop {strand : Strand} (active : strand.phase.isOver = false) :
      Pass setup now strand { strand with phase := .dropped }

/-- Any number of passes at one time. -/
abbrev Passes (setup : Setup) (now : Nat) : Strand → Strand → Prop :=
  Relation.ReflTransGen (Pass setup now)

/-- What a strand goes through while no worker looks at it: it is given a permit, or it is given up. -/
inductive Pushed : Strand → Strand → Prop
  | grant {strand : Strand} {ticket : Nat} {link : Leaf} {rest : List Leaf}
      (phase : strand.phase = .waiting ticket link rest) :
      Pushed strand { strand with phase := .granted link rest }
  | drop {strand : Strand} (active : strand.phase.isOver = false) :
      Pushed strand { strand with phase := .dropped }

theorem Pushed.pass {a b : Strand} (setup : Setup) (now : Nat) (h : Pushed a b) : Pass setup now a b := by
  cases h with
  | grant phase => exact .grant phase
  | drop active => exact .drop active

theorem conclude_task (setup : Setup) (strand : Strand) (link : Leaf) (rest : List Leaf)
    (ending : Ending) : (strand.conclude setup link rest ending).task = strand.task := by
  rcases ending with answer | _
  · cases answer <;> rfl
  · rfl

theorem conclude_work (setup : Setup) (strand : Strand) (link : Leaf) (rest : List Leaf)
    (ending : Ending) : (strand.conclude setup link rest ending).phase.work ≤ 5 * rest.length := by
  rcases ending with answer | _
  · rcases answer with r | e | message
    · cases rest with
      | nil => exact Nat.zero_le _
      | cons next rest =>
        simp only [conclude, Phase.work, List.length_cons]
        omega
    · exact Nat.zero_le _
    · exact Nat.zero_le _
  · exact Nat.zero_le _

theorem conclude_ticket? (setup : Setup) (strand : Strand) (link : Leaf) (rest : List Leaf)
    (ending : Ending) : (strand.conclude setup link rest ending).phase.ticket? = none := by
  rcases ending with answer | _
  · rcases answer with r | e | message
    · cases rest <;> rfl
    · rfl
    · rfl
  · rfl

theorem conclude_isCalling (setup : Setup) (strand : Strand) (link : Leaf) (rest : List Leaf)
    (ending : Ending) : (strand.conclude setup link rest ending).phase.isCalling = false := by
  rcases ending with answer | _
  · rcases answer with r | e | message
    · cases rest <;> rfl
    · rfl
    · rfl
  · rfl

variable {setup : Setup} {now : Nat} {a b : Strand}

theorem work_pos_of_isOver (h : a.phase.isOver = false) : 0 < a.phase.work := by
  cases hp : a.phase <;> simp_all [Phase.isOver, Phase.work]

theorem Pass.task (h : Pass setup now a b) : b.task = a.task := by
  cases h with
  | conclude => exact conclude_task _ _ _ _ _
  | _ => rfl

theorem Pass.active (h : Pass setup now a b) : a.phase.isOver = false := by
  cases h with
  | drop active => exact active
  | queue phase => rw [phase]; rfl
  | take phase => rw [phase]; rfl
  | grant phase => rw [phase]; rfl
  | see phase => rw [phase]; rfl
  | launch phase => rw [phase]; rfl
  | conclude phase => rw [phase]; rfl

theorem Pass.work_lt (h : Pass setup now a b) : b.phase.work < a.phase.work := by
  cases h with
  | drop active => exact work_pos_of_isOver active
  | @conclude ticket link rest ends ending phase =>
    rw [phase]
    exact Nat.lt_succ_of_le (conclude_work setup a link rest ending)
  | queue phase => rw [phase]; simp [Phase.work]
  | take phase => rw [phase]; simp [Phase.work]
  | grant phase => rw [phase]; simp [Phase.work]
  | see phase => rw [phase]; simp [Phase.work]
  | launch phase => rw [phase]; simp [Phase.work]

theorem Passes.task (h : Passes setup now a b) : b.task = a.task := by
  induction h with
  | refl => rfl
  | tail _ hpass ih => exact hpass.task.trans ih

theorem Passes.eq_or_work_lt (h : Passes setup now a b) : b = a ∨ b.phase.work < a.phase.work := by
  induction h with
  | refl => exact .inl rfl
  | tail _ hpass ih =>
    refine .inr ?_
    rcases ih with rfl | ih
    · exact hpass.work_lt
    · exact Nat.lt_trans hpass.work_lt ih

/-- Nothing more happens to a strand that is over. -/
theorem Passes.eq_of_isOver (h : Passes setup now a b) (hover : a.phase.isOver = true) : b = a := by
  induction h with
  | refl => rfl
  | tail _ hpass ih =>
    subst ih
    rw [hpass.active] at hover
    cases hover

end Strand

/-! ## Moves are made of passes -/

/-- The strands of a state pass on to those of another, each from its place to the same. -/
abbrev StrandsPass (setup : Setup) (now : Nat) : List Strand → List Strand → Prop :=
  List.Forall₂ (Strand.Passes setup now)

namespace StrandsPass

variable {setup : Setup} {now : Nat} {l l' l'' : List Strand}

theorem refl (l : List Strand) : StrandsPass setup now l l :=
  List.forall₂_same.2 fun _ _ => .refl

theorem trans (h₁ : StrandsPass setup now l l') (h₂ : StrandsPass setup now l' l'') :
    StrandsPass setup now l l'' :=
  forall₂_comp (T := Strand.Passes setup now) (fun _ _ _ hab hbc => hab.trans hbc) h₁ h₂

theorem set {i : Nat} {a b : Strand} (hi : l[i]? = some a) (h : Strand.Pass setup now a b) :
    StrandsPass setup now l (l.set i b) :=
  forall₂_set (fun _ => .refl) hi (.single h)

end StrandsPass

/-- The strands of a state are those of another, but for what happened to them while no worker looked. -/
abbrev StrandsPushed : List Strand → List Strand → Prop :=
  List.Forall₂ (Relation.ReflTransGen Strand.Pushed)

namespace StrandsPushed

variable {l l' l'' : List Strand}

theorem refl (l : List Strand) : StrandsPushed l l :=
  List.forall₂_same.2 fun _ _ => .refl

theorem trans (h₁ : StrandsPushed l l') (h₂ : StrandsPushed l' l'') : StrandsPushed l l'' :=
  forall₂_comp (T := Relation.ReflTransGen Strand.Pushed) (fun _ _ _ hab hbc => hab.trans hbc) h₁ h₂

theorem passes (setup : Setup) (now : Nat) (h : StrandsPushed l l') : StrandsPass setup now l l' :=
  h.imp fun _ _ hab =>
    hab.lift id fun _ _ (hpushed : Strand.Pushed _ _) => hpushed.pass setup now

theorem release (s : State) : StrandsPushed s.strands s.release.strands := by
  rcases s.release_cases with ⟨i, strand, ticket, link, rest, hi, hp, heq⟩ | ⟨_, heq⟩
  · rw [heq, ((s.hand i strand link rest).wake_alike i).strands]
    exact forall₂_set (fun _ => .refl) hi (.single (.grant hp))
  · rw [heq]
    exact refl _

theorem releaseAll (n : Nat) (s : State) : StrandsPushed s.strands (s.releaseAll n).strands := by
  induction n generalizing s with
  | zero => exact refl _
  | succ n ih => exact (release s).trans (ih s.release)

end StrandsPushed

namespace State

/-- The state in which what is left of a task is given up, but its permits are not given back yet. -/
def withdraw (s : State) (task : Nat) : State :=
  { s.recordFarewells (s.strandsOf task) with
    strands := s.strands.map fun strand =>
      if strand.task == task then { strand with phase := strand.phase.giveUp } else strand }

theorem recordFarewells_eq (s : State) (strands : List Strand) :
    s.recordFarewells strands =
      { s with log := (strands.filterMap fun strand =>
          strand.phase.farewell?.map (Stamped.mk s.now)).reverse ++ s.log } := by
  induction strands generalizing s with
  | nil => rfl
  | cons strand strands ih =>
    cases hf : strand.phase.farewell? with
    | none =>
      have hcons : s.recordFarewells (strand :: strands) = s.recordFarewells strands := by
        simp only [recordFarewells, List.foldl_cons, hf]
      rw [hcons, ih]
      simp [hf]
    | some event =>
      have hcons : s.recordFarewells (strand :: strands) = (s.record event).recordFarewells strands := by
        simp only [recordFarewells, List.foldl_cons, hf]
      rw [hcons, ih]
      simp [hf, record]

theorem giveUp_eq (s : State) (task : Nat) :
    s.giveUp task = (s.withdraw task).releaseAll ((s.strandsOf task).countP (·.phase.hasPermit)) := by
  simp only [giveUp, withdraw, recordFarewells_eq]

theorem release_now (s : State) : s.release.now = s.now := by
  rcases s.release_cases with ⟨i, strand, ticket, link, rest, _, _, heq⟩ | ⟨_, heq⟩
  · rw [heq, ((s.hand i strand link rest).wake_alike i).now]
    rfl
  · rw [heq]

theorem releaseAll_now (n : Nat) (s : State) : (s.releaseAll n).now = s.now := by
  induction n generalizing s with
  | zero => rfl
  | succ n ih => exact (ih s.release).trans s.release_now

theorem withdraw_pushed (s : State) (task : Nat) : StrandsPushed s.strands (s.withdraw task).strands := by
  refine List.forall₂_map_right_iff.2 (List.forall₂_same.2 fun strand _ => ?_)
  split
  · cases hover : strand.phase.isOver with
    | true => simpa [Phase.giveUp, hover] using Relation.ReflTransGen.refl
    | false => simpa [Phase.giveUp, hover] using Relation.ReflTransGen.single (Strand.Pushed.drop hover)
  · exact .refl

theorem report_pushed (s : State) (task : Nat) (outcome : Outcome) :
    StrandsPushed s.strands (s.report task outcome).strands := by
  have hreport : (s.report task outcome).strands = (s.giveUp task).strands := rfl
  rw [hreport, giveUp_eq]
  exact (s.withdraw_pushed task).trans (.releaseAll _ _)

end State

/-- A move is made of passes of strands. -/
theorem Move.passes {setup : Setup} {s t : State} (h : Move setup s t) :
    StrandsPass setup s.now s.strands t.strands := by
  cases h with
  | queue hi hp => exact .set hi (.queue hp)
  | take hi hp => exact .set hi (.take hp)
  | see hi hp => exact .set hi (.see hp)
  | launch hi hp => exact .set hi (.launch hp)
  | @conclude i strand ticket link rest ends ending hi hp hdue =>
    have hset : StrandsPass setup s.now s.strands
        (s.strands.set i (strand.conclude setup link rest ending)) := .set hi (.conclude hp hdue)
    exact hset.trans ((StrandsPushed.release ((s.record (ending.event link)).setStrand i _)).passes _ _)
  | decide => exact (s.report_pushed _ _).passes _ _
  | elapse => exact .refl _
  | schedule h =>
    rw [h.strands]
    exact .refl _

end Run
end Inquiry
