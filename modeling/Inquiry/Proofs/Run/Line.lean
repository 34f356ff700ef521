import Inquiry.Proofs.Run.Between
import Inquiry.Proofs.Run.Causality
import Inquiry.Proofs.Run.Permits

/-!
# Proofs.Run.Line — leaves that wait stand in line

Permits that are given back go to the leaf that has waited longest. Between a leaf that waits and one that has
come up behind it, whether that one waits too or its turn in its chain has come, the order is never changed:
no permit is set aside for the later one, and no call of it starts, while the earlier one waits.

* `Waits`, `ComesUpBehind`: who waits at the end of a record, and who has come up behind it.
* `FirstServed`: whoever is served in a record is behind nobody who waits.
* `State.Lined`: tickets tell the order of the line, and who has a permit has nobody in front.
* `Move.lined`, `Course.lined`: every move, and so every course, keeps the line.
-/

namespace Inquiry
namespace Run

/-! ## Who waits, by the record -/

/-- Whether an event brings a leaf up to ask for a permit: it starts to wait for one, or the call of the leaf in
front of it in its chain ends with a result. -/
def Event.BringsUp (chains : List Chain) (leaf : Leaf) : Event → Prop
  | queued l => l = leaf
  | answered l (.result _) => ∃ chain ∈ chains, ∃ front back, chain.toList = front ++ l :: leaf :: back
  | _ => False

/-- Whether a leaf waits no longer after an event: a permit is set aside for it, or it is given up. -/
def Event.EndsWait (leaf : Leaf) : Event → Prop
  | granted l => l = leaf
  | withdrawn l => l = leaf
  | _ => False

/-- Whether a leaf is served with an event: a permit is set aside for it, or its call starts. -/
def Event.Serves (leaf : Leaf) : Event → Prop
  | granted l => l = leaf
  | began l _ => l = leaf
  | _ => False

/-- A leaf waits at the end of a record, the last event first. -/
def Waits (leaf : Leaf) : List Event → Prop
  | [] => False
  | event :: past => event = .queued leaf ∨ Waits leaf past ∧ ¬ event.EndsWait leaf

/-- A leaf has come up while the first one was waiting, and the first one still waits at the end of a record. -/
def ComesUpBehind (chains : List Chain) (first leaf : Leaf) : List Event → Prop
  | [] => False
  | event :: past =>
    (ComesUpBehind chains first leaf past ∨ Waits first past ∧ event.BringsUp chains leaf) ∧
      ¬ event.EndsWait first

/-- Whoever is served in a record has come up behind nobody who waits. -/
def FirstServed (chains : List Chain) : List Event → Prop
  | [] => True
  | event :: past =>
    (∀ leaf, event.Serves leaf → ∀ first, ¬ ComesUpBehind chains first leaf past) ∧ FirstServed chains past

section Record

variable {chains : List Chain} {first leaf : Leaf} {events past : List Event}

theorem ComesUpBehind.waits (h : ComesUpBehind chains first leaf past) : Waits first past := by
  induction past with
  | nil => exact h
  | cons event past ih =>
    obtain ⟨hup, hwaits⟩ := h
    exact .inr ⟨hup.elim ih And.left, hwaits⟩

/-- Who waits after events with which nobody starts to wait has waited before, and these did not end it. -/
theorem Waits.of_append (hnot : ∀ e ∈ events, e ≠ .queued leaf) (h : Waits leaf (events ++ past)) :
    Waits leaf past ∧ ∀ e ∈ events, ¬ e.EndsWait leaf := by
  induction events with
  | nil => exact ⟨h, by simp⟩
  | cons event events ih =>
    rcases h with hqueued | ⟨hrest, hwaits⟩
    · exact absurd hqueued (hnot event List.mem_cons_self)
    · obtain ⟨hpast, hevents⟩ := ih (fun e he => hnot e (List.mem_cons_of_mem _ he)) hrest
      exact ⟨hpast, List.forall_mem_cons.2 ⟨hwaits, hevents⟩⟩

/-- Who has come up after events that do not bring it up has come up before. -/
theorem ComesUpBehind.of_append (hnot : ∀ e ∈ events, ¬ e.BringsUp chains leaf)
    (h : ComesUpBehind chains first leaf (events ++ past)) : ComesUpBehind chains first leaf past := by
  induction events with
  | nil => exact h
  | cons event events ih =>
    refine ih (fun e he => hnot e (List.mem_cons_of_mem _ he)) (h.1.resolve_right fun hup => ?_)
    exact hnot event List.mem_cons_self hup.2

theorem FirstServed.append (hpast : FirstServed chains past) (events : List Event)
    (hnot : ∀ e ∈ events, ∀ leaf, ¬ e.Serves leaf) :
    FirstServed chains (events ++ past) := by
  induction events with
  | nil => exact hpast
  | cons event events ih =>
    exact ⟨fun leaf hserves => absurd hserves (hnot event List.mem_cons_self leaf),
      ih fun e he => hnot e (List.mem_cons_of_mem _ he)⟩

theorem FirstServed.of_append (h : FirstServed chains (events ++ past)) : FirstServed chains past := by
  induction events with
  | nil => exact h
  | cons event events ih => exact ih h.2

/-- Who has started to wait waits until a permit is set aside for it, or it is given up. -/
theorem Waits.of_queued (hnot : ∀ e ∈ events, ¬ e.EndsWait leaf) : Waits leaf (events ++ .queued leaf :: past) := by
  induction events with
  | nil => exact .inl rfl
  | cons event events ih =>
    exact .inr ⟨ih fun e he => hnot e (List.mem_cons_of_mem _ he), hnot event List.mem_cons_self⟩

theorem ComesUpBehind.of_queued (hup : ∃ e ∈ events, e.BringsUp chains leaf)
    (hnot : ∀ e ∈ events, ¬ e.EndsWait first) :
    ComesUpBehind chains first leaf (events ++ .queued first :: past) := by
  induction events with
  | nil => simp at hup
  | cons event events ih =>
    have hrest : ∀ e ∈ events, ¬ e.EndsWait first := fun e he => hnot e (List.mem_cons_of_mem _ he)
    refine ⟨?_, hnot event List.mem_cons_self⟩
    obtain ⟨e, he, hbrings⟩ := hup
    rcases List.mem_cons.1 he with rfl | he
    · exact .inr ⟨.of_queued hrest, hbrings⟩
    · exact .inl (ih ⟨e, he, hbrings⟩ hrest)

/-- Before somebody is served who has come up behind another, the other waits no longer. -/
theorem FirstServed.ends {served : Event} (h : FirstServed chains (served :: (events ++ .queued first :: past)))
    (hserves : served.Serves leaf) (hup : ∃ e ∈ events, e.BringsUp chains leaf) :
    ∃ e ∈ events, e.EndsWait first := by
  by_contra hnone
  refine h.1 leaf hserves first (.of_queued hup fun e he hends => hnone ⟨e, he, hends⟩)

end Record

/-! ## The line -/

/-- The links that a strand has not finished, the next or present one first. -/
def Phase.links : Phase → List Leaf
  | ready link rest => link :: rest
  | waiting _ link rest => link :: rest
  | granted link rest => link :: rest
  | holding link rest => link :: rest
  | calling _ link rest _ _ => link :: rest
  | _ => []

namespace State

/-- The events so far, the last first. -/
def past (s : State) : List Event := s.log.map Stamped.event

/-- A leaf waits with a ticket. -/
def Waiting (s : State) (ticket : Nat) (leaf : Leaf) : Prop :=
  ∃ strand ∈ s.strands, ∃ rest, strand.phase = .waiting ticket leaf rest

/-- A leaf has a permit, and its call has not started. -/
def Ahead (s : State) (leaf : Leaf) : Prop :=
  ∃ strand ∈ s.strands, ∃ rest, strand.phase = .granted leaf rest ∨ strand.phase = .holding leaf rest

/-- Leaves stand in line: tickets tell their order, and who has a permit has nobody in front. -/
structure Lined (chains : List Chain) (s : State) : Prop where
  drawn : ∀ ticket leaf, s.Waiting ticket leaf → ticket < s.nextTicket
  waits : ∀ leaf, Waits leaf s.past → ∃ ticket, s.Waiting ticket leaf
  inLine : ∀ ticket first ticket' leaf, s.Waiting ticket first → s.Waiting ticket' leaf → ticket ≤ ticket' →
    ¬ ComesUpBehind chains leaf first s.past
  ahead : ∀ leaf, s.Ahead leaf → ∀ first, ¬ ComesUpBehind chains first leaf s.past
  served : FirstServed chains s.past

section Strands

variable {s t : State} {i : Nat} {a b : Strand} {leaf : Leaf}

theorem Extends.past {allowed : Event → Prop} (h : s.Extends allowed t) :
    ∃ events, (∀ e ∈ events, allowed e) ∧ t.past = events ++ s.past := by
  obtain ⟨events, hevents, hlog⟩ := h
  refine ⟨events, hevents, ?_⟩
  rw [State.past, hlog, List.map_append, List.map_map, State.past]
  simp [Function.comp_def]

/-- When a strand is replaced, what is true of some strand is true of the new one or was true of another. -/
theorem exists_of_set {P : Strand → Prop} (ht : t.strands = s.strands.set i b) (h : ∃ strand ∈ t.strands, P strand) :
    P b ∨ ∃ strand ∈ s.strands, P strand := by
  obtain ⟨strand, hmem, hstrand⟩ := h
  rw [ht] at hmem
  rcases List.mem_or_eq_of_mem_set hmem with hmem | rfl
  · exact .inr ⟨strand, hmem, hstrand⟩
  · exact .inl hstrand

/-- What was true of some strand is true of it still, unless it is the one that is replaced. -/
theorem exists_set {P : Strand → Prop} (hi : s.strands[i]? = some a) (ht : t.strands = s.strands.set i b)
    (h : ∃ strand ∈ s.strands, P strand) : P a ∨ ∃ strand ∈ t.strands, P strand := by
  obtain ⟨strand, hmem, hstrand⟩ := h
  obtain ⟨j, hj⟩ := List.mem_iff_getElem?.1 hmem
  by_cases hij : i = j
  · obtain rfl : a = strand := Option.some.inj (hi.symm.trans (hij ▸ hj))
    exact .inl hstrand
  · refine .inr ⟨strand, List.mem_of_getElem? (i := j) ?_, hstrand⟩
    rw [ht, List.getElem?_set_ne hij, hj]

end Strands

namespace Lined

variable {chains : List Chain} {s t : State}

/-- Events are recorded with which nobody starts to wait. Who waits no longer has been served or given up, and
nobody is brought up who waits or has a permit. -/
theorem extend (hs : s.Lined chains) (events : List Event) (hpast : t.past = events ++ s.past)
    (hticket : s.nextTicket ≤ t.nextTicket)
    (hwaiting : ∀ ticket leaf, t.Waiting ticket leaf → s.Waiting ticket leaf)
    (hleft : ∀ ticket leaf, s.Waiting ticket leaf → t.Waiting ticket leaf ∨ ∃ e ∈ events, e.EndsWait leaf)
    (hahead : ∀ leaf, t.Ahead leaf → s.Ahead leaf ∨ ∀ first, ¬ ComesUpBehind chains first leaf s.past)
    (hqueued : ∀ e ∈ events, ∀ leaf, e ≠ .queued leaf)
    (hup : ∀ e ∈ events, ∀ leaf, e.BringsUp chains leaf → ¬ t.Ahead leaf ∧ ∀ ticket, ¬ t.Waiting ticket leaf)
    (hserved : FirstServed chains t.past) : t.Lined chains where
  drawn ticket leaf hwaits := Nat.lt_of_lt_of_le (hs.drawn ticket leaf (hwaiting ticket leaf hwaits)) hticket
  waits leaf hwaits := by
    rw [hpast] at hwaits
    obtain ⟨hbefore, hnone⟩ := hwaits.of_append fun e he => hqueued e he leaf
    obtain ⟨ticket, hticket⟩ := hs.waits leaf hbefore
    refine ⟨ticket, (hleft ticket leaf hticket).resolve_right ?_⟩
    rintro ⟨e, he, hends⟩
    exact hnone e he hends
  inLine ticket first ticket' leaf hfirst hleaf hle hbehind := by
    rw [hpast] at hbehind
    refine hs.inLine ticket first ticket' leaf (hwaiting _ _ hfirst) (hwaiting _ _ hleaf) hle ?_
    exact hbehind.of_append fun e he hbrings => (hup e he first hbrings).2 ticket hfirst
  ahead leaf hleaf first hbehind := by
    rw [hpast] at hbehind
    have hbefore := hbehind.of_append fun e he hbrings => (hup e he leaf hbrings).1 hleaf
    rcases hahead leaf hleaf with hleaf | hnobody
    · exact hs.ahead leaf hleaf first hbefore
    · exact hnobody first hbefore
  served := hserved

/-- Nothing is recorded, and nobody but who has nobody in front gets a permit. -/
theorem still (hs : s.Lined chains) (hlog : t.log = s.log) (hticket : s.nextTicket ≤ t.nextTicket)
    (hwaiting : ∀ ticket leaf, t.Waiting ticket leaf ↔ s.Waiting ticket leaf)
    (hahead : ∀ leaf, t.Ahead leaf → s.Ahead leaf ∨ ∀ first, ¬ ComesUpBehind chains first leaf s.past) :
    t.Lined chains := by
  have hpast : t.past = s.past := congrArg (List.map Stamped.event) hlog
  exact hs.extend [] hpast hticket (fun ticket leaf => (hwaiting ticket leaf).1)
    (fun ticket leaf hwaits => .inl ((hwaiting ticket leaf).2 hwaits)) hahead (by simp) (by simp)
    (hpast ▸ hs.served)

theorem alike (hs : s.Lined chains) (h : Alike s t) : t.Lined chains := by
  refine hs.still h.log (Nat.le_of_eq h.nextTicket.symm) (fun ticket leaf => ?_) fun leaf hleaf => .inl ?_
  · rw [Waiting, Waiting, h.strands]
  · rwa [Ahead, h.strands] at hleaf

end Lined
end State

/-! ## Permits go to the front of the line -/

/-- Nobody who waits has drawn a lesser ticket than the oldest. -/
theorem oldest?_least {strands : List Strand} {ticket i : Nat} (h : oldest? strands = some (ticket, i)) :
    ∀ strand ∈ strands, ∀ other, strand.phase.ticket? = some other → ticket ≤ other := by
  induction strands generalizing ticket i with
  | nil => cases h
  | cons first strands ih =>
    have hothers : ∀ {strand other}, strand ∈ strands → strand.phase.ticket? = some other →
        ∃ least j, oldest? strands = some (least, j) ∧ least ≤ other := by
      intro strand other hmem hother
      cases ho : oldest? strands with
      | none =>
        have hnone := oldest?_eq_none ho strand hmem
        rw [hother] at hnone
        cases hnone
      | some p => exact ⟨p.1, p.2, rfl, ih (i := p.2) ho strand hmem other hother⟩
    intro strand hmem other hother
    simp only [oldest?] at h
    rcases List.mem_cons.1 hmem with rfl | hmem
    · rw [hother] at h
      cases ho : oldest? strands with
      | none =>
        simp only [ho, Option.map_none, Option.some.injEq, Prod.mk.injEq] at h
        exact Nat.le_of_eq h.1.symm
      | some p =>
        simp only [ho, Option.map_some] at h
        split at h <;> cases h <;> omega
    · obtain ⟨least, j, ho, hle⟩ := hothers hmem hother
      cases ht : first.phase.ticket? with
      | none =>
        simp only [ht, ho, Option.map_some, Option.some.injEq, Prod.mk.injEq] at h
        omega
      | some own =>
        simp only [ht, ho, Option.map_some] at h
        split at h <;> cases h <;> omega

namespace State

/-- A permit that is given back goes to the front of the line; it is free only when there is none. -/
theorem release_oldest (s : State) :
    (∃ i strand ticket link rest, s.strands[i]? = some strand ∧ strand.phase = .waiting ticket link rest ∧
      (∀ other leaf, s.Waiting other leaf → ticket ≤ other) ∧
      s.release = (s.hand i strand link rest).wake i) ∨
    s.release = { s with free := s.free + 1 } := by
  cases h : oldest? s.strands with
  | none => exact .inr (by simp [release, h])
  | some p =>
    obtain ⟨strand, link, rest, hi, hp⟩ := oldest?_eq_some h
    refine .inl ⟨p.2, strand, p.1, link, rest, hi, hp, ?_, by simp [release, h, grant, hi, hp, hand]⟩
    rintro other leaf ⟨waiter, hmem, rest', hwaits⟩
    exact oldest?_least h waiter hmem other (by rw [hwaits]; rfl)

namespace Lined

variable {chains : List Chain} {s t : State} {i : Nat} {a b : Strand} {link : Leaf}

/-- A strand that does not wait goes on to another phase in which it does not. -/
theorem waiting_iff (hi : s.strands[i]? = some a) (ht : t.strands = s.strands.set i b)
    (ha : a.phase.ticket? = none) (hb : b.phase.ticket? = none) (ticket : Nat) (leaf : Leaf) :
    t.Waiting ticket leaf ↔ s.Waiting ticket leaf := by
  have hnot : ∀ {strand : Strand} {rest}, strand.phase.ticket? = none →
      strand.phase ≠ .waiting ticket leaf rest := by
    rintro strand rest hnone hwaits
    rw [hwaits] at hnone
    cases hnone
  constructor
  · intro h
    exact (exists_of_set ht h).resolve_left fun ⟨_, hwaits⟩ => hnot hb hwaits
  · intro h
    exact (exists_set hi ht h).resolve_left fun ⟨_, hwaits⟩ => hnot ha hwaits

/-- The permit goes to a leaf that nobody is in front of. -/
theorem release (hs : s.Lined chains) : s.release.Lined chains := by
  rcases s.release_oldest with ⟨i, strand, ticket, link, rest, hi, hp, hleast, heq⟩ | heq
  · rw [heq]
    refine alike ?_ (wake_alike _ i)
    have hstrands : (s.hand i strand link rest).strands =
      s.strands.set i { strand with phase := .granted link rest } := rfl
    have hfront : ∀ first, ¬ ComesUpBehind chains first link s.past := by
      intro first hbehind
      obtain ⟨other, hother⟩ := hs.waits first hbehind.waits
      have hwaits : s.Waiting ticket link := ⟨strand, List.mem_of_getElem? hi, rest, hp⟩
      exact hs.inLine ticket link other first hwaits hother (hleast other first hother) hbehind
    refine hs.extend [.granted link] rfl (Nat.le_refl _) ?hwaiting ?hleft ?hahead ?hqueued ?hup ?hserved
    case hwaiting =>
      intro other leaf hwaits
      refine (exists_of_set hstrands hwaits).resolve_left ?_
      rintro ⟨_, hwaits⟩
      cases hwaits
    case hleft =>
      intro other leaf hwaits
      rcases exists_set hi hstrands hwaits with ⟨rest', hwaits⟩ | hwaits
      · rw [hp] at hwaits
        cases hwaits
        exact .inr ⟨_, List.mem_singleton_self _, rfl⟩
      · exact .inl hwaits
    case hahead =>
      intro leaf hleaf
      rcases exists_of_set hstrands hleaf with ⟨rest', hleaf | hleaf⟩ | hleaf
      · cases hleaf
        exact .inr hfront
      · cases hleaf
      · exact .inl hleaf
    case hqueued => simp
    case hup => simp [Event.BringsUp]
    case hserved =>
      refine ⟨fun leaf hserves => ?_, hs.served⟩
      obtain rfl : link = leaf := hserves
      exact hfront
  · rw [heq]
    exact hs.still rfl (Nat.le_refl _) (fun _ _ => Iff.rfl) fun _ hleaf => .inl hleaf

/-- What is left of a task is given up: who waits no longer is withdrawn. -/
theorem withdraw (hs : s.Lined chains) (task : Nat) : (s.withdraw task).Lined chains := by
  have hpast : (s.withdraw task).past =
      ((s.strandsOf task).filterMap (·.phase.farewell?)).reverse ++ s.past := by
    rw [State.past, State.past, s.withdraw_log task, List.map_append, List.map_map]
    simp [Function.comp_def]
  have hfarewell : ∀ event ∈ ((s.strandsOf task).filterMap (·.phase.farewell?)).reverse,
      ∃ leaf, event = .withdrawn leaf ∨ event = .cutOff leaf := by
    intro event hevent
    obtain ⟨strand, -, hstrand⟩ := List.mem_filterMap.1 (List.mem_reverse.1 hevent)
    cases hp : strand.phase <;> rw [hp] at hstrand <;> cases hstrand
    all_goals first | exact ⟨_, .inl rfl⟩ | exact ⟨_, .inr rfl⟩
  have hkept : ∀ strand ∈ (s.withdraw task).strands, strand.phase.isOver = false → strand ∈ s.strands := by
    intro strand hmem hactive
    rcases withdraw_strand_mem hmem with ⟨-, hover, -⟩ | ⟨-, hbefore⟩
    · rw [hactive] at hover
      cases hover
    · exact hbefore
  refine hs.extend _ hpast (by simp [State.withdraw, recordFarewells_eq]) ?hwaiting ?hleft ?hahead ?hqueued ?hup ?hserved
  case hwaiting =>
    rintro ticket leaf ⟨strand, hmem, rest, hp⟩
    exact ⟨strand, hkept strand hmem (by rw [hp]; rfl), rest, hp⟩
  case hleft =>
    rintro ticket leaf ⟨strand, hmem, rest, hp⟩
    by_cases htask : strand.task = task
    · refine .inr ⟨.withdrawn leaf, List.mem_reverse.2 (List.mem_filterMap.2 ⟨strand, ?_, ?_⟩), rfl⟩
      · exact List.mem_filter.2 ⟨hmem, by simpa using htask⟩
      · rw [hp]
        rfl
    · refine .inl ⟨strand, ?_, rest, hp⟩
      refine List.mem_map.2 ⟨strand, hmem, ?_⟩
      simp [htask]
  case hahead =>
    rintro leaf ⟨strand, hmem, rest, hp⟩
    refine .inl ⟨strand, hkept strand hmem ?_, rest, hp⟩
    rcases hp with hp | hp <;> rw [hp] <;> rfl
  case hqueued =>
    intro event hevent leaf
    obtain ⟨own, rfl | rfl⟩ := hfarewell event hevent <;> simp
  case hup =>
    intro event hevent leaf hup
    obtain ⟨own, rfl | rfl⟩ := hfarewell event hevent <;> exact absurd hup id
  case hserved =>
    rw [hpast]
    refine hs.served.append _ fun event hevent leaf hserves => ?_
    obtain ⟨own, rfl | rfl⟩ := hfarewell event hevent <;> exact hserves

theorem report (hs : s.Lined chains) (task : Nat) (outcome : Outcome) :
    (s.report task outcome).Lined chains := by
  have hgiveUp : (s.giveUp task).Lined chains := by
    rw [giveUp_eq]
    exact releaseAll_induction (P := fun t => t.Lined chains) (fun t ht => ht.release) _ (hs.withdraw task)
  refine hgiveUp.extend [.reported task outcome] rfl (Nat.le_refl _) (fun _ _ => id)
    (fun _ _ => .inl) (fun _ => .inl) (by simp) (by simp [Event.BringsUp]) ?_
  exact hgiveUp.served.append [.reported task outcome] (by simp [Event.Serves])

end Lined

/-! ## No leaf is in line twice -/

namespace Chronicled

variable {chains : List Chain} {s : State} {i j : Nat} {a b : Strand} {chain : Chain} {leaf : Leaf}

/-- The links that a strand has not finished are the last of its chain. -/
theorem links_suffix (hs : s.Chronicled chains) (hi : s.strands[i]? = some a) :
    ∃ chain, chains[i]? = some chain ∧ a.phase.links <:+ chain.toList := by
  obtain ⟨chain, hchain, htells⟩ := hs.chain_at hi
  refine ⟨chain, hchain, ?_⟩
  cases hp : a.phase <;> simp only [Strand.Tells, hp] at htells
  case calling =>
    obtain ⟨past, -, htold⟩ := htells
    exact htold.suffix
  all_goals first | exact htells.suffix | exact List.nil_suffix

/-- A link of a chain is left to no strand but that of the chain. -/
theorem index_eq (hs : s.Chronicled chains) (hd : Distinct chains) (hchain : chains[i]? = some chain)
    (hleaf : leaf ∈ chain.toList) (hj : s.strands[j]? = some b) (hlink : leaf ∈ b.phase.links) : j = i := by
  obtain ⟨other, hother, hsuffix⟩ := hs.links_suffix hj
  exact hd.index_eq hother hchain (hsuffix.subset hlink) hleaf rfl

/-- A leaf whose strand does not wait waits nowhere. -/
theorem not_waiting (hs : s.Chronicled chains) (hd : Distinct chains) (hchain : chains[i]? = some chain)
    (hleaf : leaf ∈ chain.toList) (hi : s.strands[i]? = some a) (ha : a.phase.ticket? = none) (ticket : Nat) :
    ¬ s.Waiting ticket leaf := by
  rintro ⟨strand, hmem, rest, hp⟩
  obtain ⟨j, hj⟩ := List.mem_iff_getElem?.1 hmem
  obtain rfl : j = i := hs.index_eq hd hchain hleaf hj (by rw [hp]; exact List.mem_cons_self)
  obtain rfl : strand = a := Option.some.inj (hj.symm.trans hi)
  rw [hp] at ha
  cases ha

/-- A leaf whose strand has no permit, or makes a call, has no permit before its call. -/
theorem not_ahead (hs : s.Chronicled chains) (hd : Distinct chains) (hchain : chains[i]? = some chain)
    (hleaf : leaf ∈ chain.toList) (hi : s.strands[i]? = some a)
    (ha : a.phase.hasPermit = false ∨ a.phase.isCalling = true) : ¬ s.Ahead leaf := by
  rintro ⟨strand, hmem, rest, hp⟩
  obtain ⟨j, hj⟩ := List.mem_iff_getElem?.1 hmem
  obtain rfl : j = i := hs.index_eq hd hchain hleaf hj (by
    rcases hp with hp | hp <;> rw [hp] <;> exact List.mem_cons_self)
  obtain rfl : strand = a := Option.some.inj (hj.symm.trans hi)
  rcases hp with hp | hp <;> rw [hp] at ha <;> rcases ha with ha | ha <;> cases ha

end Chronicled

/-! ## Every course keeps the line -/

namespace Lined

variable {chains : List Chain} {s : State} {i : Nat} {strand : Strand} {link : Leaf} {rest : List Leaf}

/-- Who starts to wait goes to the end of the line. -/
theorem queue (hs : s.Lined chains) (hd : Distinct chains) (hc : s.Chronicled chains)
    (hi : s.strands[i]? = some strand) (hp : strand.phase = .ready link rest) :
    (s.queue i strand link rest).Lined chains := by
  let new : Strand := { strand with phase := .waiting s.nextTicket link rest }
  have hstrands : (s.queue i strand link rest).strands = s.strands.set i new := rfl
  have hpast : (s.queue i strand link rest).past = .queued link :: s.past := rfl
  obtain ⟨chain, hchain, hsuffix⟩ := hc.links_suffix hi
  have hlink : link ∈ chain.toList := hsuffix.subset (by rw [hp]; exact List.mem_cons_self)
  have hnowait : ∀ ticket, ¬ s.Waiting ticket link := hc.not_waiting hd hchain hlink hi (by rw [hp]; rfl)
  have hnoahead : ¬ s.Ahead link := hc.not_ahead hd hchain hlink hi (.inl (by rw [hp]; rfl))
  have hwaiting : ∀ ticket leaf, (s.queue i strand link rest).Waiting ticket leaf →
      (ticket = s.nextTicket ∧ leaf = link) ∨ s.Waiting ticket leaf := by
    intro ticket leaf hwaits
    rcases exists_of_set hstrands hwaits with ⟨rest', hnew⟩ | hold
    · cases hnew
      exact .inl ⟨rfl, rfl⟩
    · exact .inr hold
  have hqueued : (s.queue i strand link rest).Waiting s.nextTicket link :=
    ⟨new, List.mem_of_getElem? (by rw [hstrands, List.getElem?_set_self (List.getElem?_eq_some_iff.1 hi).1]),
      rest, rfl⟩
  refine ⟨?drawn, ?waits, ?inLine, ?ahead, ?served⟩
  case drawn =>
    intro ticket leaf hwaits
    rcases hwaiting ticket leaf hwaits with ⟨rfl, -⟩ | hold
    · exact Nat.lt_succ_self _
    · exact Nat.lt_succ_of_lt (hs.drawn ticket leaf hold)
  case waits =>
    intro leaf hwaits
    rw [hpast] at hwaits
    rcases hwaits with hnew | ⟨hold, -⟩
    · cases hnew
      exact ⟨_, hqueued⟩
    · obtain ⟨ticket, hticket⟩ := hs.waits leaf hold
      refine ⟨ticket, (exists_set hi hstrands hticket).resolve_left ?_⟩
      rintro ⟨rest', hready⟩
      rw [hp] at hready
      cases hready
  case inLine =>
    intro ticket first ticket' leaf hfirst hleaf hle hbehind
    rw [hpast] at hbehind
    -- The new one is last, and it has not waited before.
    have hnot : ¬ Waits link s.past := fun hwaits => (hs.waits link hwaits).elim hnowait
    have hwaits : Waits leaf s.past := hbehind.1.elim ComesUpBehind.waits And.left
    rcases hwaiting ticket' leaf hleaf with ⟨-, rfl⟩ | hold'
    · exact hnot hwaits
    · rcases hwaiting ticket first hfirst with ⟨rfl, -⟩ | hold
      · exact absurd (hs.drawn ticket' leaf hold') (Nat.not_lt.2 hle)
      · rcases hbehind.1 with hbefore | ⟨-, hup⟩
        · exact hs.inLine ticket first ticket' leaf hold hold' hle hbefore
        · obtain rfl : link = first := hup
          exact hnowait ticket hold
  case ahead =>
    intro leaf hleaf first hbehind
    rw [hpast] at hbehind
    have hold : s.Ahead leaf := (exists_of_set hstrands hleaf).resolve_left (by rintro ⟨_, h | h⟩ <;> cases h)
    rcases hbehind.1 with hbefore | ⟨-, hup⟩
    · exact hs.ahead leaf hold first hbefore
    · obtain rfl : link = leaf := hup
      exact hnoahead hold
  case served =>
    rw [hpast]
    exact hs.served.append [.queued link] (by simp [Event.Serves])

/-- A free permit is there for the taking only when nobody waits. -/
theorem take (hs : s.Lined chains) {permits : Nat} (hbalanced : s.Balanced permits 0)
    (hi : s.strands[i]? = some strand) (hp : strand.phase = .ready link rest) (hfree : s.free ≠ 0) :
    (s.take i strand link rest).Lined chains := by
  refine hs.still rfl (Nat.le_refl _) (waiting_iff hi rfl (by rw [hp]; rfl) rfl) fun leaf _ => .inr ?_
  intro first hbehind
  obtain ⟨ticket, waiter, hmem, rest', hwaits⟩ := hs.waits first hbehind.waits
  exact hfree (hbalanced.busy waiter hmem (by rw [hwaits]; exact Option.some_ne_none ticket))

theorem see (hs : s.Lined chains) (hi : s.strands[i]? = some strand)
    (hp : strand.phase = .granted link rest) : (s.setPhase i strand (.holding link rest)).Lined chains := by
  refine hs.still rfl (Nat.le_refl _) (waiting_iff hi rfl (by rw [hp]; rfl) rfl) fun leaf hleaf => .inl ?_
  rcases exists_of_set (s := s) rfl hleaf with ⟨rest', h | h⟩ | hold
  · cases h
  · cases h
    exact ⟨strand, List.mem_of_getElem? hi, rest, .inl hp⟩
  · exact hold

theorem launch (hs : s.Lined chains) (setup : Setup) (hi : s.strands[i]? = some strand)
    (hp : strand.phase = .holding link rest) {n : Nat} (hn : s.nextTicket ≤ n) :
    (s.launch setup i strand link rest n).Lined chains := by
  have hwaiting := waiting_iff (t := s.launch setup i strand link rest n) hi rfl (by rw [hp]; rfl) rfl
  refine hs.extend [.began link strand.context] rfl hn (fun ticket leaf => (hwaiting ticket leaf).1)
    (fun ticket leaf h => .inl ((hwaiting ticket leaf).2 h)) (fun leaf hleaf => .inl ?_) (by simp)
    (by simp [Event.BringsUp]) ⟨?_, hs.served⟩
  · refine (exists_of_set (s := s) rfl hleaf).resolve_left ?_
    rintro ⟨rest', h | h⟩ <;> cases h
  · intro leaf hserves
    obtain rfl : link = leaf := hserves
    exact hs.ahead link ⟨strand, List.mem_of_getElem? hi, rest, .inr hp⟩

/-- Behind a call that is over the next link comes up, which has not waited before. -/
theorem conclude (hs : s.Lined chains) (hd : Distinct chains) (hc : s.Chronicled chains) (setup : Setup)
    (hi : s.strands[i]? = some strand) {ticket ends : Nat} {ending : Ending}
    (hp : strand.phase = .calling ticket link rest ends ending) :
    (s.conclude setup i strand link rest ending).Lined chains := by
  refine release ?_
  let new := strand.conclude setup link rest ending
  have hnew : new.phase.ticket? = none := strand.conclude_ticket? setup link rest ending
  let t := (s.record (ending.event link)).setStrand i new
  have hstrands : t.strands = s.strands.set i new := rfl
  have hold : strand.phase.ticket? = none := by rw [hp]; rfl
  have hwaiting := waiting_iff hi hstrands hold hnew
  have hahead : ∀ leaf, t.Ahead leaf → s.Ahead leaf := by
    intro leaf hleaf
    refine (exists_of_set hstrands hleaf).resolve_left ?_
    rintro ⟨rest', h⟩
    have hnone := strand.conclude_hasPermit setup link rest ending
    rcases h with h | h <;> rw [h] at hnone <;> cases hnone
  have hevent : ∀ leaf, ending.event link ≠ .queued leaf ∧ ¬ (ending.event link).Serves leaf := by
    intro leaf
    cases ending <;> simp [Ending.event, Event.Serves]
  refine hs.extend [ending.event link] rfl (Nat.le_refl _) (fun ticket leaf => (hwaiting ticket leaf).1)
    (fun ticket leaf h => .inl ((hwaiting ticket leaf).2 h)) (fun leaf h => .inl (hahead leaf h))
    (by simpa using fun leaf => (hevent leaf).1) ?_
    (hs.served.append [ending.event link] (by simpa using fun leaf => (hevent leaf).2))
  intro event hmem leaf hup
  obtain rfl := List.mem_singleton.1 hmem
  -- The next link is one of the same chain, whose strand makes a call.
  obtain ⟨chain, hchain, hsuffix⟩ := hc.links_suffix hi
  have hlink : link ∈ chain.toList := hsuffix.subset (by rw [hp]; exact List.mem_cons_self)
  have hleaf : leaf ∈ chain.toList := by
    rcases ending with answer | _
    · rcases answer with r | e | message
      · obtain ⟨other, hother, front, back, hsplit⟩ := hup
        obtain ⟨j, hj⟩ := List.mem_iff_getElem?.1 hother
        obtain rfl := hd.index_eq hchain hj hlink (by simp [hsplit]) rfl
        obtain rfl : chain = other := Option.some.inj (hchain.symm.trans hj)
        simp [hsplit]
      · exact absurd hup id
      · exact absurd hup id
    · exact absurd hup id
  refine ⟨fun h => ?_, fun ticket h => ?_⟩
  · exact hc.not_ahead hd hchain hleaf hi (.inr (by rw [hp]; rfl)) (hahead leaf h)
  · exact hc.not_waiting hd hchain hleaf hi hold ticket ((hwaiting ticket leaf).1 h)

end Lined
end State

theorem Move.lined {setup : Setup} {chains : List Chain} {permits : Nat} {s t : State} (h : Move setup s t)
    (hd : Distinct chains) (hc : s.Chronicled chains) (hbalanced : s.Balanced permits 0)
    (hs : s.Lined chains) : t.Lined chains := by
  cases h with
  | queue hi hp => exact hs.queue hd hc hi hp
  | take hi hp hfree => exact hs.take hbalanced hi hp hfree
  | see hi hp => exact hs.see hi hp
  | launch hi hp hn => exact hs.launch setup hi hp hn
  | conclude hi hp => exact hs.conclude hd hc setup hi hp
  | decide => exact hs.report _ _
  | elapse => exact hs.still rfl (Nat.le_refl _) (fun _ _ => Iff.rfl) fun _ hleaf => .inl hleaf
  | schedule h => exact hs.alike h

/-- Every course keeps the line. -/
theorem Course.lined {setup : Setup} {chains : List Chain} {permits : Nat} {s t : State}
    (h : Course setup s t) (hd : Distinct chains) (hc : s.Chronicled chains) (hbalanced : s.Balanced permits 0)
    (hs : s.Lined chains) : t.Lined chains := by
  induction h with
  | refl => exact hs
  | tail hcourse hmove ih =>
    exact hmove.lined hd (Course.chronicled hcourse hd hc) (Course.balanced hcourse hbalanced) ih

namespace Setup

theorem start_lined (setup : Setup) : setup.start.Lined setup.graph.chains := by
  have hnone : ∀ strand ∈ setup.start.strands, strand.phase.ticket? = none ∧ strand.phase.hasPermit = false := by
    intro strand hmem
    obtain ⟨link, rest, hp⟩ := setup.start_ready strand hmem
    rw [hp]
    exact ⟨rfl, rfl⟩
  have hnowait : ∀ ticket leaf, ¬ setup.start.Waiting ticket leaf := by
    rintro ticket leaf ⟨strand, hmem, rest, hp⟩
    have h := (hnone strand hmem).1
    rw [hp] at h
    cases h
  refine ⟨fun ticket leaf h => absurd h (hnowait ticket leaf), fun leaf h => absurd h id,
    fun ticket first ticket' leaf h => absurd h (hnowait ticket first), ?_, trivial⟩
  rintro leaf ⟨strand, hmem, rest, hp⟩
  have h := (hnone strand hmem).2
  rcases hp with hp | hp <;> rw [hp] at h <;> cases h

/-- The line is kept by every run, whenever it is interrupted. -/
theorem finalState_lined (setup : Setup) (interruption : Interruption) (hd : Distinct setup.graph.chains) :
    (setup.finalState interruption).Lined setup.graph.chains := by
  have hrest := fun stop => (setup.course_rest stop).lined hd setup.start_chronicled setup.start_balanced
    setup.start_lined
  unfold finalState
  split
  · exact hrest _
  · rename_i time _
    split
    · exact hrest _
    · refine State.cancel_induction ?_ fun _ task ht => ht.report task _
      exact (hrest (some time)).still rfl (Nat.le_refl _) (fun _ _ => Iff.rfl) fun _ hleaf => .inl hleaf

end Setup
end Run
end Inquiry
