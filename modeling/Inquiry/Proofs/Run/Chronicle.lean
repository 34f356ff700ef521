import Inquiry.Proofs.Run.Course

/-!
# Proofs.Run.Chronicle — what the record of a chain looks like

The calls of a chain come one after the other. The call of a link is in flight, or has ended with a
result, after which that of the next link may start, or has ended without one, after which none does.

* `Chronicle` lists the records that the calls of a chain can leave.
* `Told` is a record of calls that all ended with results; a chronicle goes on from there.
* `Chronicle.head_context`, `Chronicle.parent_answered`, `Chronicle.spoils_rest`: in which contexts links
  are called, and after what.
-/

namespace Inquiry
namespace Run

/-- Whether an event is the end of the call of a leaf without a result. -/
def Event.Spoils (leaf : Leaf) : Event → Prop
  | answered l (.failure _) => l = leaf
  | answered l (.crash _) => l = leaf
  | timedOut l => l = leaf
  | cutOff l => l = leaf
  | _ => False

/-- The leaf whose call starts or ends with an event. -/
def Event.calls? : Event → Option Leaf
  | began leaf _ => some leaf
  | answered leaf _ => some leaf
  | timedOut leaf => some leaf
  | cutOff leaf => some leaf
  | _ => none

/-- The leaf whose call starts with an event. -/
def Event.began? : Event → Option Leaf
  | began leaf _ => some leaf
  | _ => none

theorem Event.Spoils.calls? {leaf : Leaf} {event : Event} (h : event.Spoils leaf) :
    event.calls? = some leaf := by
  cases event with
  | answered l answer =>
    cases answer with
    | result => exact absurd h id
    | failure => exact congrArg some h
    | crash => exact congrArg some h
  | timedOut l => exact congrArg some h
  | cutOff l => exact congrArg some h
  | _ => exact absurd h id

theorem Event.Spoils.began? {leaf : Leaf} {event : Event} (h : event.Spoils leaf) :
    event.began? = none := by
  cases event with
  | began => exact absurd h id
  | _ => rfl

/-- The records that the calls of links can leave, the first of which is called in a context. -/
inductive Chronicle : Option Result → List Leaf → List Event → Prop
  | none {context : Option Result} {links : List Leaf} : Chronicle context links []
  | inFlight {context : Option Result} {link : Leaf} {rest : List Leaf} :
      Chronicle context (link :: rest) [.began link context]
  | spoiled {context : Option Result} {link : Leaf} {rest : List Leaf} {event : Event}
      (spoils : event.Spoils link) : Chronicle context (link :: rest) [.began link context, event]
  | result {context : Option Result} {link : Leaf} {rest : List Leaf} {r : Result} {events : List Event}
      (later : Chronicle (some r) rest events) :
      Chronicle context (link :: rest) (.began link context :: .answered link (.result r) :: events)

/-- The record of calls that all ended with results: the links that are left, and the context in which
they are called. -/
inductive Told : Option Result → List Leaf → List Event → Option Result → List Leaf → Prop
  | none {context : Option Result} {links : List Leaf} : Told context links [] context links
  | result {context context' : Option Result} {link : Leaf} {rest links' : List Leaf} {r : Result}
      {events : List Event} (later : Told (some r) rest events context' links') :
      Told context (link :: rest) (.began link context :: .answered link (.result r) :: events)
        context' links'

namespace Told

variable {context context' : Option Result} {links links' : List Leaf} {events : List Event}

/-- One call more ends with a result. -/
theorem snoc {link : Leaf} {rest : List Leaf} (h : Told context links events context' (link :: rest))
    (r : Result) :
    Told context links (events ++ [.began link context', .answered link (.result r)]) (some r) rest := by
  generalize hlinks : link :: rest = links' at h
  induction h with
  | none =>
    subst hlinks
    exact .result .none
  | result _ ih => exact .result (ih hlinks)

theorem chronicle {later : List Event} (h : Told context links events context' links')
    (hlater : Chronicle context' links' later) : Chronicle context links (events ++ later) := by
  induction h with
  | none => exact hlater
  | result _ ih => exact .result (ih hlater)

theorem suffix (h : Told context links events context' links') : links' <:+ links := by
  induction h with
  | none => exact List.suffix_refl _
  | result _ ih => exact ih.trans (List.suffix_cons _ _)

end Told

namespace Chronicle

variable {context : Option Result} {links : List Leaf} {events : List Event}

/-- A chronicle is about the calls of its links only. -/
theorem mem_links (h : Chronicle context links events) {event : Event} (he : event ∈ events) {leaf : Leaf}
    (hleaf : event.calls? = some leaf) : leaf ∈ links := by
  induction h with
  | none => cases he
  | inFlight =>
    obtain rfl := List.mem_singleton.1 he
    cases hleaf
    exact List.mem_cons_self
  | spoiled spoils =>
    rcases List.mem_cons.1 he with rfl | he
    · cases hleaf
      exact List.mem_cons_self
    · obtain rfl := List.mem_singleton.1 he
      rw [spoils.calls?] at hleaf
      cases hleaf
      exact List.mem_cons_self
  | result _ ih =>
    rcases List.mem_cons.1 he with rfl | he
    · cases hleaf
      exact List.mem_cons_self
    · rcases List.mem_cons.1 he with rfl | he
      · cases hleaf
        exact List.mem_cons_self
      · exact List.mem_cons_of_mem _ (ih he)

/-- The links are called in their order, without leaving one out. -/
theorem began_links (h : Chronicle context links events) : events.filterMap Event.began? <+: links := by
  induction h with
  | none => exact List.nil_prefix
  | inFlight => exact List.cons_prefix_cons.2 ⟨rfl, List.nil_prefix⟩
  | spoiled spoils =>
    rw [List.filterMap_cons_some (f := Event.began?) rfl, List.filterMap_cons_none spoils.began?]
    exact List.cons_prefix_cons.2 ⟨rfl, List.nil_prefix⟩
  | result _ ih =>
    rw [List.filterMap_cons_some (f := Event.began?) rfl, List.filterMap_cons_none rfl]
    exact List.cons_prefix_cons.2 ⟨rfl, ih⟩

/-- A link behind another is not the first of all links. -/
theorem mem_of_split {link leaf later : Leaf} {front rest : List Leaf}
    (hsplit : link :: links = front ++ leaf :: rest) (hlater : later ∈ rest) : later ∈ links := by
  cases front with
  | nil =>
    cases hsplit
    exact hlater
  | cons first front =>
    cases hsplit
    exact List.mem_append_right _ (List.mem_cons_of_mem _ hlater)

theorem ne_of_nodup {link leaf : Leaf} (hlinks : (link :: links).Nodup) (hleaf : leaf ∈ links) :
    leaf ≠ link := by
  rintro rfl
  exact (List.nodup_cons.1 hlinks).1 hleaf

/-- A call that ends without a result is the only one to start. -/
theorem began_of_spoiled {link leaf : Leaf} {c : Option Result} {event : Event} (hspoils : event.Spoils link)
    (h : .began leaf c ∈ [.began link context, event]) : leaf = link ∧ c = context := by
  rcases List.mem_cons.1 h with h | h
  · cases h
    exact ⟨rfl, rfl⟩
  · obtain rfl := List.mem_singleton.1 h
    exact absurd hspoils id

theorem began_of_result {link leaf : Leaf} {c : Option Result} {r : Result}
    (h : .began leaf c ∈ .began link context :: .answered link (.result r) :: events) :
    (leaf = link ∧ c = context) ∨ .began leaf c ∈ events := by
  rcases List.mem_cons.1 h with h | h
  · cases h
    exact .inl ⟨rfl, rfl⟩
  · rcases List.mem_cons.1 h with h | h
    · cases h
    · exact .inr h

theorem answered_of_result {link leaf : Leaf} {answer : Answer} {r : Result}
    (h : .answered leaf answer ∈ .began link context :: .answered link (.result r) :: events) :
    (leaf = link ∧ answer = .result r) ∨ .answered leaf answer ∈ events := by
  rcases List.mem_cons.1 h with h | h
  · cases h
  · rcases List.mem_cons.1 h with h | h
    · cases h
      exact .inl ⟨rfl, rfl⟩
    · exact .inr h

theorem spoils_of_result {link leaf : Leaf} {event : Event} {r : Result} (hspoils : event.Spoils leaf)
    (h : event ∈ .began link context :: .answered link (.result r) :: events) : event ∈ events := by
  rcases List.mem_cons.1 h with rfl | h
  · exact absurd hspoils id
  · rcases List.mem_cons.1 h with rfl | h
    · exact absurd hspoils id
    · exact h

/-- The call of another link starts after the first one has its result. -/
theorem split_of_result {link leaf : Leaf} {c : Option Result} {r : Result} {before after : List Event}
    (hne : leaf ≠ link)
    (h : .began link context :: .answered link (.result r) :: events = before ++ .began leaf c :: after) :
    ∃ before', before = .began link context :: .answered link (.result r) :: before' ∧
      events = before' ++ .began leaf c :: after := by
  cases before with
  | nil =>
    cases h
    exact absurd rfl hne
  | cons first before =>
    cases before with
    | nil => cases h
    | cons second before' =>
      cases h
      exact ⟨before', rfl, rfl⟩

/-- The first link is called in the given context. -/
theorem head_context {link : Leaf} {rest : List Leaf} (h : Chronicle context (link :: rest) events)
    (hlinks : (link :: rest).Nodup) {c : Option Result} (hbegan : .began link c ∈ events) :
    c = context := by
  cases h with
  | none => cases hbegan
  | inFlight =>
    cases List.mem_singleton.1 hbegan
    rfl
  | spoiled spoils => exact (began_of_spoiled spoils hbegan).2
  | result later =>
    rcases began_of_result hbegan with ⟨-, hc⟩ | h
    · exact hc
    · exact absurd rfl (ne_of_nodup hlinks (later.mem_links h rfl))

/-- A link behind the first is called after the call of the one in front of it has ended with a result,
and in the context of that result. -/
theorem parent_answered (h : Chronicle context links events) (hlinks : links.Nodup)
    {front rest : List Leaf} {parent leaf : Leaf} (hsplit : links = front ++ parent :: leaf :: rest)
    {before after : List Event} {c : Option Result} (hevents : events = before ++ .began leaf c :: after) :
    ∃ r, c = some r ∧ .answered parent (.result r) ∈ before ∧
      ∀ answer, .answered parent answer ∈ events → answer = .result r := by
  have hbegan : .began leaf c ∈ events := by simp [hevents]
  -- Of the records that the induction runs through, the leaf can only be called in the last: it is not
  -- the first of its links.
  induction h generalizing front before with
  | none => cases hbegan
  | inFlight =>
    cases List.mem_singleton.1 hbegan
    exact absurd rfl (ne_of_nodup hlinks (mem_of_split hsplit List.mem_cons_self))
  | spoiled spoils =>
    have hleaf := ne_of_nodup hlinks (mem_of_split hsplit List.mem_cons_self)
    exact absurd (began_of_spoiled spoils hbegan).1 hleaf
  | @result context link links r events later ih =>
    have hnodup := List.nodup_cons.1 hlinks
    have hne := ne_of_nodup hlinks (mem_of_split hsplit List.mem_cons_self)
    obtain ⟨before', rfl, hevents'⟩ := split_of_result hne hevents
    have hbegan' : .began leaf c ∈ events := by simp [hevents']
    cases front with
    | nil =>
      -- The first link is the one in front, and its result is the context.
      cases hsplit
      refine ⟨r, later.head_context hnodup.2 hbegan', by simp, fun answer hanswer => ?_⟩
      rcases answered_of_result hanswer with ⟨-, h⟩ | h
      · exact h
      · exact absurd (later.mem_links h rfl) hnodup.1
    | cons first front =>
      cases hsplit
      obtain ⟨r', hc, hmem, hunique⟩ := ih hnodup.2 rfl hevents' hbegan'
      refine ⟨r', hc, by simp [hmem], fun answer hanswer => ?_⟩
      rcases answered_of_result hanswer with ⟨rfl, -⟩ | h
      · exact absurd (by simp) hnodup.1
      · exact hunique answer h

/-- After a call has ended without a result, no later link is called. -/
theorem spoils_rest (h : Chronicle context links events) (hlinks : links.Nodup) {front rest : List Leaf}
    {leaf : Leaf} (hsplit : links = front ++ leaf :: rest) {event : Event} (he : event ∈ events)
    (hspoils : event.Spoils leaf) : ∀ later ∈ rest, ∀ c, .began later c ∉ events := by
  induction h generalizing front with
  | none => cases he
  | inFlight =>
    obtain rfl := List.mem_singleton.1 he
    exact absurd hspoils id
  | spoiled spoils =>
    intro later hlater c hbegan
    exact absurd (began_of_spoiled spoils hbegan).1 (ne_of_nodup hlinks (mem_of_split hsplit hlater))
  | @result context link links r events later ih =>
    intro other hother c hbegan
    have hnodup := List.nodup_cons.1 hlinks
    have hin := spoils_of_result hspoils he
    rcases began_of_result hbegan with ⟨rfl, -⟩ | hbegan
    · exact hnodup.1 (mem_of_split hsplit hother)
    · cases front with
      | nil =>
        cases hsplit
        exact hnodup.1 (later.mem_links hin hspoils.calls?)
      | cons first front =>
        cases hsplit
        exact ih hnodup.2 rfl hin other hother c hbegan

/-- A link is called only if the call of every link in front of it has ended with a result. -/
theorem result_of_began (h : Chronicle context links events) (hlinks : links.Nodup) {front rest : List Leaf}
    {leaf : Leaf} (hsplit : links = front ++ leaf :: rest) {later : Leaf} (hlater : later ∈ rest)
    {c : Option Result} (hbegan : .began later c ∈ events) : ∃ r, .answered leaf (.result r) ∈ events := by
  induction h generalizing front with
  | none => cases hbegan
  | inFlight =>
    cases List.mem_singleton.1 hbegan
    exact absurd rfl (ne_of_nodup hlinks (mem_of_split hsplit hlater))
  | spoiled spoils =>
    exact absurd (began_of_spoiled spoils hbegan).1 (ne_of_nodup hlinks (mem_of_split hsplit hlater))
  | @result context link links r events later' ih =>
    have hne := ne_of_nodup hlinks (mem_of_split hsplit hlater)
    have hin := (began_of_result hbegan).resolve_left fun h => hne h.1
    cases front with
    | nil =>
      cases hsplit
      exact ⟨r, by simp⟩
    | cons first front =>
      cases hsplit
      obtain ⟨r', hr'⟩ := ih (List.nodup_cons.1 hlinks).2 rfl hin
      exact ⟨r', by simp [hr']⟩

end Chronicle
end Run
end Inquiry
