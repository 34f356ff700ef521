import Inquiry.Proofs.Task.Outcome
import Inquiry.Proofs.Text.Keyed
import Inquiry.Task.Merge

/-!
# Proofs.Task.Merge — what the answer for a task holds

The outputs that are merged in one scope are all kept, each under its key, or merging fails at the first of
them whose key was there before. The scope of a group are the outputs of all its chains, that of a single
chain those behind the head.

* `Merged.Collects`: an answer holds outputs, or it names the first that repeats a key.
* `Merged.insertAll_eq_ok`, `Merged.insertAll_eq_error`: how outputs are added to entries that are there.
* `Merged.ofOutputs_collects`: merging collects the outputs of the scope, whatever the order of the chains.
-/

namespace Inquiry
namespace Merged

/-- The entry of an output: its result, without follow-ups, under its key. -/
def entryOf (output : LeafOutput) : String × Response := (output.key, .ofResult output.result)

/-- An answer of some form collects outputs. -/
structure Collects (outputs : List LeafOutput) (form : Keyed Response → Merged)
    (answer : Except TaskError Merged) : Prop where
  /-- Outputs can be collected if no key is repeated. -/
  succeeds : (∃ merged, answer = .ok merged) ↔ (outputs.map LeafOutput.key).Nodup
  /-- There is one entry for each output, and no other, in ascending order of keys. -/
  entries : ∀ merged, answer = .ok merged → ∃ entries : Keyed Response,
    merged = form entries ∧ entries.Ascending ∧ entries.Perm (outputs.map entryOf)
  /-- The fault is the first output whose key was there before. -/
  collides : ∀ e, answer = .error e → ∃ front output back, outputs = front ++ output :: back ∧
    (front.map LeafOutput.key).Nodup ∧ output.key ∈ front.map LeafOutput.key ∧
    e = .mergeKeyCollision output.key output.position

variable {scope entries : Keyed Response} {outputs : List LeafOutput}

theorem names_entryOf (outputs : List LeafOutput) :
    (outputs.map entryOf).map Prod.fst = outputs.map LeafOutput.key := List.map_map

/-! ## Adding outputs to entries -/

theorem insertAll_cons_of_mem {output : LeafOutput} {rest : List LeafOutput}
    (h : output.key ∈ scope.map Prod.fst) :
    insertAll scope (output :: rest) = .error (.mergeKeyCollision output.key output.position) := by
  have hsome : (scope.find? output.key).isSome = true := by
    rw [← Option.ne_none_iff_isSome, ne_eq, Keyed.find?_eq_none_iff, not_not]
    exact h
  rw [insertAll, if_pos hsome]

theorem insertAll_cons_of_not_mem {output : LeafOutput} {rest : List LeafOutput}
    (h : output.key ∉ scope.map Prod.fst) : insertAll scope (output :: rest) =
      insertAll (scope.insertNew output.key (.ofResult output.result)) rest := by
  rw [insertAll, Keyed.find?_eq_none_iff.2 h]
  rfl

/-- The entries of all outputs join those that were there. -/
theorem insertAll_eq_ok (hscope : scope.Ascending) (h : insertAll scope outputs = .ok entries) :
    entries.Ascending ∧ entries.Perm (scope ++ outputs.map entryOf) := by
  induction outputs generalizing scope with
  | nil =>
    cases h
    rw [List.map_nil, List.append_nil]
    exact ⟨hscope, .refl _⟩
  | cons output rest ih =>
    by_cases hkey : output.key ∈ scope.map Prod.fst
    · rw [insertAll_cons_of_mem hkey] at h
      cases h
    · rw [insertAll_cons_of_not_mem hkey] at h
      obtain ⟨hasc, hperm⟩ := ih (Keyed.ascending_insertNew _ _ hscope) h
      refine ⟨hasc, hperm.trans (((Keyed.insertNew_perm hkey).append_right _).trans ?_)⟩
      exact List.perm_middle.symm

/-- The fault is at the first output whose key is that of an entry that was there, or of an output in front
of it. -/
theorem insertAll_eq_error {e : TaskError} (hscope : scope.Ascending)
    (h : insertAll scope outputs = .error e) : ∃ front output back, outputs = front ++ output :: back ∧
      (scope.map Prod.fst ++ front.map LeafOutput.key).Nodup ∧
      output.key ∈ scope.map Prod.fst ++ front.map LeafOutput.key ∧
      e = .mergeKeyCollision output.key output.position := by
  induction outputs generalizing scope with
  | nil => cases h
  | cons output rest ih =>
    by_cases hkey : output.key ∈ scope.map Prod.fst
    · rw [insertAll_cons_of_mem hkey] at h
      cases h
      refine ⟨[], output, rest, rfl, ?_, ?_, rfl⟩
      · rw [List.map_nil, List.append_nil]
        exact hscope.nodup
      · exact List.mem_append_left _ hkey
    · rw [insertAll_cons_of_not_mem hkey] at h
      obtain ⟨front, found, back, rfl, hnodup, hfound, he⟩ := ih (Keyed.ascending_insertNew _ _ hscope) h
      -- The key of the output has become one of those that are there.
      have hperm : ((scope.insertNew output.key (.ofResult output.result)).map Prod.fst ++
          front.map LeafOutput.key).Perm (scope.map Prod.fst ++ (output :: front).map LeafOutput.key) := by
        refine (((Keyed.insertNew_perm hkey).map Prod.fst).append_right _).trans ?_
        exact List.perm_middle.symm
      exact ⟨output :: front, found, back, rfl, hperm.nodup_iff.1 hnodup, hperm.mem_iff.1 hfound, he⟩

theorem collects_insertAll (outputs : List LeafOutput) (form : Keyed Response → Merged) :
    Collects outputs form ((insertAll [] outputs).map form) := by
  have hnil : Keyed.Ascending ([] : Keyed Response) := .nil
  cases h : insertAll [] outputs with
  | ok entries =>
    obtain ⟨hasc, hperm⟩ := insertAll_eq_ok hnil h
    have hnames : (entries.map Prod.fst).Perm (outputs.map LeafOutput.key) := by
      rw [← names_entryOf]
      exact hperm.map Prod.fst
    refine ⟨iff_of_true ⟨form entries, rfl⟩ (hnames.nodup_iff.1 hasc.nodup), ?_, ?_⟩
    · intro merged hmerged
      cases hmerged
      exact ⟨entries, rfl, hasc, hperm⟩
    · intro e he
      cases he
  | error e =>
    obtain ⟨front, output, back, rfl, hnodup, hkey, rfl⟩ := insertAll_eq_error hnil h
    refine ⟨iff_of_false ?_ ?_, ?_, ?_⟩
    · rintro ⟨merged, hmerged⟩
      cases hmerged
    · intro hall
      rw [List.map_append, List.map_cons, List.nodup_append] at hall
      exact hall.2.2 _ hkey _ List.mem_cons_self rfl
    · intro merged hmerged
      cases hmerged
    · intro e he
      cases he
      exact ⟨front, output, back, rfl, hnodup, hkey, rfl⟩

/-- What is collected depends on the outputs, and not on their order. -/
theorem Collects.ok_of_perm {outputs' : List LeafOutput} {form : Keyed Response → Merged}
    {answer answer' : Except TaskError Merged} (h : Collects outputs form answer)
    (h' : Collects outputs' form answer') (hperm : outputs.Perm outputs') {merged : Merged}
    (hmerged : answer = .ok merged) : answer' = .ok merged := by
  have hnodup := h.succeeds.1 ⟨merged, hmerged⟩
  obtain ⟨merged', hmerged'⟩ := h'.succeeds.2 ((hperm.map LeafOutput.key).nodup_iff.1 hnodup)
  obtain ⟨entries, rfl, hasc, hentries⟩ := h.entries _ hmerged
  obtain ⟨entries', rfl, hasc', hentries'⟩ := h'.entries _ hmerged'
  have hsame : entries = entries' :=
    hasc.eq_of_perm hasc' (hentries.trans ((hperm.map entryOf).trans hentries'.symm))
  rw [hmerged', hsame]

/-! ## The answer for a task -/

/-- Merging collects the outputs of a group, in whatever order its chains are, and those behind the head of
a single chain. A single chain without outputs has no answer. -/
theorem ofOutputs_collects (outputs : List (List LeafOutput)) (node : Node) :
    match node with
    | .group _ =>
      Collects outputs.flatten .keyed (ofOutputs outputs node) ∧
        ∀ outputs' members', outputs.Perm outputs' → ∀ merged,
          ofOutputs outputs node = .ok merged ↔ ofOutputs outputs' (.group members') = .ok merged
    | .single chain =>
      (∀ reason, ofOutputs outputs node = .error (.aborted reason) ↔
        outputs.flatten = [] ∧ reason = "no result produced for " ++ chain.head.position) ∧
      ∀ head rest, outputs.flatten = head :: rest →
        Collects rest (fun chained => .single ⟨head.result, chained⟩) (ofOutputs outputs node) := by
  cases node with
  | group members =>
    have hcollects : ∀ outputs members,
        Collects outputs.flatten .keyed (ofOutputs outputs (.group members)) :=
      fun outputs _ => collects_insertAll outputs.flatten .keyed
    refine ⟨hcollects outputs members, fun outputs' members' hperm merged => ⟨?_, ?_⟩⟩
    · exact (hcollects outputs members).ok_of_perm (hcollects outputs' members') hperm.flatten
    · exact (hcollects outputs' members').ok_of_perm (hcollects outputs members) hperm.flatten.symm
  | single chain =>
    have hcollects : ∀ head rest, outputs.flatten = head :: rest →
        Collects rest (fun chained => .single ⟨head.result, chained⟩) (ofOutputs outputs (.single chain)) := by
      intro head rest houtputs
      simp only [ofOutputs, houtputs]
      exact collects_insertAll rest _
    refine ⟨fun reason => ?_, hcollects⟩
    cases houtputs : outputs.flatten with
    | nil => simp [ofOutputs, houtputs, eq_comm]
    | cons head rest =>
      refine iff_of_false (fun haborted => ?_) (fun h => by cases h.1)
      obtain ⟨front, output, back, -, -, -, he⟩ := (hcollects head rest houtputs).collides _ haborted
      cases he

end Merged
end Inquiry
