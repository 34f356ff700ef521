import Inquiry.Proofs.Analysis.Agreement
import Inquiry.Proofs.Corpus.Narrowing
import Inquiry.Proofs.Run.Collision
import Inquiry.Result.Wire
import Inquiry.Run.Script

/-!
# Proofs.Run.Echo — the parameters in a response can be submitted again

A result repeats the parameters of the analysis that it answers. These come from a configuration, in which only
admissible parameters are accepted, and so whoever has the response can ask again with the parameters found in it.

* `Merged.Holds`: the results in the answer for a task.
* `Merged.output_of_holds`, `Backend.answer_of_evaluate`, `Setup.Evaluates.answer`: each of them is what the backend
  has answered to the call of a leaf of the task.
* `Backend.Echoes`: a backend that repeats the parameters; corpora and scripts do.
* `Parameters.parse_submits_again`: the two readers of parameters agree, and responses hold what both accept.
-/

namespace Inquiry

open Json (Value)

/-! ## The results in an answer -/

/-- A response holds its own result, and those of the responses chained to it. -/
inductive Response.Holds : Response → Result → Prop where
  | own (analysis : Result) (chained : Keyed Response) : Holds ⟨analysis, chained⟩ analysis
  | behind {analysis result : Result} {chained : Keyed Response} {entry : String × Response}
      (mem : entry ∈ chained) (holds : Holds entry.2 result) : Holds ⟨analysis, chained⟩ result

/-- An answer holds the results of its responses. -/
inductive Merged.Holds : Merged → Result → Prop where
  | single {response : Response} {result : Result} (holds : response.Holds result) : Holds (.single response) result
  | keyed {entries : Keyed Response} {entry : String × Response} {result : Result} (mem : entry ∈ entries)
      (holds : entry.2.Holds result) : Holds (.keyed entries) result

namespace Merged

theorem result_of_ofResult {r result : Result} (h : (Response.ofResult r).Holds result) : result = r := by
  obtain _ | ⟨hmem⟩ := h
  · rfl
  · cases hmem

/-- The entries that outputs are collected in hold their results. -/
theorem output_of_entry {outputs : List LeafOutput} {entries : Keyed Response} {entry : String × Response}
    {result : Result} (h : insertAll [] outputs = .ok entries) (hmem : entry ∈ entries)
    (hholds : entry.2.Holds result) : ∃ output ∈ outputs, output.result = result := by
  have hnil : Keyed.Ascending ([] : Keyed Response) := .nil
  obtain ⟨-, hperm⟩ := insertAll_eq_ok hnil h
  obtain ⟨output, houtput, rfl⟩ := List.mem_map.1 (hperm.subset hmem)
  exact ⟨output, houtput, (result_of_ofResult hholds).symm⟩

/-- What is merged holds results of the outputs, and no other. -/
theorem output_of_holds {outputs : List (List LeafOutput)} {node : Node} {merged : Merged} {result : Result}
    (h : ofOutputs outputs node = .ok merged) (hholds : merged.Holds result) :
    ∃ output ∈ outputs.flatten, output.result = result := by
  cases node with
  -- A group has all outputs under keys; a single chain answers with its head, and has the others under keys.
  | group members =>
    obtain ⟨entries, hentries, rfl⟩ := map_eq_ok.1 h
    obtain _ | ⟨hmem, hentry⟩ := hholds
    exact output_of_entry hentries hmem hentry
  | single chain =>
    cases houtputs : outputs.flatten with
    | nil => simp [ofOutputs, houtputs] at h
    | cons head rest =>
      simp only [ofOutputs, houtputs] at h
      obtain ⟨chained, hchained, rfl⟩ := map_eq_ok.1 h
      obtain ⟨_ | ⟨hmem, hentry⟩⟩ := hholds
      · exact ⟨head, List.mem_cons_self, rfl⟩
      · obtain ⟨output, houtput, hresult⟩ := output_of_entry hchained hmem hentry
        exact ⟨output, List.mem_cons_of_mem _ houtput, hresult⟩

end Merged

namespace Run

/-! ## What the backend has answered -/

namespace Backend

variable {backend : Backend} {timeout : Nat} {leaf : Leaf} {context : Option Result} {result : Result}

theorem answer_of_call (h : backend.call timeout leaf context = .ok result) :
    (backend leaf context).answer = .result result := by
  unfold call at h
  dsimp only at h
  split at h
  · split at h
    · rename_i hanswer
      rw [hanswer, Except.ok.inj h]
    · cases h
    · cases h
  · cases h

/-- The outputs of links are what the backend has answered to their calls. -/
theorem answer_of_evaluate {leaves : List Leaf} {outputs : List LeafOutput}
    (h : backend.evaluate timeout context leaves = .ok outputs) :
    ∀ output ∈ outputs, ∃ leaf ∈ leaves, ∃ context, (backend leaf context).answer = .result output.result := by
  -- Each result is the context of the next call, so that the induction is over all contexts.
  induction leaves generalizing context outputs with
  | nil =>
    cases h
    exact nofun
  | cons leaf rest ih =>
    rw [evaluate] at h
    cases hcall : backend.call timeout leaf context with
    | error e =>
      rw [hcall] at h
      cases h
    | ok r =>
      rw [hcall] at h
      obtain ⟨later, hlater, rfl⟩ := map_eq_ok.1 h
      refine List.forall_mem_cons.2 ⟨⟨leaf, List.mem_cons_self, context, answer_of_call hcall⟩, ?_⟩
      intro output houtput
      obtain ⟨link, hlink, hanswer⟩ := ih hlater output houtput
      exact ⟨link, List.mem_cons_of_mem _ hlink, hanswer⟩

/-- A backend echoes if its results have the parameters of the leaves that they are for. -/
def Echoes (backend : Backend) : Prop :=
  ∀ leaf context result, (backend leaf context).answer = .result result → result.parameters = leaf.spec.parameters

end Backend

/-- What a corpus answers has the parameters that it was asked with. -/
theorem parameters_of_answer {corpus : Corpus} {leaf : Leaf} {context : Option Result} {result : Result}
    (h : Answer.ofCorpus corpus leaf context = .result result) : result.parameters = leaf.spec.parameters := by
  unfold Answer.ofCorpus at h
  split at h
  · rename_i r hanalyze
    obtain ⟨filter, -, -, rfl⟩ := Corpus.analyze_eq_ok.1 hanalyze
    cases h
    rfl
  · cases h

theorem Backend.ofCorpus_echoes (corpus : Corpus) : (ofCorpus corpus).Echoes :=
  fun _ _ _ h => parameters_of_answer h

theorem Backend.ofScript_echoes (script : Script) : (ofScript script).Echoes := by
  intro leaf context result h
  have hline : (script.cueFor leaf).line.answer leaf context = .result result := h
  unfold Line.answer at hline
  split at hline
  · cases hline
    rfl
  · exact parameters_of_answer hline
  · cases hline
  · cases hline

namespace Setup

/-- What an answer for a task holds is what the backend has answered to the calls of its leaves. -/
theorem Evaluates.answer {setup : Setup} {node : Node} {merged : Merged} {result : Result}
    (h : setup.Evaluates node (.ok merged)) (hholds : merged.Holds result) :
    ∃ leaf ∈ node.chains.flatMap Chain.toList, ∃ context, (setup.backend leaf context).answer = .result result := by
  rcases h with ⟨outputs, hvalues, hmerged⟩ | ⟨chain, -, e, -, he⟩
  · obtain ⟨output, houtput, rfl⟩ := Merged.output_of_holds hmerged.symm hholds
    obtain ⟨own, hown, houtput⟩ := List.mem_flatten.1 houtput
    obtain ⟨chain, hchain, hvalue⟩ : ∃ chain ∈ node.chains,
        setup.backend.chainValue setup.limits.leafTimeout chain = .ok own := by
      refine List.mem_map.1 ?_
      rw [hvalues]
      exact List.mem_map_of_mem hown
    obtain ⟨leaf, hleaf, hanswer⟩ := Backend.answer_of_evaluate hvalue output houtput
    exact ⟨leaf, List.mem_flatMap.2 ⟨chain, hchain, hleaf⟩, hanswer⟩
  · cases he

/-- Whatever a run is interrupted by, the results in what it reports are answers to leaves of the graph. -/
theorem report_answer (setup : Setup) (interruption : Interruption) {report : Report} {merged : Merged}
    {result : Result} (h : report ∈ (setup.run interruption).reports) (hmerged : report.outcome = .ok merged)
    (hholds : merged.Holds result) : ∃ leaf ∈ setup.graph.chains.flatMap Chain.toList, ∃ context,
      (setup.backend leaf context).answer = .result result := by
  rcases setup.report_evaluates_or_cancelled interruption h with ⟨t, ht, hevaluates⟩ | hcancelled
  · rw [hmerged] at hevaluates
    obtain ⟨leaf, hleaf, hanswer⟩ := hevaluates.answer hholds
    exact ⟨leaf, (Graph.leaves_sublist ht).subset hleaf, hanswer⟩
  · rw [hcancelled] at hmerged
    cases hmerged

end Setup
end Run

/-! ## What is submitted again -/

/-- The leaves of a compiled configuration have admissible parameters. -/
theorem Graph.compile_admissible {config : Value} {graph : Graph} (h : Graph.compile config = .ok graph) {leaf : Leaf}
    (hleaf : leaf ∈ graph.chains.flatMap Chain.toList) : leaf.spec.parameters.Admissible := by
  obtain ⟨place, hstands⟩ := (Graph.compile_stand h).standsFor hleaf
  obtain ⟨kind, v, -, -, hdescribes⟩ := hstands.source
  exact Parameters.admissible_of_holds hdescribes.parameters

namespace Parameters

/-- A configuration accepts what the members for its kind decode to, trimmed, if that is admissible. The document that
it is written as is decoded as the same parameters, also from its text, and is accepted as the same parameters wherever
it is submitted again. What a backend repeats in a response, as every corpus does, has gone through a configuration,
so that the parameters found there can be submitted again as they are. -/
theorem parse_submits_again :
    (∀ kind v position p, parse kind v position = .ok p ↔
      (kind = .timeSeries → ∀ members, v.member? "interval" ≠ some (.object members)) ∧ p.Admissible ∧
        ∃ q, ofJson? (.object (kind.parameterMembers v)) = some q ∧ q.trimmed = p) ∧
    (∀ kind v position p, parse kind v position = .ok p → ofJson? p.toJson = some p ∧
      ofWholeText? ofJson? p.toJson.write = some p ∧ (∀ position, parse kind p.toJson position = .ok p) ∧
      p.GivenBy p.toJson) ∧
    (∀ config graph, Graph.compile config = .ok graph → ∀ (backend : Run.Backend) limits interruption,
      backend.Echoes → ∀ report ∈ (Run.Setup.run ⟨graph, backend, limits⟩ interruption).reports, ∀ merged,
        report.outcome = .ok merged → ∀ result, merged.Holds result →
          ∃ w, result.toJson.member? "parameters" = some w ∧ result.parameters.GivenBy w) ∧
    ∀ corpus, (Run.Backend.ofCorpus corpus).Echoes := by
  refine ⟨fun kind v position p => parse_eq_ok_iff, fun kind v position p hparse => ?_, ?_, Run.Backend.ofCorpus_echoes⟩
  · obtain ⟨rfl, hholds⟩ := Config.parse_eq_ok.1 hparse
    have hgiven : p.GivenBy p.toJson := givenBy_toJson (admissible_of_holds hholds)
    have hwritable : Value.Writable (0 + 1) p.toJson := p.writable
    exact ⟨hgiven.decoded, p.readBack.text (hwritable.mono (by decide)),
      fun position => hgiven.parsed _ position fun _ _ => rfl, hgiven⟩
  · intro config graph hcompile backend limits interruption hechoes report hreport merged hmerged result hholds
    obtain ⟨leaf, hleaf, context, hanswer⟩ :=
      Run.Setup.report_answer ⟨graph, backend, limits⟩ interruption hreport hmerged hholds
    -- The result repeats what its leaf asks for, and that has been accepted in the configuration.
    refine ⟨result.parameters.toJson, rfl, givenBy_toJson ?_⟩
    rw [hechoes leaf context result hanswer]
    exact Graph.compile_admissible hcompile hleaf

/-- The counts of the mixed configuration, whose target has blank characters around it, and the follow-up in the
response to them. -/
theorem parse_submits_again_counts : ∃ lineage,
    let p : Parameters := .freqDist "fb.gender" 2
    let setup : Run.Setup := ⟨⟨Mirror.countTasks ++ Mirror.seriesTasks, lineage⟩, .ofScript [], {}⟩
    (parse .freqDist Mirror.counts "freqDist[0]" = .ok p ∧
      (∃ q, ofJson? (.object (Kind.freqDist.parameterMembers Mirror.counts)) = some q ∧ q.trimmed = p) ∧
      parse .freqDist p.toJson "freqDist[0]" = .ok p) ∧
    Graph.compile Mirror.mixed = .ok setup.graph ∧
    ∃ report ∈ (setup.run {}).reports, ∃ merged, report.outcome = .ok merged ∧
      ∃ result, merged.Holds result ∧ result.parameters = .freqDist "fb.age" 4 ∧
        ∃ w, result.toJson.member? "parameters" = some w ∧ result.parameters.GivenBy w := by
  obtain ⟨lineage, hgraph⟩ := Mirror.compile_mixed
  obtain ⟨hiff, hagain, hresponses, -⟩ := parse_submits_again
  have hparse : parse .freqDist Mirror.counts "freqDist[0]" = .ok (.freqDist "fb.gender" 2) := rfl
  let setup : Run.Setup := ⟨⟨Mirror.countTasks ++ Mirror.seriesTasks, lineage⟩, .ofScript [], {}⟩
  have hlt : 0 < setup.graph.tasks.length := Nat.succ_pos _
  obtain ⟨report, hsingle⟩ := setup.run_report hlt
  obtain ⟨hreport, htask⟩ : report ∈ (setup.run {}).reports ∧ report.task = 0 := by
    have hmem : report ∈ (setup.run {}).reports.filter (·.task == 0) := by
      rw [hsingle]
      exact List.mem_cons_self
    simpa using List.mem_filter.1 hmem
  have ht : setup.graph.tasks[report.task]? = Mirror.countTasks[0]? := by
    rw [htask]
    rfl
  let answer (target : String) (threshold : UInt32) : Result := .ofRecords (.freqDist target threshold) []
  let outputs : List (List LeafOutput) := [[⟨"freqDist[0]", "freqDist[0]", answer "fb.gender" 2⟩,
    ⟨"freqDist[0].then", "freqDist[0].then", answer "fb.age" 4⟩]]
  have hvalues : Mirror.countTasks.flatMap (fun t => t.node.chains.map
      (setup.backend.chainValue setup.limits.leafTimeout)) = outputs.map .ok := rfl
  have houtcome : report.outcome = .ok (.single ⟨answer "fb.gender" 2,
      [("freqDist[0].then", .ofResult (answer "fb.age" 4))]⟩) :=
    (setup.report_evaluates hreport ht).of_ok hvalues
  have hholds : Merged.Holds (.single ⟨answer "fb.gender" 2,
      [("freqDist[0].then", .ofResult (answer "fb.age" 4))]⟩) (answer "fb.age" 4) :=
    .single (.behind List.mem_cons_self (.own _ _))
  exact ⟨lineage, ⟨hparse, ((hiff _ _ _ _).1 hparse).2.2, (hagain _ _ _ _ hparse).2.2.1 _⟩, hgraph, report, hreport, _,
    houtcome, _, hholds, rfl,
    hresponses _ _ hgraph _ {} {} (Run.Backend.ofScript_echoes []) report hreport _ houtcome _ hholds⟩

end Parameters
end Inquiry
