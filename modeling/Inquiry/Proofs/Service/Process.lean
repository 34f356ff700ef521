import Inquiry.Proofs.Json.Written
import Inquiry.Proofs.Run.Completion
import Inquiry.Proofs.Run.Sequential
import Inquiry.Service.Router

/-!
# Proofs.Service.Process — every configuration is answered

A configuration that does not compile is refused before anything runs, with the message of the compiler. Any
other is run, and answered with what came of each of its tasks, whatever the backend does.

* `State.run?`: the run that a request starts.
* `State.Refuses`, `State.Answers`: the two responses; `TellsOf`: the part of the second that a task has.
* `State.settles_process`: which of the two is given.
-/

namespace Inquiry
namespace Service

open Json (Value)
open Run (Setup Journal Outcome TaskOutcome)

variable {s : State} {stamp : RunStamp} {r : Http.Request} {config : Value} {graph : Graph}

/-! ## What is said of a task -/

/-- A document tells what came of a task: the answer for it, or else the message why there is none. -/
structure TellsOf (t : Task) (outcome : Outcome) (entry : Value) : Prop where
  kind : entry.member? "analysis_type" = some (.string t.kind.key)
  index : entry.member? "index" = some (.ofNat t.index)
  position : entry.member? "position" = some (.string t.position)
  data : entry.member? "data" = outcome.toOption.map Merged.toJson
  error : entry.member? "error" =
    match outcome with
    | .ok _ => none
    | .error e => some (.string e.message)

theorem outcomeToJson_tells (t : Task) (outcome : Outcome) :
    TellsOf t outcome (outcomeToJson (.of t outcome)) := by
  cases outcome with
  | ok merged => exact ⟨rfl, rfl, rfl, rfl, rfl⟩
  | error e => exact ⟨rfl, rfl, rfl, rfl, rfl⟩

theorem data_isSome (o : TaskOutcome) : ((outcomeToJson o).member? "data").isSome = o.outcome.isOk := by
  obtain ⟨kind, index, position, outcome⟩ := o
  cases outcome <;> rfl

theorem error_isSome (o : TaskOutcome) : ((outcomeToJson o).member? "error").isSome = !o.outcome.isOk := by
  obtain ⟨kind, index, position, outcome⟩ := o
  cases outcome <;> rfl

/-- The entries tell what came of each task in a run, in the order of the graph: what was reported for it, which
follows from the values of its chains. -/
structure TellsAll (setup : Setup) (entries : List Value) : Prop where
  length : entries.length = setup.graph.tasks.length
  each : ∀ i t, setup.graph.tasks[i]? = some t → ∃ entry report,
    entries[i]? = some entry ∧ report ∈ (setup.run {}).reports ∧ report.task = i ∧
      TellsOf t report.outcome entry ∧ setup.Evaluates t.node report.outcome

theorem complete_tellsAll (setup : Setup) (hordered : setup.graph.tasks.Pairwise Task.Before) :
    TellsAll setup (setup.complete.outcomes.map outcomeToJson) := by
  obtain ⟨reports, hperm, htasks, houtcomes⟩ := setup.complete_outcomes hordered
  have hlength := TaskOutcome.length_of_tasks htasks
  rw [houtcomes]
  refine ⟨by simp [TaskOutcome.inOrder, hlength], fun i t ht => ?_⟩
  obtain ⟨hlt, -⟩ := List.getElem?_eq_some_iff.1 ht
  have hreport : reports[i]? = some reports[i] := List.getElem?_eq_getElem (by omega)
  have htask : reports[i].task = i := by
    have hplace := congrArg (·[i]?) htasks
    simpa [hreport, hlt] using hplace
  have hmem : reports[i] ∈ (setup.run {}).reports := hperm.subset (List.getElem_mem _)
  refine ⟨outcomeToJson (.of t reports[i].outcome), reports[i], ?_, hmem, htask, outcomeToJson_tells _ _,
    setup.report_evaluates hmem (htask ▸ ht)⟩
  rw [List.getElem?_map, TaskOutcome.inOrder, List.getElem?_zipWith, ht, hreport]
  rfl

/-! ## The two responses -/

/-- The run that a request starts, unless it is refused. -/
def State.run? (s : State) (r : Http.Request) : Option Journal :=
  match readGraph r with
  | .ok graph => some (Setup.run ⟨graph, s.backend, s.limits⟩ {})
  | .error _ => none

/-- What is read by pages of any origin. -/
def forAnyOrigin (response : Http.Response) : Http.Response :=
  response.withHeader "access-control-allow-origin" "*"

/-- A request is refused for its configuration: nothing is run, and the response is the message of the
compiler. -/
structure State.Refuses (s : State) (stamp : RunStamp) (r : Http.Request) (e : ConfigError) : Prop where
  idle : s.run? r = none
  /-- No other backend, and no other limits, would make a difference. -/
  unasked : ∀ other : State, other.respond stamp r = s.respond stamp r
  response : s.respond stamp r = forAnyOrigin (.json 400 (.object
    [("error", .string "InvalidConfiguration"), ("message", .string e.message)]))
  /-- The text of the response is that document. -/
  readBack : Json.Reader.read? (s.respond stamp r).body = some (.object
    [("error", .string "InvalidConfiguration"), ("message", .string e.message)])

/-- A request is answered with what came of each task of a graph in a run. -/
structure State.Answers (s : State) (stamp : RunStamp) (r : Http.Request) (graph : Graph) : Prop where
  run : s.run? r = some (Setup.run ⟨graph, s.backend, s.limits⟩ {})
  response : ∃ document entries, s.respond stamp r = forAnyOrigin (.json 200 document) ∧
    document.member? "outcomes" = some (.array entries) ∧
    TellsAll ⟨graph, s.backend, s.limits⟩ entries ∧
    document.member? "succeeded" = some (.ofNat (entries.countP fun entry => (entry.member? "data").isSome)) ∧
    document.member? "failed" = some (.ofNat (entries.countP fun entry => (entry.member? "error").isSome))

/-- A request that asks for the processing of a configuration gets the response of that route. -/
theorem respond_process (hmethod : r.method = "POST") (hpath : r.path = "/process") :
    s.respond stamp r = forAnyOrigin (s.serve stamp r .process) := by
  have hroute : Route.ofPath? "/process" = some .process := by decide
  have hallowed : Route.process.methods.contains "POST" = true := by decide
  rw [State.respond, hmethod, if_neg (by decide), State.answer, hpath, hroute]
  simp only [hmethod, hallowed, if_true]
  rw [if_neg (by decide)]
  rfl

theorem refuses_of_error {e : ConfigError} (hmethod : r.method = "POST") (hpath : r.path = "/process")
    (hbody : readBody r = .ok config) (hcompile : Graph.compile config = .error e) :
    s.Refuses stamp r e := by
  have hread : readGraph r = .error (.invalidConfiguration e) := by
    rw [readGraph, hbody]
    simp only [hcompile]
    rfl
  have hresponse : ∀ s : State,
      s.respond stamp r = forAnyOrigin (RequestError.response (.invalidConfiguration e)) := by
    intro s
    rw [respond_process hmethod hpath, State.serve, State.process, hread]
    rfl
  refine ⟨by rw [State.run?, hread], fun other => (hresponse other).trans (hresponse s).symm, hresponse s, ?_⟩
  rw [hresponse]
  exact Json.Reader.read?_write (.object (by simp; exact ⟨.string, .string⟩))

theorem answers_of_ok (hmethod : r.method = "POST") (hpath : r.path = "/process")
    (hbody : readBody r = .ok config) (hcompile : Graph.compile config = .ok graph) :
    s.Answers stamp r graph := by
  let setup : Setup := ⟨graph, s.backend, s.limits⟩
  have hread : readGraph r = .ok graph := by
    rw [readGraph, hbody]
    simp only [hcompile]
    rfl
  have hresponse : s.respond stamp r = forAnyOrigin (.json 200 (ProcessReport.toJson ⟨stamp, setup.complete⟩)) := by
    rw [respond_process hmethod hpath, State.serve, State.process, hread]
    rfl
  obtain ⟨hsucceeded, hfailed⟩ := setup.complete_summary
  refine ⟨by rw [State.run?, hread], _, setup.complete.outcomes.map outcomeToJson, hresponse, rfl,
    complete_tellsAll setup (Graph.compile_ordered hcompile), ?_, ?_⟩
  · have hcount : (ProcessReport.toJson ⟨stamp, setup.complete⟩).member? "succeeded" =
      some (.ofNat setup.complete.summary.succeeded) := rfl
    rw [hcount, hsucceeded, List.countP_map]
    simp only [Function.comp_def, data_isSome]
  · have hcount : (ProcessReport.toJson ⟨stamp, setup.complete⟩).member? "failed" =
      some (.ofNat setup.complete.summary.failed) := rfl
    rw [hcount, hfailed, List.countP_map]
    simp only [Function.comp_def, error_isSome]

/-- A configuration that is sent in a request settles the response: it is refused if it does not compile, and
run and answered if it does. -/
structure State.Settles (s : State) (stamp : RunStamp) (r : Http.Request) (config : Value) : Prop where
  status : (s.respond stamp r).status = 400 ↔ ∀ graph, Graph.compile config ≠ .ok graph
  refused : ∀ e, Graph.compile config = .error e → s.Refuses stamp r e
  answered : ∀ graph, Graph.compile config = .ok graph → s.Answers stamp r graph

/-- Whatever document a request sends to be processed, and whatever the backend does with the calls of a run:
the configuration is refused, and nothing is run, if it does not compile; and else the response tells of each
task what came of it, in the order of the graph. -/
theorem settles_process (s : State) (stamp : RunStamp) {r : Http.Request} {config : Value}
    (hmethod : r.method = "POST") (hpath : r.path = "/process") (hbody : readBody r = .ok config) :
    s.Settles stamp r config where
  status := by
    cases hcompile : Graph.compile config with
    | error e =>
      rw [(refuses_of_error hmethod hpath hbody hcompile : s.Refuses stamp r e).response]
      exact iff_of_true rfl nofun
    | ok graph =>
      obtain ⟨_, _, hresponse, -⟩ := (answers_of_ok hmethod hpath hbody hcompile : s.Answers stamp r graph).response
      rw [hresponse]
      exact iff_of_false (show ¬200 = 400 by decide) fun hnone => hnone graph rfl
  refused _ hcompile := refuses_of_error hmethod hpath hbody hcompile
  answered _ hcompile := answers_of_ok hmethod hpath hbody hcompile

/-! ## Documents that are sent -/

/-- The request that sends a document to be processed. -/
def posted (v : Value) : Http.Request := ⟨"POST", "/process", [("content-type", "application/json")], v.write⟩

/-- A document that is sent is what the service reads. -/
theorem readBody_posted {v : Value} (hv : v.Writable Json.maxDepth)
    (hlength : (String.ofList v.chars).utf8ByteSize ≤ maxBodyBytes) : readBody (posted v) = .ok v := by
  have hdeclares : (posted v).declaresJson = true := by
    have hheaders : (Http.Request.mk "POST" "/process" [("content-type", "application/json")] "").declaresJson =
        true := by decide +kernel
    exact hheaders
  have hwrite : v.write = String.ofList v.chars := by
    rw [← v.toList_write, String.ofList_toList]
  have hfits : ¬maxBodyBytes < (posted v).body.utf8ByteSize := by
    rw [show (posted v).body = v.write from rfl, hwrite]
    exact Nat.not_lt.2 hlength
  rw [readBody, hdeclares, if_neg (by decide), if_neg hfits, show (posted v).body = v.write from rfl,
    Json.Reader.readFirst_write hv]

/-- The mixed configuration is sent to a service whose backend crashes when it is asked for cars. -/
theorem settles_process_mixed :
    let s : State := ⟨"script", .ofScript [("cars", ⟨10, .crash "stuck"⟩)], ⟨1, 1000⟩⟩
    readBody (posted Mirror.mixed) = .ok Mirror.mixed ∧ (∃ graph, Graph.compile Mirror.mixed = .ok graph) ∧
      s.Settles ⟨"run", 0⟩ (posted Mirror.mixed) Mirror.mixed := by
  have hwritable : Mirror.mixed.Writable (4 + 1) := by
    rw [Mirror.mixed, Mirror.series, Mirror.counts]
    repeat' first
      | exact .string
      | exact .null
      | exact .number ⟨by decide, by decide⟩
      | refine .object ?_
      | refine .array ?_
      | refine List.forall_mem_cons.2 ⟨?_, ?_⟩
      | exact List.forall_mem_nil _
  have hbody : readBody (posted Mirror.mixed) = .ok Mirror.mixed :=
    readBody_posted (hwritable.mono (by decide)) (by decide +kernel)
  obtain ⟨lineage, hcompile⟩ := Mirror.compile_mixed
  exact ⟨hbody, ⟨_, hcompile⟩, settles_process _ _ rfl (by decide +kernel) hbody⟩

end Service
end Inquiry
