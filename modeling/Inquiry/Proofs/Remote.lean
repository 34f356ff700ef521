import Inquiry.Proofs.Corpus.Narrowing
import Inquiry.Proofs.Result.Wire
import Inquiry.Remote

/-!
# Proofs.Remote — a remote service in place of a corpus

A request is written as the specification and one member more, and no reader is made for this document: a service
reads a specification, for which the member is one of another name, and a result under the name of the member. What
is read so is what was asked for. A reply holds a result as it is written, so that a service that analyses a corpus
answers as the corpus does.

* `Request.ofJson?`: how a service reads a request; `Request.readBack`.
* `Request.spec_ofJson?`, `Request.spec_ofText?`: the specification is read as if it had been written alone.
* `RemoteService.accept_replied`: a result is accepted as it was sent.
* `Corpus.Serves`: a service that analyses a corpus; `Corpus.serve` is one.
* `Corpus.resultOf_counts`: the counts of a result are those of interactions of the corpus.
* `RemoteService.wire_transparent`: what is accepted from a service for a corpus is what the corpus answers.
-/

namespace Inquiry

open Json (Value)
open Json.Decode

/-! ## Requests -/

/-- The counts of a result are of sixty-four bits. -/
def Result.InRange (r : Result) : Prop := ∀ record ∈ r.records, record.InRange

instance (r : Result) : Decidable r.InRange := inferInstanceAs (Decidable (∀ _ ∈ _, _))

namespace Request

/-- The counts of the result before, if there is one, are of sixty-four bits. -/
def InRange (r : Request) : Prop := ∀ context, r.context = some context → context.InRange

/-- The request that a document holds: a specification, and a result under the name for what is before it. -/
def ofJson? (v : Value) : Option Request := do
  pure ⟨← Spec.ofJson? v, ← optional Result.ofJson? (v.member? "context")⟩

/-- A reader of specifications finds those of its members that the specification alone would have. -/
theorem fields_toJson (r : Request) :
    recordFields ["analysis_type", "name", "filter", "parameters"] r.toJson =
      recordFields ["analysis_type", "name", "filter", "parameters"] r.spec.toJson := by
  obtain ⟨⟨kind, _ | name, _ | filter, parameters⟩, _ | context⟩ := r <;> rfl

theorem select_toJson (r : Request) : Spec.select r.toJson.draft = r.spec.toJson.draft := by
  obtain ⟨⟨kind, _ | name, _ | filter, parameters⟩, _ | context⟩ := r <;> rfl

theorem member?_context (r : Request) : r.toJson.member? "context" = r.context.map Result.toJson := by
  obtain ⟨⟨kind, _ | name, _ | filter, parameters⟩, _ | context⟩ := r <;> rfl

theorem spec_ofJson? (r : Request) : Spec.ofJson? r.toJson = some r.spec := by
  rw [← r.spec.ofJson?_toJson, Spec.ofJson?, Spec.ofJson?, r.fields_toJson]

theorem context_ofJson? (r : Request) : optional Result.ofJson? (r.toJson.member? "context") = some r.context := by
  rw [r.member?_context]
  cases r.context with
  | none => rfl
  | some context => exact congrArg (Option.map some) context.ofJson?_toJson

theorem ofJson?_toJson (r : Request) : ofJson? r.toJson = some r := by
  simp [ofJson?, r.spec_ofJson?, r.context_ofJson?]

theorem readBack (r : Request) : ReadBack toJson ofJson? (ofWholeText? ofJson?) r := .of_document r.ofJson?_toJson

theorem writable {r : Request} (h : r.InRange) : Value.Writable Json.maxDepth r.toJson := by
  have hmembers : Value.Writable 4 r.toJson := by
    refine .object (List.forall_mem_append.2 ⟨r.spec.writable_members, ?_⟩)
    cases hcontext : r.context with
    | none => nofun
    | some context =>
      have hresult : Value.Writable 3 context.toJson := Result.writable (h context hcontext)
      simpa using hresult
  exact hmembers.mono (by decide)

/-- The text of a request is read as the specification in it: the member for the result before is passed over. -/
theorem spec_ofText? {r : Request} (h : r.InRange) : Spec.ofText? r.toJson.write = some r.spec := by
  have hspec : Value.Writable Json.maxDepth r.spec.toJson := .object r.spec.writable_members
  rw [Spec.ofText?, Json.Reader.readSelected?_write (writable h), r.select_toJson, Json.Draft.value?_draft hspec,
    Option.bind_some, r.spec.ofJson?_toJson]

theorem ofText?_toJson {r : Request} (h : r.InRange) : ofWholeText? ofJson? r.toJson.write = some r :=
  r.readBack.text (writable h)

end Request

/-! ## Replies -/

theorem RemoteService.accept_replied (s : RemoteService) {r : Request} {result : Result} {status : Nat}
    (hstatus : Http.Response.isSuccess status = true) (hkind : result.kind = r.spec.kind) (hrange : result.InRange) :
    s.accept r (.replied status result.toJson.write) = .ok result := by
  have hwritable : Value.Writable 3 result.toJson := Result.writable hrange
  have hread : Result.ofText? result.toJson.write = some result := result.readBack.text (hwritable.mono (by decide))
  simp only [accept, if_pos hstatus, hread, checkKind, if_pos hkind]

/-! ## Services that analyse a corpus -/

namespace Corpus

open Tallies (audience)

variable {c : Corpus}

/-- Each record of a result counts some of the interactions that were selected. -/
theorem resultOf_counts (c : Corpus) (spec : Spec) (selected : List Interaction) {record : Record}
    (h : record ∈ (c.resultOf spec selected).records) : ∃ is : List Interaction, is.Sublist selected ∧
      record.interactions = is.length ∧ record.uniqueAuthors = audience Interaction.author is := by
  cases hparameters : spec.parameters with
  | timeSeries interval span =>
    obtain ⟨starts, -, -, -, hrecords⟩ := (c.resultOf_series hparameters selected).records
    rw [hrecords] at h
    obtain ⟨start, -, rfl⟩ := List.mem_map.1 h
    exact ⟨inBucket selected interval span start, List.filter_sublist, rfl, rfl⟩
  | freqDist target threshold =>
    obtain ⟨hrecords, -⟩ := (c.resultOf_distribution hparameters selected).listed
    rw [hrecords] at h
    obtain ⟨value, -, rfl⟩ := List.mem_map.1 h
    exact ⟨holders selected target value, List.filter_sublist, rfl, rfl⟩

/-- A corpus that can be counted by sixty-four bits has results that can. -/
theorem inRange_of_analyze (hsize : c.size < 2 ^ 64) {spec : Spec} {context : Option Result} {result : Result}
    (h : c.analyze spec context = .ok result) : result.InRange := by
  obtain ⟨filter, -, -, rfl⟩ := analyze_eq_ok.1 h
  intro record hrecord
  obtain ⟨is, hsub, hinteractions, hauthors⟩ := c.resultOf_counts spec _ hrecord
  have hlength : is.length < 2 ^ 64 := ((hsub.trans List.filter_sublist).length_le).trans_lt hsize
  rw [Record.InRange, hinteractions, hauthors]
  exact ⟨hlength, Tallies.audience_le_length.trans_lt hlength⟩

theorem kind_of_analyze {spec : Spec} {context : Option Result} {result : Result}
    (h : c.analyze spec context = .ok result) : result.kind = spec.kind := by
  obtain ⟨filter, -, -, rfl⟩ := analyze_eq_ok.1 h
  rfl

/-- A service reads the request in a message, analyses the corpus, and replies with the result; without a result, no
reply of it tells success. -/
structure Serves (c : Corpus) (service : Http.Request → Delivery) : Prop where
  answers : ∀ {message r result}, ofWholeText? Request.ofJson? message.body = some r →
    c.analyze r.spec r.context = .ok result →
      ∃ status, Http.Response.isSuccess status = true ∧ service message = .replied status result.toJson.write
  refuses : ∀ {message r e status body}, ofWholeText? Request.ofJson? message.body = some r →
    c.analyze r.spec r.context = .error e → service message = .replied status body →
      Http.Response.isSuccess status = false

/-- A service that refuses what it has no result for. -/
def serve (c : Corpus) (message : Http.Request) : Delivery :=
  match ofWholeText? Request.ofJson? message.body with
  | none => .replied 400 ""
  | some r =>
    match c.analyze r.spec r.context with
    | .ok result => .replied 200 result.toJson.write
    | .error e => .replied 400 e.message

theorem serves_serve (c : Corpus) : c.Serves c.serve where
  answers hread hanswer := ⟨200, rfl, by simp only [serve, hread, hanswer]⟩
  refuses hread hanswer hreply := by
    simp only [serve, hread, hanswer, Delivery.replied.injEq] at hreply
    rw [← hreply.1]
    rfl

/-- What is accepted from a service for a corpus is what the corpus answers. -/
theorem Serves.accept_iff {service : Http.Request → Delivery} (h : c.Serves service) (s : RemoteService)
    (hsize : c.size < 2 ^ 64) {r : Request} (hrange : r.InRange) {result : Result} :
    s.accept r (service (s.request r)) = .ok result ↔ c.analyze r.spec r.context = .ok result := by
  have hread : ofWholeText? Request.ofJson? (s.request r).body = some r := Request.ofText?_toJson hrange
  cases hanswer : c.analyze r.spec r.context with
  | ok answer =>
    obtain ⟨status, hstatus, hreply⟩ := h.answers hread hanswer
    rw [hreply, s.accept_replied hstatus (kind_of_analyze hanswer) (inRange_of_analyze hsize hanswer)]
  | error e =>
    -- Whatever comes of the message, there is no result in it.
    refine iff_of_false (fun haccept => ?_) nofun
    cases hreply : service (s.request r) with
    | unreachable reason => simp [RemoteService.accept, hreply] at haccept
    | timedOut => simp [RemoteService.accept, hreply] at haccept
    | replied status body => simp [RemoteService.accept, hreply, h.refuses hread hanswer hreply] at haccept

end Corpus

/-! ## Both ways -/

/-- A service reads what was asked for: the specification from the whole document, and under a name of its own the
result before, which has a member exactly if there is one. A reply of success with a result of the right kind is
taken for this result. From a service that analyses a corpus, a result is therefore accepted exactly if the corpus
answers with it. -/
theorem RemoteService.wire_transparent (s : RemoteService) :
    (∀ r : Request, Spec.ofJson? r.toJson = some r.spec ∧
      (r.toJson.member? "context" = none ↔ r.context = none) ∧
      ∀ context, r.context = some context → (r.toJson.member? "context").bind Result.ofJson? = some context) ∧
    (∀ r : Request, r.InRange → Json.Reader.read? (s.request r).body = some r.toJson ∧
      Spec.ofText? (s.request r).body = some r.spec ∧
      ofWholeText? Request.ofJson? (s.request r).body = some r) ∧
    (∀ (r : Request) (result : Result) (status : Nat), Http.Response.isSuccess status = true →
      result.kind = r.spec.kind → result.InRange →
      s.accept r (.replied status result.toJson.write) = .ok result) ∧
    ∀ (c : Corpus) (service : Http.Request → Delivery), c.Serves service → c.size < 2 ^ 64 →
      ∀ r : Request, r.InRange → ∀ result,
        s.accept r (service (s.request r)) = .ok result ↔ c.analyze r.spec r.context = .ok result := by
  refine ⟨fun r => ⟨r.spec_ofJson?, ?_, fun context hcontext => ?_⟩, fun r hrange => ⟨?_, ?_, ?_⟩,
    fun r result status hstatus hkind hrange => s.accept_replied hstatus hkind hrange,
    fun c service hserves hsize r hrange result => hserves.accept_iff s hsize hrange⟩
  · rw [r.member?_context, Option.map_eq_none_iff]
  · rw [r.member?_context, hcontext]
    exact context.ofJson?_toJson
  · exact Json.Reader.read?_write (Request.writable hrange)
  · exact Request.spec_ofText? hrange
  · exact Request.ofText?_toJson hrange

/-- The brands that are mentioned in an interaction of a day that was told. -/
def brandsOfTheDay : Request :=
  ⟨⟨.freqDist, some "brands", some "brand exists", .freqDist "brand" 5⟩,
    some ⟨.timeSeries, .timeSeries .day 1, [.bucket 0 3 2], .ofList ["86400"]⟩⟩

/-- The answer to it. -/
def brandCounts : Result := ⟨.freqDist, .freqDist "brand" 5, [.frequency "ford" 2 2], .ofList ["honda"]⟩

/-- The request comes to the service with its context, and the answer comes back with what is withheld. -/
theorem RemoteService.wire_transparent_mentions :
    Spec.ofText? (({} : RemoteService).request brandsOfTheDay).body = some brandsOfTheDay.spec ∧
    (brandsOfTheDay.toJson.member? "context").bind Result.ofJson? = brandsOfTheDay.context ∧
    ({} : RemoteService).accept brandsOfTheDay (.replied 201 brandCounts.toJson.write) = .ok brandCounts ∧
    Corpus.mentions.analyze brandsOfTheDay.spec brandsOfTheDay.context = .ok brandCounts ∧
    ({} : RemoteService).accept brandsOfTheDay
      (Corpus.mentions.serve (({} : RemoteService).request brandsOfTheDay)) = .ok brandCounts := by
  obtain ⟨hdocument, htext, hreply, hservice⟩ := RemoteService.wire_transparent {}
  have hrange : brandsOfTheDay.InRange := by
    rintro context hcontext
    cases hcontext
    decide
  have hfilter : Corpus.filterOf brandsOfTheDay.spec = .ok (some ⟨[.present "brand"]⟩) := by
    have hparse : Filter.parse "brand exists" = .ok ⟨[.present "brand"]⟩ := by decide +kernel
    simp only [Corpus.filterOf, brandsOfTheDay, hparse]
  have hselected : Corpus.mentions.interactions.filter
      (Corpus.passes (some ⟨[.present "brand"]⟩) brandsOfTheDay.context) = Corpus.mentions.interactions :=
    List.filter_eq_self.2 (by decide +kernel)
  have hcounts : Corpus.mentions.frequencies Corpus.mentions.interactions "brand" 5 =
      (brandCounts.records, brandCounts.redacted) := by
    cbv
  have hanswer : Corpus.mentions.analyze brandsOfTheDay.spec brandsOfTheDay.context = .ok brandCounts :=
    Corpus.analyze_eq_ok.2 ⟨_, hfilter, by simp [brandsOfTheDay], by
      rw [hselected]
      simp only [Corpus.resultOf, Corpus.counts, brandsOfTheDay, hcounts]
      rfl⟩
  exact ⟨(htext _ hrange).2.1, (hdocument _).2.2 _ rfl, hreply _ _ 201 rfl rfl (by decide), hanswer,
    (hservice _ _ Corpus.mentions.serves_serve (by decide) _ hrange _).2 hanswer⟩

end Inquiry
