import Inquiry.Proofs.Remote

/-!
# Proofs.Reply — what is made of a reply

A reply tells the kind of its result in a member of its own, and the kinds of the parameters and of the records by
their form. Only the first is compared with the kind that was asked for, and nothing makes the three agree: a reply
is taken for a result of this kind, which is one if the reply is uniform.

* `Result.IsOf`: a result is of a kind, with its parameters and with each of its records; `Result.Uniform`.
* `RemoteService.accept_eq_ok`: which replies are accepted.
* `Corpus.isOf_of_analyze`: what a corpus answers is uniform, if the specification is.
* `RemoteService.settles_replies`: what comes of all replies, and from which no result of another kind does.
* `RemoteService.accepts_disguised`: a reply from which a result of another kind is accepted.
-/

namespace Inquiry

namespace Result

/-- A result is of a kind, with its parameters and with each of its records. -/
structure IsOf (k : Kind) (r : Result) : Prop where
  kind : r.kind = k
  parameters : r.parameters.kind = k
  records : ∀ record ∈ r.records, record.kind = k

/-- The parameters and the records of a result are of the kind that it tells. -/
def Uniform (r : Result) : Prop := r.IsOf r.kind

end Result

/-! ## Replies that are accepted -/

namespace RemoteService

variable {s : RemoteService} {r : Request} {status : Nat} {body : String} {result : Result}

/-- A result is accepted if the reply tells success and holds one that calls itself of the right kind. -/
theorem accept_eq_ok : s.accept r (.replied status body) = .ok result ↔
    Http.Response.isSuccess status = true ∧ Result.ofText? body = some result ∧ result.kind = r.spec.kind := by
  rw [accept]
  by_cases hstatus : Http.Response.isSuccess status = true
  · cases hread : Result.ofText? body with
    | none => simp [hstatus]
    | some held =>
      by_cases hkind : held.kind = r.spec.kind
      · simp only [hstatus, if_true, checkKind, hkind, Except.ok.injEq, true_and, Option.some.injEq]
        constructor
        · rintro rfl
          exact ⟨rfl, hkind⟩
        · exact And.left
      · have hother : ∀ result, held = result → result.kind ≠ r.spec.kind := fun result h => h ▸ hkind
        simpa [hstatus, checkKind, hkind] using hother result
  · simp [hstatus]

theorem accept_of_failure (h : Http.Response.isSuccess status = false) :
    s.accept r (.replied status body) = .error (.rejected status body) := by
  rw [accept, h]
  rfl

/-- A result that calls itself of another kind is refused with both names. -/
theorem accept_of_other (hstatus : Http.Response.isSuccess status = true) (hread : Result.ofText? body = some result)
    (hkind : result.kind ≠ r.spec.kind) : s.accept r (.replied status body) =
      .error (.invalidResponse ("expected " ++ r.spec.kind.key ++ " result, got " ++ result.kind.key)) := by
  simp only [accept, hstatus, if_true, hread, checkKind, if_neg hkind]

theorem accept_of_unreadable (hstatus : Http.Response.isSuccess status = true) (hread : Result.ofText? body = none) :
    ∃ message, s.accept r (.replied status body) = .error (.invalidResponse message) := by
  simp [accept, hstatus, hread]

end RemoteService

/-! ## Services that analyse a corpus -/

namespace Corpus

variable {c : Corpus} {spec : Spec} {context : Option Result} {result : Result}

/-- What a corpus counts is of the kind of the parameters. -/
theorem kind_of_resultOf (c : Corpus) (spec : Spec) (selected : List Interaction) :
    ∀ record ∈ (c.resultOf spec selected).records, record.kind = spec.parameters.kind := by
  intro record h
  cases hparameters : spec.parameters with
  | timeSeries interval span =>
    obtain ⟨starts, -, -, -, hrecords⟩ := (c.resultOf_series hparameters selected).records
    rw [hrecords] at h
    obtain ⟨start, -, rfl⟩ := List.mem_map.1 h
    rfl
  | freqDist target threshold =>
    obtain ⟨hrecords, -⟩ := (c.resultOf_distribution hparameters selected).listed
    rw [hrecords] at h
    obtain ⟨value, -, rfl⟩ := List.mem_map.1 h
    rfl

/-- What a corpus answers is uniform if the parameters of the specification are of its kind. -/
theorem isOf_of_analyze (hkind : spec.parameters.kind = spec.kind) (h : c.analyze spec context = .ok result) :
    result.IsOf spec.kind := by
  obtain ⟨filter, -, -, rfl⟩ := analyze_eq_ok.1 h
  refine ⟨rfl, hkind, fun record hrecord => ?_⟩
  rw [← hkind]
  exact c.kind_of_resultOf spec _ record hrecord

end Corpus

/-! ## All replies -/

namespace RemoteService

/-- A reply is settled by its status, by the result that it holds, and by what this result calls itself: one of
success is accepted, or is an invalid response; any other is a rejection with its text. Results of other kinds are
therefore never accepted from a body exactly if what it holds is uniform, for only then the parameters and the records
are of the kind that was compared; of this sort is all that comes from a service that analyses a corpus. -/
theorem settles_replies (s : RemoteService) :
    (∀ (r : Request) (status : Nat) (body : String),
      (∀ result, s.accept r (.replied status body) = .ok result ↔ Http.Response.isSuccess status = true ∧
        Result.ofText? body = some result ∧ result.kind = r.spec.kind) ∧
      (Http.Response.isSuccess status = true → (∀ result, s.accept r (.replied status body) ≠ .ok result) →
        ∃ message, s.accept r (.replied status body) = .error (.invalidResponse message)) ∧
      (Http.Response.isSuccess status = false →
        s.accept r (.replied status body) = .error (.rejected status body))) ∧
    (∀ body, (∀ r status result, s.accept r (.replied status body) = .ok result → result.IsOf r.spec.kind) ↔
      ∀ result, Result.ofText? body = some result → result.Uniform) ∧
    ∀ (c : Corpus) (service : Http.Request → Delivery), c.Serves service → c.size < 2 ^ 64 →
      ∀ r : Request, r.InRange → r.spec.parameters.kind = r.spec.kind →
        ∀ result, s.accept r (service (s.request r)) = .ok result → result.IsOf r.spec.kind := by
  refine ⟨fun r status body => ⟨fun result => accept_eq_ok, fun hstatus hnone => ?_, accept_of_failure⟩,
    fun body => ⟨fun h result hread => ?_, fun h r status result haccept => ?_⟩,
    fun c service hserves hsize r hrange hkind result haccept => ?_⟩
  · cases hread : Result.ofText? body with
    | none => exact accept_of_unreadable hstatus hread
    | some result =>
      have hkind : result.kind ≠ r.spec.kind := fun hkind => hnone result (accept_eq_ok.2 ⟨hstatus, hread, hkind⟩)
      exact ⟨_, accept_of_other hstatus hread hkind⟩
  · -- What is held is accepted by those who ask for the kind that it tells.
    exact h ⟨⟨result.kind, none, none, result.parameters⟩, none⟩ 200 result (accept_eq_ok.2 ⟨rfl, hread, rfl⟩)
  · obtain ⟨-, hread, hkind⟩ := accept_eq_ok.1 haccept
    exact hkind ▸ h result hread
  · exact Corpus.isOf_of_analyze hkind ((hserves.accept_iff s hsize hrange).1 haccept)

/-- A request for the genders of authors. -/
def genders : Request := ⟨⟨.freqDist, some "gender", none, .freqDist "gender" 2⟩, none⟩

/-- An answer to it, and the answer of a corpus without interactions. -/
def genderCounts : Result := ⟨.freqDist, .freqDist "gender" 2, [.frequency "male" 3 2], .ofList ["other"]⟩

/-- The answer is accepted as one of its kind, a text that holds none and a refusal are not, and the service for an
empty corpus is asked in vain. -/
theorem settles_replies_genders :
    (({} : RemoteService).accept genders (.replied 202 genderCounts.toJson.write) = .ok genderCounts ∧
      genderCounts.IsOf .freqDist) ∧
    (∃ message, ({} : RemoteService).accept genders (.replied 200 "[]") = .error (.invalidResponse message)) ∧
    ({} : RemoteService).accept genders (.replied 503 "index rebuilding") =
      .error (.rejected 503 "index rebuilding") ∧
    Result.IsOf .freqDist ⟨.freqDist, .freqDist "gender" 2, [], .empty⟩ := by
  obtain ⟨hreplies, huniform, hservice⟩ := settles_replies {}
  have hwritable : Json.Value.Writable 3 genderCounts.toJson := Result.writable (by decide)
  have hread : Result.ofText? genderCounts.toJson.write = some genderCounts :=
    genderCounts.readBack.text (hwritable.mono (by decide))
  have hempty : Result.ofText? "[]" = none := by decide +kernel
  have haccept := ((hreplies genders 202 genderCounts.toJson.write).1 genderCounts).2 ⟨rfl, hread, rfl⟩
  have hcounts : genderCounts.Uniform := ⟨rfl, rfl, by decide⟩
  have hanswer : Corpus.empty.analyze genders.spec genders.context =
      .ok ⟨.freqDist, .freqDist "gender" 2, [], .empty⟩ := by decide +kernel
  have hserves := Corpus.serves_serve .empty
  have hrange : genders.InRange := by
    intro context hcontext
    cases hcontext
  refine ⟨⟨haccept, (huniform _).2 (fun result h => ?_) genders 202 genderCounts haccept⟩,
    (hreplies genders 200 "[]").2.1 rfl (fun result h => ?_), (hreplies genders 503 _).2.2 rfl,
    hservice .empty _ hserves (by decide) genders hrange rfl _
      ((hserves.accept_iff {} (by decide) hrange).2 hanswer)⟩
  · obtain rfl := Option.some.inj (hread.symm.trans h)
    exact hcounts
  · have hheld := (((hreplies genders 200 "[]").1 result).1 h).2.1
    rw [hempty] at hheld
    cases hheld

/-- A time series that calls itself a frequency distribution. -/
def disguised : Result := ⟨.freqDist, .timeSeries .day 1, [.bucket 60 3 2], .empty⟩

/-- It is accepted from a reply to a request for a frequency distribution, though its parameters and its record are
those of a time series. -/
theorem accepts_disguised :
    ({} : RemoteService).accept genders (.replied 200 disguised.toJson.write) = .ok disguised ∧
      genders.spec.kind = .freqDist ∧ disguised.parameters.kind = .timeSeries ∧
      ∀ record ∈ disguised.records, record.kind = .timeSeries := by
  have hrange : disguised.InRange := by decide
  exact ⟨accept_replied {} rfl rfl hrange, rfl, rfl, by decide⟩

end RemoteService
end Inquiry
