import Inquiry.Proofs.Analysis.Wire
import Inquiry.Proofs.Text.Keyed
import Inquiry.Result.Wire

/-!
# Proofs.Result.Wire — results and responses are read as they are written

Records and merged responses have no tag, so a reader could take one for the other; that it does not rests on
the members that each of them has.

* `Response.Ordered`, `Merged.Ordered`: the keys are those of maps, at every level.
* `Response.ofJson?_result`: the document of a response is none of a result, so responses under keys, whatever
  the keys, are not taken for a single one (`Response.ofJson?_entries`).
* `Response.Within`, `Response.writable`: the responses that a reader of texts admits.
* `written_readBack`: everything that is written is read back.
-/

namespace Inquiry

open Json (Draft Value)
open Json.Decode

/-! ## Records and results -/

theorem Record.ofJson?_toJson (r : Record) : Record.ofJson? r.toJson = some r := by
  cases r with
  | bucket timestamp interactions uniqueAuthors =>
    have hfields : objectFields ["timestamp", "interactions", "unique_authors"]
        (Record.bucket timestamp interactions uniqueAuthors).toJson =
          some [some (.ofInt timestamp.toInt), some (.ofNat interactions), some (.ofNat uniqueAuthors)] := rfl
    simp [Record.ofJson?, bucketOfJson?, hfields, int64?_ofInt, nat?_ofNat]
  | frequency key interactions uniqueAuthors =>
    have hother : objectFields ["timestamp", "interactions", "unique_authors"]
        (Record.frequency key interactions uniqueAuthors).toJson =
          some [none, some (.ofNat interactions), some (.ofNat uniqueAuthors)] := rfl
    have hfields : objectFields ["key", "interactions", "unique_authors"]
        (Record.frequency key interactions uniqueAuthors).toJson =
          some [some (.string key), some (.ofNat interactions), some (.ofNat uniqueAuthors)] := rfl
    simp [Record.ofJson?, bucketOfJson?, hother, frequencyOfJson?, hfields, Value.text?, nat?_ofNat]

theorem Result.fields_toJson (r : Result) :
    recordFields ["analysis_type", "parameters", "results", "redacted"] r.toJson =
      some [some r.kind.toJson, some r.parameters.toJson, some (.array (r.records.map Record.toJson)),
        some (.array (r.redacted.toList.map .string))] := rfl

theorem Result.ofJson?_toJson (r : Result) : Result.ofJson? r.toJson = some r := by
  have hredacted : redactedOfJson? (some (.array (r.redacted.toList.map .string))) = some r.redacted := by
    have htexts : list? Value.text? (.array (r.redacted.toList.map .string)) = some r.redacted.toList :=
      list?_map fun _ _ => rfl
    rw [redactedOfJson?, htexts, Option.map_some, TextSet.ofList_toList]
  have hrecords : list? Record.ofJson? (.array (r.records.map Record.toJson)) = some r.records :=
    list?_map fun record _ => record.ofJson?_toJson
  rw [Result.ofJson?, Result.fields_toJson]
  simp [Kind.ofJson?_toJson, Parameters.ofJson?_toJson, hrecords, hredacted]

theorem Record.readBack (r : Record) : ReadBack Record.toJson Record.ofJson? (ofWholeText? Record.ofJson?) r :=
  .of_document r.ofJson?_toJson

theorem Result.select_toJson (r : Result) : Result.select r.toJson.draft = r.toJson.draft := rfl

theorem Result.readBack (r : Result) : ReadBack Result.toJson Result.ofJson? Result.ofText? r :=
  .of_select r.ofJson?_toJson r.select_toJson

/-! ## Responses -/

/-- The keys of the follow-ups are those of a map, at every level. -/
inductive Response.Ordered : Response → Prop where
  | intro {analysis : Result} {chained : List (String × Response)} (ascending : Keyed.Ascending chained)
      (each : ∀ entry ∈ chained, Ordered entry.2) : Ordered ⟨analysis, chained⟩

/-- The keys of a group, and those of the follow-ups, are those of maps. -/
def Merged.Ordered : Merged → Prop
  | .single r => r.Ordered
  | .keyed entries => entries.Ascending ∧ ∀ entry ∈ entries, entry.2.Ordered

namespace Response

theorem entriesToJson_eq (entries : List (String × Response)) :
    entriesToJson entries = entries.map fun entry => (entry.1, entry.2.toJson) := by
  induction entries with
  | nil => rfl
  | cons entry entries ih => rw [entriesToJson, ih, List.map_cons]

/-- The document of a response is none of a result. -/
theorem ofJson?_result (r : Response) : Result.ofJson? r.toJson = none := by
  obtain ⟨analysis, _ | ⟨entry, entries⟩⟩ := r <;> rfl

/-- Entries in ascending order of keys are read back if the response of each is. -/
theorem entriesOfMembers?_toJson {entries : List (String × Response)} (hascending : Keyed.Ascending entries)
    (h : ∀ entry ∈ entries, ofJson? entry.2.toJson = some entry.2) :
    entriesOfMembers? (entriesToJson entries) = some entries := by
  induction entries with
  | nil => rfl
  | cons entry entries ih =>
    obtain ⟨hentry, hentries⟩ := List.forall_mem_cons.1 h
    have hbehind : Keyed.Ascending entries := List.Pairwise.of_cons hascending
    -- The entry comes before those behind it, so it is inserted in front of them.
    have hinsert : Keyed.insertNew entry.1 entry.2 entries = entry :: entries := by
      have hmap := Keyed.ofEntries_of_ascending hascending
      rwa [Keyed.ofEntries, Keyed.ofEntries_of_ascending hbehind] at hmap
    simp only [entriesToJson, entriesOfMembers?, hentry, ih hbehind hentries]
    exact congrArg some hinsert

theorem ofJson?_toJson {r : Response} (h : r.Ordered) : ofJson? r.toJson = some r := by
  induction h with
  | @intro analysis chained hascending _ ih =>
    have hentries := entriesOfMembers?_toJson hascending ih
    have hanalysis := analysis.ofJson?_toJson
    cases chained with
    | nil => 
      have hfield : field [("analysis", analysis.toJson)] "analysis" = some (some analysis.toJson) := rfl
      simp [toJson, ofJson?, hfield, hanalysis, chainedOfMembers?]
    | cons entry entries =>
      have hfield : field
          [("analysis", analysis.toJson), ("chained", .object (entriesToJson (entry :: entries)))] "analysis" =
            some (some analysis.toJson) := rfl
      simp [toJson, ofJson?, hfield, hanalysis, chainedOfMembers?, entriesOfJson?, hentries, Keyed.count]

theorem ofJson?_of_mem {entries : List (String × Response)} {key : String} {v : Value}
    (h : (key, v) ∈ entriesToJson entries) : Result.ofJson? v = none := by
  rw [entriesToJson_eq, List.mem_map] at h
  obtain ⟨entry, -, hentry⟩ := h
  obtain ⟨-, rfl⟩ := Prod.mk.inj hentry
  exact entry.2.ofJson?_result

/-- Responses under keys are not taken for a single response: what stands under any key is none of a result. -/
theorem ofJson?_entries (entries : List (String × Response)) :
    ofJson? (.object (entriesToJson entries)) = none := by
  rw [ofJson?]
  cases hfield : field (entriesToJson entries) "analysis" with
  | none => rfl
  | some found =>
    cases found with
    | none => rfl
    | some v =>
      rw [field] at hfield
      split_ifs at hfield
      have hnone := ofJson?_of_mem (Keyed.exists_of_find? (Option.some.inj hfield))
      simp [hnone]

theorem selectEachMember_draft {entries : List (String × Response)}
    (h : ∀ entry ∈ entries, select entry.2.toJson.draft = entry.2.toJson.draft) :
    selectEachMember (Value.draftMembers (entriesToJson entries)) =
      Value.draftMembers (entriesToJson entries) := by
  induction entries with
  | nil => rfl
  | cons entry entries ih =>
    obtain ⟨hentry, hentries⟩ := List.forall_mem_cons.1 h
    rw [entriesToJson, Value.draftMembers, selectEachMember, hentry, ih hentries]

theorem select_toJson {r : Response} (h : r.Ordered) : select r.toJson.draft = r.toJson.draft := by
  induction h with
  | @intro analysis chained _ _ ih =>
    have hanalysis := analysis.select_toJson
    cases chained with
    | nil => simp [toJson, Value.draft, Value.draftMembers, select, selectMembers, hanalysis]
    | cons entry entries =>
      have heach := selectEachMember_draft ih
      simp [toJson, Value.draft, Value.draftMembers, select, selectMembers, selectEntries, hanalysis, heach]

theorem readBack {r : Response} (h : r.Ordered) : ReadBack toJson ofJson? ofText? r :=
  .of_select (ofJson?_toJson h) (select_toJson h)

end Response

theorem Merged.ofJson?_toJson {m : Merged} (h : m.Ordered) : Merged.ofJson? m.toJson = some m := by
  cases m with
  | single r =>
    have hr := Response.ofJson?_toJson h
    simp [Merged.ofJson?, Merged.toJson, hr]
  | keyed entries =>
    obtain ⟨hascending, heach⟩ := h
    have hentries := Response.entriesOfMembers?_toJson hascending fun entry hentry =>
      Response.ofJson?_toJson (heach entry hentry)
    simp [Merged.ofJson?, Merged.toJson, Response.ofJson?_entries, Response.entriesOfJson?, hentries]

/-! ## What can be read from a text -/

/-- Counts of sixty-four bits. -/
def Record.InRange (r : Record) : Prop := r.interactions < 2 ^ 64 ∧ r.uniqueAuthors < 2 ^ 64

instance (r : Record) : Decidable r.InRange := inferInstanceAs (Decidable (_ ∧ _))

/-- The counts of the results of a response are of sixty-four bits, and follow-ups nest at most `levels`
deep. -/
inductive Response.Within : Nat → Response → Prop where
  | alone {levels : Nat} {analysis : Result} (counts : ∀ record ∈ analysis.records, record.InRange) :
      Within levels ⟨analysis, []⟩
  | chained {levels : Nat} {analysis : Result} {chained : List (String × Response)}
      (counts : ∀ record ∈ analysis.records, record.InRange) (each : ∀ entry ∈ chained, Within levels entry.2) :
      Within (levels + 1) ⟨analysis, chained⟩

theorem Record.writable {room : Nat} {r : Record} (h : r.InRange) : Value.Writable (room + 1) r.toJson := by
  have hinteractions : Value.Writable room (.ofNat r.interactions) := writable_ofNat h.1
  have hauthors : Value.Writable room (.ofNat r.uniqueAuthors) := writable_ofNat h.2
  cases r with
  | bucket timestamp interactions uniqueAuthors =>
    have htimestamp : Value.Writable room (.ofInt timestamp.toInt) :=
      .number ⟨timestamp.le_toInt, timestamp.toInt_lt.trans (by decide)⟩
    exact .object (by simpa using ⟨htimestamp, hinteractions, hauthors⟩)
  | frequency key interactions uniqueAuthors =>
    exact .object (by simpa using ⟨.string, hinteractions, hauthors⟩)

theorem Result.writable {room : Nat} {r : Result} (h : ∀ record ∈ r.records, record.InRange) :
    Value.Writable (room + 3) r.toJson := by
  have hrecords : Value.Writable (room + 2) (.array (r.records.map Record.toJson)) :=
    .array (List.forall_mem_map.2 fun record hrecord => Record.writable (h record hrecord))
  have hredacted : Value.Writable (room + 2) (.array (r.redacted.toList.map .string)) :=
    .array (List.forall_mem_map.2 fun _ _ => .string)
  exact .object (by simpa using ⟨.string, r.parameters.writable, hrecords, hredacted⟩)

/-- A response and its follow-ups put two containers around each level of follow-ups. -/
theorem Response.writable {levels : Nat} {r : Response} (h : r.Within levels) :
    Value.Writable (2 * levels + 4) r.toJson := by
  induction h with
  | @alone levels analysis hcounts =>
    have hanalysis : Value.Writable (2 * levels + 3) analysis.toJson := Result.writable hcounts
    exact .object (by simpa using hanalysis)
  | @chained levels analysis chained hcounts _ ih =>
    have hanalysis : Value.Writable (2 * levels + 2 + 3) analysis.toJson := Result.writable hcounts
    have hchained : Value.Writable (2 * levels + 5) (.object (entriesToJson chained)) := by
      rw [entriesToJson_eq]
      exact .object (List.forall_mem_map.2 ih)
    have hmembers : ∀ members : List (String × Value),
        (∀ member ∈ members, Value.Writable (2 * levels + 5) member.2) →
          Value.Writable (2 * (levels + 1) + 4) (.object members) := fun _ => .object
    cases chained with
    | nil => exact hmembers _ (by simpa using hanalysis)
    | cons entry entries => exact hmembers _ (by simpa using ⟨hanalysis, hchained⟩)

/-! ## Everything is read back -/

/-- What is written is read back as the same: parameters, specifications, records and results, and responses and
merged responses that are maps at every level. Responses under keys are taken for no single response, and the
members of what is absent or empty are not written. -/
theorem written_readBack :
    (∀ p : Parameters, ReadBack Parameters.toJson Parameters.ofJson? (ofWholeText? Parameters.ofJson?) p) ∧
    (∀ s : Spec, ReadBack Spec.toJson Spec.ofJson? Spec.ofText? s) ∧
    (∀ r : Record, ReadBack Record.toJson Record.ofJson? (ofWholeText? Record.ofJson?) r) ∧
    (∀ r : Result, ReadBack Result.toJson Result.ofJson? Result.ofText? r) ∧
    (∀ r : Response, r.Ordered → ReadBack Response.toJson Response.ofJson? Response.ofText? r) ∧
    (∀ m : Merged, m.Ordered → ReadBack Merged.toJson Merged.ofJson? (ofWholeText? Merged.ofJson?) m) ∧
    (∀ entries, Response.ofJson? (Merged.keyed entries).toJson = none) ∧
    (∀ s : Spec, s.toJson.member? "name" = s.name.map .string ∧
      s.toJson.member? "filter" = s.filter.map .string) ∧
    ∀ r : Response, r.toJson.member? "chained" = none ↔ r.chained = [] := by
  refine ⟨Parameters.readBack, Spec.readBack, Record.readBack, Result.readBack, fun r => Response.readBack,
    fun m hm => .of_document (Merged.ofJson?_toJson hm), Response.ofJson?_entries, ?_, ?_⟩
  · rintro ⟨kind, _ | name, _ | filter, parameters⟩ <;> exact ⟨rfl, rfl⟩
  · rintro ⟨analysis, _ | ⟨entry, entries⟩⟩
    · exact iff_of_true rfl rfl
    · exact iff_of_false nofun nofun

/-- A time series with a frequency distribution for a follow-up. -/
def Response.ofTheDay : Response :=
  ⟨.ofRecords (.timeSeries .day 1) [.bucket (-86400) 3 2],
    [("analysis", .ofResult (.ofRecords (.freqDist "fb.gender" 2) [.frequency "male" 3 2]))]⟩

/-- Responses under the words for the members of a single response. -/
def Merged.imitation : Merged := .keyed [("analysis", .ofTheDay), ("chained", .ofTheDay)]

/-- Keys that are words for members are read back as keys, from the document and from its text. -/
theorem written_readBack_imitation : Merged.ofJson? Merged.imitation.toJson = some .imitation ∧
    (Json.Reader.read? Merged.imitation.toJson.write).bind Merged.ofJson? = some .imitation := by
  have hordered : Response.ofTheDay.Ordered :=
    .intro (by decide) (by simpa using .intro .nil nofun)
  have hwithin : Response.ofTheDay.Within 1 :=
    .chained (by decide) (by simpa using .alone (by decide))
  have hwritable : Value.Writable 7 Merged.imitation.toJson :=
    .object (by simpa [Response.entriesToJson] using Response.writable hwithin)
  obtain ⟨-, -, -, -, -, hmerged, -⟩ := written_readBack
  have hread := hmerged .imitation ⟨by decide, by simpa using hordered⟩
  exact ⟨hread.document, hread.text (hwritable.mono (by decide))⟩

end Inquiry
