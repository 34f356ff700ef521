import Inquiry.Analysis.Wire
import Inquiry.Result.Basic

/-!
# Result.Wire — results as documents

Records and merged responses are written without a tag. A reader tries a bucket before a frequency,
and a single response before a group of responses. A result always lists what it withholds; follow-ups
are left out where there are none.

Where a result or a response is read from a text, members of other names are passed over as drafts, in
the result of a response and in its follow-ups too. What is written without a tag is read whole, for a
reader has to see all of it to choose.
-/

namespace Inquiry

open Json (Draft Value)
open Json.Decode

namespace Record

/-- The document of a record. -/
def toJson : Record → Value
  | .bucket timestamp interactions uniqueAuthors =>
    .object [("timestamp", .ofInt timestamp.toInt), ("interactions", .ofNat interactions),
      ("unique_authors", .ofNat uniqueAuthors)]
  | .frequency key interactions uniqueAuthors =>
    .object [("key", .string key), ("interactions", .ofNat interactions),
      ("unique_authors", .ofNat uniqueAuthors)]

/-- The record of a bucket that a document holds. -/
def bucketOfJson? (v : Value) : Option Record :=
  match objectFields ["timestamp", "interactions", "unique_authors"] v with
  | some [some timestamp, some interactions, some uniqueAuthors] => do
    pure (.bucket (← int64? timestamp) (← nat? interactions) (← nat? uniqueAuthors))
  | _ => none

/-- The record of a value that a document holds. -/
def frequencyOfJson? (v : Value) : Option Record :=
  match objectFields ["key", "interactions", "unique_authors"] v with
  | some [some key, some interactions, some uniqueAuthors] => do
    pure (.frequency (← key.text?) (← nat? interactions) (← nat? uniqueAuthors))
  | _ => none

/-- The record that a document holds. -/
def ofJson? (v : Value) : Option Record :=
  (bucketOfJson? v).or (frequencyOfJson? v)

end Record

namespace Result

/-- The document of a result. -/
def toJson (r : Result) : Value :=
  .object [("analysis_type", r.kind.toJson), ("parameters", r.parameters.toJson),
    ("results", .array (r.records.map Record.toJson)),
    ("redacted", .array (r.redacted.toList.map .string))]

/-- The set of texts that an array holds; an absent one is empty. -/
def redactedOfJson? : Option Value → Option TextSet
  | none => some .empty
  | some v => (list? Value.text? v).map TextSet.ofList

/-- The result that a document holds. -/
def ofJson? (v : Value) : Option Result :=
  match recordFields ["analysis_type", "parameters", "results", "redacted"] v with
  | some [some kind, some parameters, some records, redacted] => do
    pure ⟨← Kind.ofJson? kind, ← Parameters.ofJson? parameters, ← list? Record.ofJson? records,
      ← redactedOfJson? redacted⟩
  | _ => none

/-- What a result takes of a draft. -/
def select : Draft → Draft :=
  Draft.select [("analysis_type", id), ("parameters", id), ("results", id), ("redacted", id)]

/-- The result that a text holds. -/
def ofText? (s : String) : Option Result := (Json.Reader.readSelected? select s).bind ofJson?

end Result

namespace Response

mutual

/-- The document of a response. -/
def toJson : Response → Value
  | ⟨analysis, []⟩ => .object [("analysis", analysis.toJson)]
  | ⟨analysis, entry :: entries⟩ =>
    .object [("analysis", analysis.toJson), ("chained", .object (entriesToJson (entry :: entries)))]

/-- The members of the document of responses under their keys. -/
def entriesToJson : List (String × Response) → List (String × Value)
  | [] => []
  | (key, r) :: rest => (key, toJson r) :: entriesToJson rest

end

mutual

/-- The response that a document holds. -/
def ofJson? : Value → Option Response
  | .object members => do
    match ← field members "analysis" with
    | some analysis => pure ⟨← Result.ofJson? analysis, ← chainedOfMembers? members⟩
    | none => none
  | .array [analysis] => (Result.ofJson? analysis).map fun r => ⟨r, []⟩
  | .array [analysis, chained] => do
    pure ⟨← Result.ofJson? analysis, ← entriesOfJson? chained⟩
  | _ => none

/-- The follow-ups among the members of a response; absent ones are none, repeated ones an error. -/
def chainedOfMembers? : List (String × Value) → Option (List (String × Response))
  | [] => some []
  | (name, v) :: rest =>
    if name = "chained" then
      if Keyed.count "chained" rest = 0 then entriesOfJson? v else none
    else chainedOfMembers? rest

/-- The responses that an object holds under their keys. -/
def entriesOfJson? : Value → Option (List (String × Response))
  | .object members => entriesOfMembers? members
  | _ => none

/-- The responses of the members of an object, in ascending order of keys, the last of each key. -/
def entriesOfMembers? : List (String × Value) → Option (List (String × Response))
  | [] => some []
  | (key, v) :: rest => do
    let r ← ofJson? v
    let entries ← entriesOfMembers? rest
    pure (Keyed.insertNew key r entries)

end

mutual

/-- What a response takes of a draft. -/
def select : Draft → Draft
  | .array (analysis :: chained :: rest) =>
    .array (Result.select analysis :: selectEntries chained :: rest)
  | .array [analysis] => .array [Result.select analysis]
  | .object members => .object (selectMembers members)
  | d => d

/-- What a response takes of the members of an object. -/
def selectMembers : List (Option String × Draft) → List (Option String × Draft)
  | [] => []
  | (none, d) :: rest => (none, d) :: selectMembers rest
  | (some name, d) :: rest =>
    if name = "analysis" then (some name, Result.select d) :: selectMembers rest
    else if name = "chained" then (some name, selectEntries d) :: selectMembers rest
    else selectMembers rest

/-- What responses under keys take of a draft. -/
def selectEntries : Draft → Draft
  | .object members => .object (selectEachMember members)
  | d => d

/-- What the responses under the keys of an object take. -/
def selectEachMember : List (Option String × Draft) → List (Option String × Draft)
  | [] => []
  | (key, d) :: rest => (key, select d) :: selectEachMember rest

end

/-- The response that a text holds. -/
def ofText? (s : String) : Option Response := (Json.Reader.readSelected? select s).bind ofJson?

end Response

namespace Merged

/-- The document of the answer for a task. -/
def toJson : Merged → Value
  | .single r => r.toJson
  | .keyed entries => .object (Response.entriesToJson entries)

/-- The answer for a task that a document holds. -/
def ofJson? (v : Value) : Option Merged :=
  ((Response.ofJson? v).map Merged.single).or ((Response.entriesOfJson? v).map Merged.keyed)

end Merged
end Inquiry
