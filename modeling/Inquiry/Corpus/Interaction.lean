import Inquiry.Calendar.Timestamp
import Inquiry.Json.Decode
import Inquiry.Json.Path
import Inquiry.Json.Reader

/-!
# Corpus.Interaction — what is counted

An interaction is one piece of content: when it was created, by whom, and a document of further
fields. Two interactions have the same author if the texts that identify their authors are the same.
-/

namespace Inquiry

open Json (Draft Value)
open Json.Decode

/-- One piece of content. -/
structure Interaction where
  createdAt : Calendar.Instant
  author : String
  fields : Value

namespace Interaction

/-- The text of the scalar at a path. -/
def fieldText? (i : Interaction) (path : String) : Option String :=
  (i.fields.lookup? path).bind Value.scalarText?

/-- The document of an interaction. -/
def toJson (i : Interaction) : Value :=
  .object [("created_at", .string i.createdAt.text), ("author_id", .string i.author),
    ("fields", i.fields)]

/-- The interaction that a document holds. -/
def ofJson? (v : Value) : Option Interaction :=
  match recordFields ["created_at", "author_id", "fields"] v with
  | some [some createdAt, some author, some fields] => do
    pure ⟨← createdAt.text?.bind Calendar.Instant.read?, ← author.text?, fields.canonical⟩
  | _ => none

/-- What an interaction takes of a draft. -/
def select : Draft → Draft :=
  Draft.select [("created_at", id), ("author_id", id), ("fields", id)]

/-- The interaction that a text holds. -/
def ofText? (s : String) : Option Interaction := (Json.Reader.readSelected? select s).bind ofJson?

end Interaction
end Inquiry
