import Inquiry.Analysis.Wire
import Inquiry.Config.Fields

/-!
# Config.Catalogue — the kinds of analyses as documents

What a caller is told about a kind of analysis: the word for it, what it computes, and its parameters.
-/

namespace Inquiry

open Json (Value)

/-- The document of a parameter. -/
def Field.toJson (f : Field) : Value :=
  .object [("name", .string f.name), ("type", .string f.type), ("description", .string f.description)]

/-- The members of the document that describes a kind. -/
def Kind.describingMembers (k : Kind) : List (String × Value) :=
  [("type", k.toJson), ("description", .string k.description),
    ("parameters", .array (k.fields.map Field.toJson))]

/-- The document that describes a kind. -/
def Kind.describe (k : Kind) : Value := .object k.describingMembers

end Inquiry
