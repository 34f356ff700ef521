import Inquiry.Filter.Syntax
import Inquiry.Json.Path
import Inquiry.Text.LowerCase

/-!
# Filter.Match — which documents a filter admits

A document satisfies `exists` if the value at the path is there and not null, `==` if the value is a
scalar with exactly that text, and `contains` if the text is part of the text of the value, or of one
inside it if it is an array, in lower case.
-/

namespace Inquiry

namespace Text

/-- Whether the characters of `needle` follow one another somewhere in a list. -/
def occursIn (needle : List Char) : List Char → Bool
  | [] => needle.isEmpty
  | c :: cs => needle.isPrefixOf (c :: cs) || occursIn needle cs

end Text

open Json (Value)

mutual

/-- Whether a value, or a value inside an array, has a text that contains another in lower case. -/
def Filter.valueContains (needle : String) : Value → Bool
  | .array items => Filter.anyContains needle items
  | v =>
    match v.scalarText? with
    | some text => Text.occursIn needle.toList (Text.lower text).toList
    | none => false

/-- Whether one of the values of an array contains a text. -/
def Filter.anyContains (needle : String) : List Value → Bool
  | [] => false
  | v :: rest => Filter.valueContains needle v || Filter.anyContains needle rest

end

/-- Whether a document satisfies a clause. -/
def Clause.holds (doc : Value) : Clause → Bool
  | .present path =>
    match doc.lookup? path with
    | some v => !v.isNull
    | none => false
  | .contains path needle =>
    match doc.lookup? path with
    | some v => Filter.valueContains needle v
    | none => false
  | .equals path text => (doc.lookup? path).bind Value.scalarText? == some text

/-- Whether a document satisfies every clause of a filter. -/
def Filter.admits (f : Filter) (doc : Value) : Bool :=
  f.clauses.all (·.holds doc)

end Inquiry
