import Inquiry.Json.Writer

/-!
# Json.Path — values inside a document

A path names a value inside a document: the names of members, separated by points, from the outermost
object inwards. Arrays have no members.

* `Value.lookup?` follows a path.
* `Value.scalarText?` is the text of a string, a number or a truth value.
-/

namespace Inquiry
namespace Json

/-- The parts of a text between points; there is one more of them than there are points. -/
def pathSegments : List Char → List (List Char)
  | [] => [[]]
  | c :: cs =>
    if c = '.' then [] :: pathSegments cs
    else
      match pathSegments cs with
      | [] => [[c]]
      | segment :: rest => (c :: segment) :: rest

namespace Value

/-- The value that a list of names leads to. -/
def follow? (v : Value) : List String → Option Value
  | [] => some v
  | name :: rest => (v.member? name).bind (·.follow? rest)

/-- The value at a path. -/
def lookup? (v : Value) (path : String) : Option Value :=
  v.follow? ((pathSegments path.toList).map String.ofList)

/-- The text of a value that is neither null nor a container. -/
def scalarText? : Value → Option String
  | .string s => some s
  | .number n => some n.text
  | .bool b => some (if b then "true" else "false")
  | _ => none

end Value
end Json
end Inquiry
