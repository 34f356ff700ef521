import Inquiry.Http.MediaType
import Inquiry.Json.Writer

/-!
# Http.Message — requests and responses

Messages without their transport. The names of headers are compared without regard to the case of
ASCII letters.
-/

namespace Inquiry
namespace Http

open Json (Value)

/-- Headers in the order in which they were sent. -/
abbrev Headers := List (String × String)

/-- The value of the first header of a name. -/
def Headers.first? (name : String) (headers : Headers) : Option String :=
  headers.findSome? fun (n, value) => if Text.equalsIgnoringCase n name then some value else none

/-- A request. -/
structure Request where
  method : String
  target : String
  headers : Headers
  body : String
  deriving DecidableEq, Repr

namespace Request

/-- The characters of the name of a scheme. -/
def isSchemeChar (c : Char) : Bool :=
  c.isAlphanum || "+-.~".toList.contains c

/-- Whether a character ends the part of a target in front of it, be it the authority or the path. -/
def endsAuthority (c : Char) : Bool :=
  c == '/' || c == '?' || c == '#'

/-- What an absolute target such as `http://service/health` asks of its authority: all behind the
authority. A target of any other form has no scheme in front. -/
def withinAuthority? (target : List Char) : Option (List Char) :=
  match target.dropWhile isSchemeChar with
  | ':' :: '/' :: '/' :: rest => some (rest.dropWhile fun c => !endsAuthority c)
  | _ => none

/-- The path of a target: what stands in front of a query and of a fragment. -/
def pathOfTarget (target : List Char) : List Char :=
  match withinAuthority? target with
  | none => pathPart target
  | some rest => if (pathPart rest).isEmpty then ['/'] else pathPart rest
where
  pathPart (cs : List Char) : List Char := cs.takeWhile fun c => c != '?' && c != '#'

/-- The path of a request. An absolute target that stops at its authority asks for the root. -/
def path (r : Request) : String :=
  .ofList (pathOfTarget r.target.toList)

/-- Whether a request declares its body to be a JSON document. -/
def declaresJson (r : Request) : Bool :=
  ((r.headers.first? "content-type").bind MediaType.ofText?).any MediaType.isJson

end Request

/-- A response. -/
structure Response where
  status : Nat
  headers : Headers
  body : String
  deriving DecidableEq, Repr

namespace Response

/-- A response without a body. -/
def empty (status : Nat) : Response := ⟨status, [], ""⟩

/-- A response with a document as its body. -/
def json (status : Nat) (document : Value) : Response :=
  ⟨status, [("content-type", "application/json")], document.write⟩

/-- A response with one header more. -/
def withHeader (r : Response) (name value : String) : Response :=
  { r with headers := r.headers ++ [(name, value)] }

/-- A response without its body; the headers still describe it. -/
def withoutBody (r : Response) : Response := { r with body := "" }

/-- Whether a status tells success. -/
def isSuccess (status : Nat) : Bool := 200 ≤ status && status < 300

end Response
end Http
end Inquiry
