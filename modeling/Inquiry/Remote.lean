import Inquiry.Backend
import Inquiry.Http.Message
import Inquiry.Json.Reader
import Inquiry.Result.Wire

/-!
# Remote — asking another service

A remote service computes analyses on request. It is sent the specification, and the result before it
if there is one, and replies with a result.

* `RemoteService.request` is what is sent.
* `RemoteService.accept` is what is made of the outcome of sending it: a result is taken from a reply
  that tells success, holds a result, and holds one of the kind that was asked for.
-/

namespace Inquiry

open Json (Value)

/-- A remote service: where it is, and how many seconds a request may take. -/
structure RemoteService where
  baseUrl : String := "http://127.0.0.1:8088"
  timeoutSeconds : Nat := 30
  deriving DecidableEq, Repr

/-- What comes of sending a request. -/
inductive Delivery where
  /-- The service cannot be reached. -/
  | unreachable (reason : String)
  /-- There is no reply in time. -/
  | timedOut
  /-- The service replies. -/
  | replied (status : Nat) (body : String)
  deriving DecidableEq, Repr

/-- The document that asks for an analysis: the members of its specification, and the result before it
if there is one. -/
def Request.toJson (r : Request) : Value :=
  .object (r.spec.jsonMembers ++ (r.context.map fun context => ("context", context.toJson)).toList)

namespace RemoteService

/-- A text without the slashes at its end. -/
def dropSlashes (s : String) : String :=
  String.ofList (s.toList.reverse.dropWhile (· == '/')).reverse

/-- Where analyses are asked for. -/
def analyzeUrl (s : RemoteService) : String := dropSlashes s.baseUrl ++ "/analyze"

/-- The message that asks for an analysis. -/
def request (s : RemoteService) (r : Request) : Http.Request where
  method := "POST"
  target := s.analyzeUrl
  headers := [("content-type", "application/json")]
  body := r.toJson.write

/-- What a result that is asked for one specification is taken for: it has to be of the kind that the
specification has. -/
def checkKind (spec : Spec) (r : Result) : Except BackendError Result :=
  if r.kind = spec.kind then .ok r
  else .error (.invalidResponse
    ("expected " ++ spec.kind.key ++ " result, got " ++ r.kind.key))

/-- The result that comes of sending a request. -/
def accept (s : RemoteService) (r : Request) : Delivery → Except BackendError Result
  | .unreachable reason => .error (.unavailable reason)
  | .timedOut => .error (.timeout (s.timeoutSeconds * 1000000))
  | .replied status body =>
    if Http.Response.isSuccess status then
      match Result.ofText? body with
      | some result => checkKind r.spec result
      | none => .error (.invalidResponse "the reply holds no result")
    else .error (.rejected status body)

end RemoteService
end Inquiry
