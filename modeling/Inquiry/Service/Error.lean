import Inquiry.Config.Error
import Inquiry.Http.Message

/-!
# Service.Error — why a request is refused

A request is refused for its body, for the configuration in it, or for a fault of the service itself.
The response names the sort of error beside its message.
-/

namespace Inquiry
namespace Service

open Json (Value)

/-- Why the body of a request is not read. -/
inductive BodyError where
  /-- The request does not declare its body to be a JSON document. -/
  | notDeclared
  /-- The body is longer than the service allows. -/
  | tooLong
  /-- The body does not begin with a JSON document. -/
  | notJson
  deriving DecidableEq, Repr

/-- The message for a body that is not read. -/
def BodyError.message : BodyError → String
  | .notDeclared => "Expected request with `Content-Type: application/json`"
  | .tooLong => "Failed to buffer the request body: length limit exceeded"
  | .notJson => "Failed to parse the request body as JSON"

/-- Why a request is refused. -/
inductive RequestError where
  | invalidConfiguration (cause : ConfigError)
  | invalidRequest (message : String)
  | internal (message : String)
  deriving DecidableEq, Repr

namespace RequestError

/-- The word for the sort of an error. -/
def word : RequestError → String
  | .invalidConfiguration _ => "InvalidConfiguration"
  | .invalidRequest _ => "InvalidRequest"
  | .internal _ => "InternalError"

/-- The error of the configuration that lies behind an error. -/
def cause? : RequestError → Option ConfigError
  | .invalidConfiguration cause => some cause
  | _ => none

/-- What the response says about an error. -/
def message : RequestError → String
  | .invalidConfiguration cause => cause.message
  | .invalidRequest message => message
  | .internal message => message

/-- An error in one line. -/
def description : RequestError → String
  | .invalidConfiguration cause => "Invalid configuration: " ++ cause.message
  | .invalidRequest message => "Invalid request: " ++ message
  | .internal message => "Internal error: " ++ message

/-- The status of the response: the fault is in the request, unless it is in the service. -/
def status : RequestError → Nat
  | .internal _ => 500
  | _ => 400

/-- The response to a request that is refused. -/
def response (e : RequestError) : Http.Response :=
  .json e.status (.object [("error", .string e.word), ("message", .string e.message)])

end RequestError
end Service
end Inquiry
