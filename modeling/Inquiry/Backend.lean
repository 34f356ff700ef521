import Inquiry.Result.Basic

/-!
# Backend — what computes an analysis

A backend answers one request at a time: a specification, and for a follow-up the result of the
analysis before it. It answers with a result or with one of the errors below.
-/

namespace Inquiry

/-- Why a backend has no result. The time after which it timed out is in microseconds. -/
inductive BackendError where
  | unavailable (message : String)
  | rejected (status : Nat) (message : String)
  | invalidRequest (message : String)
  | invalidResponse (message : String)
  | timeout (microseconds : Nat)
  deriving DecidableEq, Repr

/-- The message for a call without result; times are told in whole milliseconds. -/
def BackendError.message : BackendError → String
  | .unavailable message => "Backend unavailable: " ++ message
  | .rejected status message =>
    "Backend rejected request (HTTP " ++ toString status ++ "): " ++ message
  | .invalidRequest message => "Invalid request: " ++ message
  | .invalidResponse message => "Invalid response: " ++ message
  | .timeout microseconds => "Backend timed out after " ++ toString (microseconds / 1000) ++ "ms"

/-- One request. -/
structure Request where
  spec : Spec
  context : Option Result
  deriving DecidableEq, Repr

end Inquiry
