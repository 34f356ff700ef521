import Inquiry.Run.State

/-!
# Service.Settings — how a service is set up

Where the service listens, the limits of its runs, and what computes its analyses: a remote service if
one is named, and else the sample corpus in memory.
-/

namespace Inquiry
namespace Service

/-- The settings of a service. -/
structure Settings where
  host : String := "127.0.0.1"
  portNumber : UInt16 := 3000
  backendUrl : Option String := none
  limits : Run.Limits := {}
  deriving DecidableEq, Repr

/-- The name of what computes the analyses. -/
def Settings.backendName (s : Settings) : String :=
  if s.backendUrl.isSome then "http" else "in-memory"

end Service
end Inquiry
