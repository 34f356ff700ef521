import Inquiry.Config.Catalogue
import Inquiry.Run.Script
import Inquiry.Service.Process
import Inquiry.Service.Settings

/-!
# Service.Router — which request gets which answer

The service knows three paths: its health, the analyses that it offers, and the processing of a
configuration. Every response may be read from pages of any origin, and a browser that asks beforehand
what it may send gets leave for every method.

* `Route.ofPath?` and `Route.methods` are the table of routes.
* `State.respond` answers a request.
-/

namespace Inquiry
namespace Service

open Json (Value)

/-- The paths that the service knows. -/
inductive Route where
  | health
  | analyses
  | process
  deriving DecidableEq, Repr

namespace Route

/-- The route of a path. -/
def ofPath? (path : String) : Option Route :=
  if path = "/health" then some .health
  else if path = "/analyses" then some .analyses
  else if path = "/process" then some .process
  else none

/-- The methods of a route. What can be got can also be asked for without its body. -/
def methods : Route → List String
  | .health => ["GET", "HEAD"]
  | .analyses => ["GET", "HEAD"]
  | .process => ["POST"]

/-- The methods of a route as a header lists them. -/
def allow (r : Route) : String := ",".intercalate r.methods

end Route

/-- What a service works with: the name of its backend, the backend, and the limits of runs. -/
structure State where
  backendName : String
  backend : Run.Backend
  limits : Run.Limits

/-- A service that asks a corpus in memory. -/
def State.ofCorpus (corpus : Corpus) (limits : Run.Limits) : State :=
  let settings : Settings := { limits }
  ⟨settings.backendName, .ofCorpus corpus, settings.limits⟩

/-- The document that says that a service is there. -/
def healthDocument (backendName : String) : Value :=
  .object [("status", .string "ok"), ("backend", .string backendName)]

/-- The document that lists the analyses on offer. -/
def analysesDocument : Value :=
  .object [("analyses", .array (Kind.all.map Kind.describe))]

namespace State

/-- Runs the configuration in a request. -/
def process (s : State) (stamp : RunStamp) (r : Http.Request) : Except RequestError ProcessReport :=
  (readGraph r).map fun graph => ⟨stamp, Run.Setup.complete ⟨graph, s.backend, s.limits⟩⟩

/-- The response of a route to a request with one of its methods. -/
def serve (s : State) (stamp : RunStamp) (r : Http.Request) : Route → Http.Response
  | .health => .json 200 (healthDocument s.backendName)
  | .analyses => .json 200 analysesDocument
  | .process =>
    match s.process stamp r with
    | .ok report => .json 200 report.toJson
    | .error e => e.response

/-- The response to a request, without regard to where it comes from. -/
def answer (s : State) (stamp : RunStamp) (r : Http.Request) : Http.Response :=
  match Route.ofPath? r.path with
  | none => .empty 404
  | some route =>
    if route.methods.contains r.method then
      let response := s.serve stamp r route
      -- Without its body the response keeps the headers that describe it.
      if r.method = "HEAD" then response.withoutBody else response
    else (Http.Response.empty 405).withHeader "allow" route.allow

/-- The response to a browser that asks what it may send. -/
def preflight (r : Http.Request) : Http.Response :=
  let response := (Http.Response.empty 200).withHeader "access-control-allow-methods" "*"
  match Route.ofPath? r.path with
  | none => response
  | some route => response.withHeader "allow" route.allow

/-- The response to a request. -/
def respond (s : State) (stamp : RunStamp) (r : Http.Request) : Http.Response :=
  let response := if r.method = "OPTIONS" then preflight r else s.answer stamp r
  response.withHeader "access-control-allow-origin" "*"

end State
end Service
end Inquiry
