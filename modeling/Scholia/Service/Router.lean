import Scholia.Service.Configuration
import Scholia.Service.Generation
/-!
# Routes

Which request is answered how. A path that is not known is answered with the status 404, a method
that its path does not take with 405, and a body that cannot be read with the status of that
failure.
-/

namespace Scholia.Service

/-- What can be asked of the service. -/
inductive Route where
  | health
  | showSettings
  | changeSettings
  | reloadSettings
  | tryConnection
  | generate
  deriving Repr, DecidableEq

/-- The routes of a path, each with its method. -/
def routes (path : Text) : List (Text × Route) :=
  if path = "/api/health".toList then [("GET".toList, .health)]
  else if path = "/api/config".toList then
    [("GET".toList, .showSettings), ("PUT".toList, .changeSettings)]
  else if path = "/api/config/reload".toList then [("POST".toList, .reloadSettings)]
  else if path = "/api/config/test".toList then [("POST".toList, .tryConnection)]
  else if path = "/api/docs/generate".toList then [("POST".toList, .generate)]
  else []

/-- The path of a target, without its query and its fragment. A target with a scheme names a server
before the path, and one with neither slash nor scheme has no path. -/
def pathOf (target : Text) : Text :=
  let place := target.takeWhile fun c => c != '?' && c != '#'
  if place.head? = some '/' then place
  else
    match Text.cutAt? "://".toList place with
    | some (_, rest) =>
      let path := rest.dropWhile (· != '/')
      if path.isEmpty then ['/'] else path
    | none => []

/-- Whether a method asks for the head of an answer only. -/
def isHead (method : Text) : Bool := method == "HEAD".toList

/-- The method whose route answers a method. -/
def routeMethod (method : Text) : Text :=
  if isHead method then "GET".toList else method

/-- The route of a request, or the status that says there is none. -/
def route (r : Request) : Except Nat Route :=
  let routes := routes (pathOf r.target)
  match routes.find? (·.1 == routeMethod r.method) with
  | some (_, route) => .ok route
  | none => .error (if routes.isEmpty then 404 else 405)

/-- The answer that tells that the service is up. -/
def health : Response :=
  .ok (.object
    [("status".toList, .string "ok".toList), ("version".toList, .string "1.0.0".toList)])

/-- The answer to a request for a route, with settings kept in that file. -/
def answer (file : Path) (s : State) (r : Request) : Route → Action (Response × State)
  | .health => return (health, s)
  | .showSettings => return (.ok s.settings.shown, s)
  | .changeSettings =>
    match Body.read Update.record r with
    | .error status => return (.bare status, s)
    | .ok update => do
      let (result, s) ← updateSettings file update s
      return (answerUpdate result, s)
  | .reloadSettings => do
    let s ← reloadSettings file s
    return (.ok s.settings.shown, s)
  | .tryConnection =>
    match Body.read Trial.record r with
    | .error status => return (.bare status, s)
    | .ok trial => return (← trial.run s.settings, s)
  | .generate =>
    match Body.read Generation.record r with
    | .error status => return (.bare status, s)
    | .ok generation => generation.run s

/-- The answer to a request, with settings kept in that file. -/
def handle (file : Path) (s : State) (r : Request) : Action (Response × State) := do
  match route r with
  | .error status => return (.bare status, s)
  | .ok route =>
    let (response, s) ← answer file s r route
    return (if isHead r.method then .bare response.status else response, s)

end Scholia.Service
