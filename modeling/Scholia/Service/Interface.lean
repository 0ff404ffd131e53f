import Scholia.Batch.Run
import Scholia.Json.Basic
import Scholia.Model.Client
import Scholia.Model.Fault
import Scholia.Scan.Walk
import Scholia.Service.ContentType
import Scholia.Settings
/-!
# The service and its surroundings

What comes in, what goes out, what is remembered between requests, and the calls that an answer
takes: those of a batch, with the model reached over the network. Why a request fails, and how that
is answered.

The body of a request has to be given as JSON, to be of a limited size, and to begin with the value
that the route takes; each failure has a status of its own. Nothing is asked of what follows that
value.
-/

namespace Scholia.Service

/-- Why a request fails. -/
inductive Fault where
  | settings (message : Text)
  | model (message : Text)
  | badRequest (message : Text)
  deriving Repr, DecidableEq

namespace Fault

/-- A model that cannot be set up is the fault of the request. -/
def ofModel : Model.Fault → Fault
  | .configuration message => badRequest message
  | fault => model fault.message

def ofScan (fault : Scan.Fault) : Fault := badRequest fault.message

/-- What has happened. -/
def message : Fault → Text
  | settings message | model message | badRequest message => message

/-- What has happened, and where. -/
def display : Fault → Text
  | settings message => "configuration error: ".toList ++ message
  | model message => "model error: ".toList ++ message
  | badRequest message => "bad request: ".toList ++ message

/-- The status of the answer. -/
def status : Fault → Nat
  | settings _ => 500
  | model _ => 502
  | badRequest _ => 400

/-- The body of the answer. -/
def body (f : Fault) : Json :=
  .object [("success".toList, .bool false), ("error".toList, .string f.message)]

end Fault

/-- A request to the service. -/
structure Request where
  method : Text
  /-- What is asked for: a path, perhaps with a server before it and a query or a fragment after
  it. -/
  target : Text
  contentType : Option Text
  body : Text
  deriving Repr, DecidableEq

/-- An answer of the service; a body that is not JSON is left out. -/
structure Response where
  status : Nat
  body : Option Json
  deriving Repr

namespace Response

def ok (body : Json) : Response := ⟨200, some body⟩

/-- An answer without a body. -/
def bare (status : Nat) : Response := ⟨status, none⟩

def ofFault (f : Fault) : Response := ⟨f.status, some f.body⟩

end Response

/-- What the service remembers. -/
structure State where
  settings : Settings
  collector : Batch.Collector
  deriving Repr

/-- The calls of the service. -/
inductive Call where
  | exchange (request : Model.Request)
  | storage (call : Storage.Call)
  | time
  | announce (file : Text) (stage : Batch.Stage)
  deriving Repr

abbrev Call.Answer : Call → Type
  | exchange _ => Except Text Model.Response
  | storage call => call.Answer
  | time => Text
  | announce _ _ => Unit

/-- The calls of the service as an interface. -/
abbrev interface : Interface := ⟨Call, Call.Answer⟩

/-- A program with the calls of the service. -/
abbrev Action (α : Type) : Type := Program interface α

/-- One call on storage. -/
def storage (call : Storage.Call) : Action call.Answer :=
  Program.perform (I := interface) (.storage call)

/-- A program of the network as one of the service. -/
def overNetwork {α : Type} (p : Program Model.network α) : Action α :=
  p.interpret fun request => Program.perform (I := interface) (.exchange request)

/-- The answer to a call of a batch, when this client asks the model. -/
def answerBatch (client : Model.Client) : (c : Batch.Call) → Action c.Answer
  | .ask prompt => overNetwork (client.chat prompt)
  | .storage call => storage call
  | .time => Program.perform (I := interface) .time
  | .announce file stage => Program.perform (I := interface) (.announce file stage)

/-- A program of a batch as one of the service. -/
def withClient {α : Type} (client : Model.Client) (job : Batch.Job α) : Action α :=
  job.interpret (answerBatch client)

end Scholia.Service

namespace Scholia.Service.Body

open Json (Record)

/-- The status for a body that is not given as JSON. -/
def notJson : Nat := 415

/-- The status for a body that is too large. -/
def tooLarge : Nat := 413

/-- The status for a body with a flaw. -/
def statusOf : Json.Flaw → Nat
  | .malformed => 400
  | .misfit => 422

/-- The most bytes that a body may have. -/
def maxSize : Nat := 2 * 1024 * 1024

/-- The structure that a body writes, or the status of the answer. -/
def read {α : Type} (record : Record α) (r : Request) : Except Nat α :=
  if !r.contentType.any ContentType.isJson then .error notJson
  else if Text.width r.body > maxSize then .error tooLarge
  else (record.read (Json.front r.body).1).mapError statusOf

end Scholia.Service.Body
