import Scholia.Model.Wire
import Scholia.Program
import Scholia.Text.Blank
import Scholia.Text.Utf8
import Scholia.Url
/-!
# Model clients

A client knows where its model is and how to ask it. Asking takes one exchange over the network; the
response arrives in parts, and what it carries up to its end or the first failure is the reply.

A part of a stream of events can end inside a line: the text after the last line feed waits for the
next part. Of the complete lines only those that begin with `data:` count. Each part is decoded by
itself.
-/

namespace Scholia.Model.EventStream

/-- What a line carries. -/
def payload? (line : Text) : Option Text :=
  (Text.dropLead? "data:".toList (Text.trim line)).map Text.trimStart

/-- What complete lines carry, and the text after them. -/
def take (text : Text) : List Text × Text :=
  let parts := Text.splitWhere (· == '\n') text
  (parts.dropLast.filterMap payload?, parts.getLastD [])

/-- What the lines carry that a part completes, after the text `pending`; and the text that is
pending then. -/
def push (pending : Text) (bytes : List UInt8) : List Text × Text :=
  take (pending ++ Text.Utf8.decodeLenient bytes)

/-- What each part completes. -/
def pushes : Text → List (List UInt8) → List (List Text)
  | _, [] => []
  | pending, bytes :: rest =>
    let (payloads, pending) := push pending bytes
    payloads :: pushes pending rest

end Scholia.Model.EventStream

namespace Scholia.Model

/-- A request over the network. -/
structure Request where
  url : Url
  headers : List (Text × Text)
  body : Json
  deriving Repr

/-- A response, as far as it has arrived. -/
structure Response where
  status : Nat
  /-- The parts of the body, in the order of their arrival. -/
  parts : List (List UInt8)
  /-- Why the body ends before it is complete, if it does. -/
  broken : Option Text
  deriving Repr, DecidableEq

/-- The network: a request is answered by a response, or by the reason why there is none. -/
abbrev network : Interface := ⟨Request, fun _ => Except Text Response⟩

/-- What a response carries, and why it carries no more. -/
structure Stream where
  chunks : List Chunk
  fault : Option Fault
  deriving Repr, DecidableEq

namespace Stream

/-- The content of all chunks together. -/
def content (s : Stream) : Text :=
  s.chunks.flatMap (·.content.getD [])

/-- The whole reply: no failure on the way, and some content. -/
def collect (s : Stream) : Except Fault Text :=
  match s.fault with
  | some fault => .error fault
  | none =>
    if s.content.isEmpty then .error (.stream "empty response".toList) else .ok s.content

/-- What the parts of a body carry up to the end mark, and whether it is there. -/
def ofParts (format : Format) : Text → List (List UInt8) → List Chunk × Bool
  | _, [] => ([], false)
  | pending, bytes :: rest =>
    let (payloads, pending) := EventStream.push pending bytes
    match Wire.chunks format payloads with
    | (chunks, true) => (chunks, true)
    | (chunks, false) =>
      let (later, ended) := ofParts format pending rest
      (chunks ++ later, ended)

/-- The text of a whole body; nothing of a body that is not complete. -/
def bodyText (r : Response) : Text :=
  if r.broken.isSome then [] else Text.Utf8.decodeLenient r.parts.flatten

def isSuccess (status : Nat) : Bool := 200 ≤ status && status < 300

/-- What a response carries. -/
def ofResponse (format : Format) (r : Response) : Stream :=
  if !isSuccess r.status then ⟨[], some (.ofStatus r.status (bodyText r))⟩
  else
    match ofParts format [] r.parts with
    | (chunks, true) => ⟨chunks, none⟩
    | (chunks, false) => ⟨chunks, r.broken.map .transport⟩

end Stream

/-- A client of a model. -/
structure Client where
  key : Text
  endpoint : Endpoint
  model : Text
  options : Options
  deriving Repr

namespace Client

/-- A client with a key, for a model under a base address. -/
def create (key baseUrl model : Text) : Except Fault Client :=
  if key.isEmpty then .error (.configuration "API Key is required".toList)
  else do
    return { key, endpoint := ← Endpoint.resolve baseUrl model, model, options := ⟨none, none⟩ }

def withOptions (c : Client) (options : Options) : Client := { c with options }

/-- The headers of a request. -/
def headers (c : Client) : List (Text × Text) :=
  let common :=
    [("authorization".toList, "Bearer ".toList ++ c.key),
     ("content-type".toList, "application/json".toList)]
  match c.endpoint.format with
  | .openAi => common
  | .anthropic =>
    common ++ [("x-api-key".toList, c.key), ("anthropic-version".toList, "2023-06-01".toList)]

/-- The request that sends messages to an address. -/
def request (c : Client) (url : Url) (messages : List Message) : Request :=
  ⟨url, c.headers, Wire.body c.endpoint.format c.model messages c.options⟩

/-- Whether a character can stand in a header. -/
def isHeaderChar (ch : Char) : Bool :=
  ch == '\t' || (0x20 ≤ ch.toNat && ch.toNat != 0x7F)

/-- The address that requests go to, or why none can be made. A key has to stand in a header. -/
def target (c : Client) : Except Text Url :=
  if !c.key.all isHeaderChar then .error "builder error".toList
  else
    match Url.ofText? c.endpoint.url with
    | none => .error "builder error".toList
    | some url =>
      if url.isUsable then .ok url
      else .error ("builder error for url (".toList ++ url.render ++ [')'])

/-- What the response to messages carries. -/
def stream (c : Client) (messages : List Message) : Program network Stream :=
  match c.target with
  | .error reason => return ⟨[], some (.transport reason)⟩
  | .ok url => do
    match ← Program.perform (I := network) (c.request url messages) with
    | .error reason => return ⟨[], some (.transport reason)⟩
    | .ok response => return .ofResponse c.endpoint.format response

/-- What the model is told first. -/
def systemPrompt : Text :=
  "You are a professional coding and documentation assistant.".toList

/-- The reply to a prompt. -/
def chat (c : Client) (prompt : Text) : Program network (Except Fault Text) := do
  return (← c.stream [.system systemPrompt, .user prompt]).collect

end Client

end Scholia.Model
