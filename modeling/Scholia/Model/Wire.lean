import Scholia.Json.Decode
import Scholia.Model.Endpoint
/-!
# Messages on the wire

Requests to a model and the events of its response, in both formats. A payload that is no event of
the format carries nothing and is passed over.
-/

namespace Scholia.Model

/-- A message of a conversation. -/
structure Message where
  role : Text
  content : Text
  deriving Repr, DecidableEq

namespace Message

def systemRole : Text := "system".toList

def system (content : Text) : Message := ⟨systemRole, content⟩

def user (content : Text) : Message := ⟨"user".toList, content⟩

def toJson (m : Message) : Json :=
  .object [("role".toList, .string m.role), ("content".toList, .string m.content)]

end Message

/-- Settings of a request that may be left to the service. -/
structure Options where
  temperature : Option Float
  maxTokens : Option Nat
  deriving Repr

/-- A piece of a reply. -/
structure Chunk where
  content : Option Text
  finishReason : Option Text
  deriving Repr, DecidableEq

namespace Wire

/-- A field that is written if it has a value. -/
def optionalField {α : Type} (name : String) (f : α → Json) (value : Option α) :
    List (Text × Json) :=
  (value.map fun a => (name.toList, f a)).toList

/-- A request in the first format: all messages in their order. -/
def openAiBody (model : Text) (messages : List Message) (options : Options) : Json :=
  .object
    ([("model".toList, .string model),
      ("messages".toList, .array (messages.map Message.toJson)),
      ("stream".toList, .bool true)]
    ++ optionalField "temperature" Json.ofFloat options.temperature
    ++ optionalField "max_tokens" Json.ofNat options.maxTokens)

/-- The most tokens of a reply, where the format demands a number and none is given. -/
def defaultMaxTokens : Nat := 4096

/-- A request in the second format: the last message of the system stands apart. -/
def anthropicBody (model : Text) (messages : List Message) (options : Options) : Json :=
  let (system, others) := messages.partition (·.role == Message.systemRole)
  .object
    ([("model".toList, .string model),
      ("messages".toList, .array (others.map Message.toJson))]
    ++ optionalField "system" (fun m => .string m.content) system.getLast?
    ++ [("stream".toList, .bool true),
      ("max_tokens".toList, .ofNat (options.maxTokens.getD defaultMaxTokens))]
    ++ optionalField "temperature" Json.ofFloat options.temperature)

/-- The body of a request. -/
def body : Format → Text → List Message → Options → Json
  | .openAi => openAiBody
  | .anthropic => anthropicBody

open Json (Record asList asOption asText)

/-- A change in the first format: its content. -/
def openAiDelta : Record (Option Text) := .optional "content" asText

def openAiChoice : Record Chunk :=
  Chunk.mk <$> .required "delta" openAiDelta.read <*> .optional "finish_reason" asText

def openAiEvent : Record (List Chunk) := .required "choices" (asList openAiChoice.read)

/-- An event of the first format: its first choice counts. -/
def openAiChunk? (payload : Text) : Option Chunk := do
  (← Json.read? openAiEvent.read payload).head?

/-- A change in the second format. -/
structure Delta where
  kind : Option Text
  text : Option Text
  stopReason : Option Text
  deriving Repr, DecidableEq

def Delta.record : Record Delta :=
  Delta.mk <$> .optional "type" asText <*> .optional "text" asText
    <*> .optional "stop_reason" asText

/-- What an event of the second format carries. -/
def chunkOfEvent? (kind : Text) (delta : Option Delta) : Option Chunk :=
  if kind = "content_block_delta".toList then do
    let d ← delta
    guard (d.kind = some "text_delta".toList)
    return ⟨some (← d.text), none⟩
  else if kind = "message_delta".toList then do
    return ⟨none, some (← (← delta).stopReason)⟩
  else if kind = "message_stop".toList then some ⟨none, some "stop".toList⟩
  else none

/-- The kind and the change of an event of the second format. -/
def anthropicEvent : Record (Text × Option Delta) :=
  Prod.mk <$> .required "type" asText <*> .withDefault "delta" (asOption Delta.record.read) none

/-- An event of the second format. -/
def anthropicChunk? (payload : Text) : Option Chunk := do
  let (kind, delta) ← Json.read? anthropicEvent.read payload
  chunkOfEvent? kind delta

/-- What a payload carries. -/
def chunk? : Format → Text → Option Chunk
  | .openAi => openAiChunk?
  | .anthropic => anthropicChunk?

/-- The payload that ends a response. -/
def endMark : Text := "[DONE]".toList

/-- What payloads carry up to the end mark, and whether it is among them. -/
def chunks (format : Format) : List Text → List Chunk × Bool
  | [] => ([], false)
  | payload :: rest =>
    if payload = endMark then ([], true)
    else
      let (later, ended) := chunks format rest
      ((chunk? format payload).toList ++ later, ended)

end Wire

end Scholia.Model
