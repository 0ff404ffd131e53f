import Scholia.Batch.Request
import Scholia.Json.Decode
import Scholia.Json.Render
import Scholia.Model.Client
/-!
# Settings

What can be configured: the model and how it is reached, and the limits of a batch. Settings are
kept as a JSON text, in which a field may be missing and then has its standard value.
-/

namespace Scholia

structure Settings where
  apiKey : Text
  baseUrl : Text
  model : Text
  temperature : Float
  maxTokens : Nat
  concurrency : Nat
  maxRetries : Nat
  lineThreshold : Nat
  outputFolderName : Text
  deriving Repr

namespace Settings

def standard : Settings where
  apiKey := []
  baseUrl := "https://api.openai.com".toList
  model := "gpt-4o".toList
  temperature := 0.2
  maxTokens := 8192
  concurrency := 5
  maxRetries := 2
  lineThreshold := 300
  outputFolderName := ".docs".toList

open Json (Reader Record asFloat asNat asText)

/-- The fields of settings in their order; each has its standard value as default. -/
def record : Record Settings :=
  Settings.mk <$> .withDefault "api_key" asText standard.apiKey
    <*> .withDefault "base_url" asText standard.baseUrl
    <*> .withDefault "model" asText standard.model
    <*> .withDefault "temperature" asFloat standard.temperature
    <*> .withDefault "max_tokens" (asNat Json.maxHalfWord) standard.maxTokens
    <*> .withDefault "concurrency" (asNat Json.maxWord) standard.concurrency
    <*> .withDefault "max_retries" (asNat Json.maxWord) standard.maxRetries
    <*> .withDefault "line_threshold" (asNat Json.maxWord) standard.lineThreshold
    <*> .withDefault "output_dir_name" asText standard.outputFolderName

/-- Settings of which fields may be missing. -/
def asSettings : Reader Settings := record.read

/-- The settings that a text writes. -/
def parse? (text : Text) : Option Settings := Json.read? asSettings text

/-- All fields but the first. -/
def openFields (s : Settings) : List (Text × Json) :=
  [("base_url".toList, .string s.baseUrl),
   ("model".toList, .string s.model),
   ("temperature".toList, .ofFloat s.temperature),
   ("max_tokens".toList, .ofNat s.maxTokens),
   ("concurrency".toList, .ofNat s.concurrency),
   ("max_retries".toList, .ofNat s.maxRetries),
   ("line_threshold".toList, .ofNat s.lineThreshold),
   ("output_dir_name".toList, .string s.outputFolderName)]

def toJson (s : Settings) : Json :=
  .object (("api_key".toList, .string s.apiKey) :: s.openFields)

/-- The text in which settings are kept. -/
def render (s : Settings) : Text := s.toJson.pretty

/-- The settings as they are shown: of the key only whether there is one. -/
def shown (s : Settings) : Json :=
  .object (("api_key_set".toList, .bool !s.apiKey.isEmpty) :: s.openFields)

/-- The limits of a batch under these settings. -/
def limits (s : Settings) : Batch.Limits :=
  Batch.Limits.clamped ⟨s.concurrency, s.maxRetries, s.lineThreshold⟩

/-- The client that settings describe. -/
def client (s : Settings) : Except Model.Fault Model.Client := do
  let client ← Model.Client.create s.apiKey s.baseUrl s.model
  return client.withOptions ⟨some s.temperature, some s.maxTokens⟩

end Settings

end Scholia
