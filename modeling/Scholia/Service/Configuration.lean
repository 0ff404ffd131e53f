import Scholia.Service.Interface
/-!
# Requests about settings

Settings are shown, changed, read again from the file in which they are kept, and tried out on the
model. A change is made in memory and then kept; if it cannot be kept, the request fails.
-/

namespace Scholia.Service

open Json (Record asFloat asNat asText)

/-- New values of settings, as far as they are given. -/
structure Update where
  apiKey : Option Text
  baseUrl : Option Text
  model : Option Text
  temperature : Option Float
  maxTokens : Option Nat
  concurrency : Option Nat
  maxRetries : Option Nat
  lineThreshold : Option Nat
  outputFolderName : Option Text
  deriving Repr

/-- A temperature between 0 and 2. -/
def clampTemperature (t : Float) : Float :=
  if t < 0.0 then 0.0 else if t > 2.0 then 2.0 else t

namespace Update

/-- The fields of an update in their order. -/
def record : Record Update :=
  Update.mk <$> .optional "api_key" asText
    <*> .optional "base_url" asText
    <*> .optional "model" asText
    <*> .optional "temperature" asFloat
    <*> .optional "max_tokens" (asNat Json.maxHalfWord)
    <*> .optional "concurrency" (asNat Json.maxWord)
    <*> .optional "max_retries" (asNat Json.maxWord)
    <*> .optional "line_threshold" (asNat Json.maxWord)
    <*> .optional "output_dir_name" asText

/-- Settings with their new values. -/
def apply (u : Update) (s : Settings) : Settings where
  apiKey := u.apiKey.getD s.apiKey
  baseUrl := u.baseUrl.getD s.baseUrl
  model := u.model.getD s.model
  temperature := (u.temperature.map clampTemperature).getD s.temperature
  maxTokens := u.maxTokens.getD s.maxTokens
  concurrency := (u.concurrency.map fun n => max 1 (min n 10)).getD s.concurrency
  maxRetries := u.maxRetries.getD s.maxRetries
  lineThreshold := u.lineThreshold.getD s.lineThreshold
  outputFolderName := u.outputFolderName.getD s.outputFolderName

end Update

/-- The settings that are kept in a file, if they can be read. -/
def loadSettings (file : Path) : Action (Option Settings) := do
  match ← storage (.read file) with
  | .ok text => return Settings.parse? text
  | .error _ => return none

/-- The state in which the service starts: with the settings that are kept, or the standard ones. -/
def start (file : Path) : Action State := do
  return ⟨(← loadSettings file).getD .standard, .empty⟩

/-- Settings are kept in a file. -/
def saveSettings (file : Path) (s : Settings) : Action (Except Fault Unit) := do
  match ← storage (.write file (.text s.render)) with
  | .ok () => return .ok ()
  | .error reason =>
    return .error (.settings ("failed to write config file: ".toList ++ reason))

/-- Settings are changed. -/
def updateSettings (file : Path) (u : Update) (s : State) : Action (Except Fault Unit × State) := do
  let s := { s with settings := u.apply s.settings }
  return (← saveSettings file s.settings, s)

/-- Settings are read again; what cannot be read changes nothing. -/
def reloadSettings (file : Path) (s : State) : Action State := do
  return { s with settings := (← loadSettings file).getD s.settings }

/-- The answer to a change of settings. -/
def answerUpdate : Except Fault Unit → Response
  | .ok () =>
    .ok (.object
      [("success".toList, .bool true),
       ("message".toList, .string "Config updated successfully".toList)])
  | .error fault => .ofFault fault

/-- What a connection is tried with; what is not given is taken from the settings. -/
structure Trial where
  apiKey : Option Text
  baseUrl : Option Text
  model : Option Text
  deriving Repr, DecidableEq

namespace Trial

/-- The fields of a trial in their order. -/
def record : Record Trial :=
  Trial.mk <$> .optional "api_key" asText <*> .optional "base_url" asText
    <*> .optional "model" asText

/-- The most tokens of the reply that is asked for. -/
def maxTokens : Nat := 10

/-- The client that the connection is tried with. -/
def client (t : Trial) (s : Settings) : Except Model.Fault Model.Client := do
  let client ← Model.Client.create (t.apiKey.getD s.apiKey) (t.baseUrl.getD s.baseUrl)
    (t.model.getD s.model)
  return client.withOptions ⟨none, some maxTokens⟩

/-- The answer to a trial that succeeds. -/
def success (c : Model.Client) : Response :=
  .ok (.object
    [("success".toList, .bool true),
     ("message".toList, .string "Connection successful".toList),
     ("model".toList, .string c.model),
     ("endpoint".toList, .string c.endpoint.url),
     ("api_format".toList, .string c.endpoint.format.key)])

/-- The connection is tried. -/
def run (t : Trial) (s : Settings) : Action Response := do
  match t.client s with
  | .error fault => return .ofFault (.ofModel fault)
  | .ok client =>
    match ← overNetwork (client.chat "Hi".toList) with
    | .ok _ => return success client
    | .error fault =>
      return .ofFault (.badRequest ("Connection failed: ".toList ++ fault.message))

end Trial

end Scholia.Service
