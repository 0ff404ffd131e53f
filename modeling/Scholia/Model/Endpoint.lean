import Scholia.Model.Fault
import Scholia.Text.Blank
/-!
# Endpoints

Where a model is reached, and in which of two formats. The format follows from the model's name. The
address follows from a base address, which may be given with or without the version and the route
that the format has.
-/

namespace Scholia.Model

/-- The formats that requests and responses are written in. -/
inductive Format where
  | openAi
  | anthropic
  deriving Repr, DecidableEq

namespace Format

/-- The format of a model's service. -/
def ofModel (model : Text) : Format :=
  if Text.holds "claude".toList (Text.lowered model) then anthropic else openAi

/-- The end of the address. -/
def route : Format → Text
  | openAi => "chat/completions".toList
  | anthropic => "messages".toList

def display : Format → Text
  | openAi => "openai".toList
  | anthropic => "anthropic".toList

/-- The name in data. -/
def key : Format → Text
  | openAi => "open_ai".toList
  | anthropic => "anthropic".toList

end Format

/-- Where a model is reached. -/
structure Endpoint where
  format : Format
  url : Text
  deriving Repr, DecidableEq

namespace Endpoint

/-- The mark after a scheme. -/
def schemeEnd : Text := "://".toList

def isScheme (scheme : Text) : Bool :=
  Text.sameLetters scheme "http".toList || Text.sameLetters scheme "https".toList

/-- The parts of an address between slashes. -/
def segments (rest : Text) : List Text :=
  (Text.splitWhere (· == '/') rest).filter (!·.isEmpty)

/-- Whether a text ends with another. -/
def endsWith (ending s : Text) : Bool :=
  ending.isSuffixOf s

/-- What an address of these segments lacks. -/
def completion (route url : Text) (segments : List Text) : Text :=
  if endsWith route url then []
  else if segments.getLast?.any (Text.sameLetters · "v1".toList) then '/' :: route
  else "/v1/".toList ++ route

/-- The endpoint of a model under a base address. -/
def resolve (baseUrl model : Text) : Except Fault Endpoint :=
  match Text.cutAt? schemeEnd (Text.trim baseUrl) with
  | none => .error (.configuration ("base URL needs an http(s) scheme: ".toList ++ baseUrl))
  | some (scheme, rest) =>
    let segments := segments rest
    if !isScheme scheme then
      .error (.configuration ("unsupported base URL scheme: ".toList ++ scheme))
    else if segments.isEmpty then
      .error (.configuration ("base URL has no host: ".toList ++ baseUrl))
    else
      let format := Format.ofModel model
      let url := scheme ++ schemeEnd ++ Text.join ['/'] segments
      .ok ⟨format, url ++ completion format.route url segments⟩

def display (e : Endpoint) : Text :=
  e.url ++ " (".toList ++ e.format.display ++ [')']

end Endpoint

end Scholia.Model
