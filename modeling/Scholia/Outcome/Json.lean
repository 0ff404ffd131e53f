import Scholia.Json.Decode
import Scholia.Outcome
/-!
# Outcomes in JSON
-/

namespace Scholia

open Json (Reader Record asList asNat asTable asText)

namespace Strategy

/-- The name in data. -/
def key : Strategy → Text
  | wholeFile => "whole_file".toList
  | perRoutine => "per_function".toList

end Strategy

namespace Outcome

/-- The fields of an outcome in their order. -/
def record : Record Outcome :=
  Outcome.mk <$> .required "file" asText
    <*> .optional "global_error" asText
    <*> .required "total_functions" (asNat Json.maxWord)
    <*> .required "documented_functions" (asNat Json.maxWord)
    <*> .required "function_errors" asTable
    <*> .optional "strategy" (Json.asMember Strategy.key [.wholeFile, .perRoutine])
    <*> .required "artifacts" (asList asText)

def asOutcome : Reader Outcome := record.read

/-- The outcome that a text writes. -/
def parse? (text : Text) : Option Outcome := Json.read? asOutcome text

def toJson (o : Outcome) : Json :=
  .object
    [("file".toList, .string o.file),
     ("global_error".toList, .ofOption .string o.error),
     ("total_functions".toList, .ofNat o.total),
     ("documented_functions".toList, .ofNat o.documented),
     ("function_errors".toList,
       .object (o.routineErrors.map fun (signature, error) => (signature, .string error))),
     ("strategy".toList, .ofOption (.string ∘ Strategy.key) o.strategy),
     ("artifacts".toList, .ofTexts o.artifacts)]

end Outcome

end Scholia
