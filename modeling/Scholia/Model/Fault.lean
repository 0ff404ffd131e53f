import Scholia.Text.Basic
/-!
# Model faults

Why a model gives no reply. A reply with an error status is sorted by that status.
-/

namespace Scholia.Model

/-- Why a model gives no reply. -/
inductive Fault where
  /-- The request could not be sent, or its response not be received. -/
  | transport (reason : Text)
  | unauthorized (message : Text)
  | badRequest (message : Text)
  | service (status : Nat) (message : Text)
  /-- The client cannot be set up. -/
  | configuration (message : Text)
  /-- A response without usable content. -/
  | stream (message : Text)
  deriving Repr, DecidableEq

namespace Fault

/-- The fault of a response with an error status. -/
def ofStatus (status : Nat) (message : Text) : Fault :=
  if status = 401 || status = 403 then unauthorized message
  else if status = 400 || status = 404 || status = 422 then badRequest message
  else service status message

def message : Fault → Text
  | transport reason => "HTTP request failed: ".toList ++ reason
  | unauthorized message => "authentication failed: ".toList ++ message
  | badRequest message => "bad request: ".toList ++ message
  | service status message =>
    "API error (".toList ++ Text.ofNat status ++ "): ".toList ++ message
  | configuration message => "configuration error: ".toList ++ message
  | stream message => "stream error: ".toList ++ message

end Fault

end Scholia.Model
