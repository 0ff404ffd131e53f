import Scholia.Text.Basic
/-!
# JSON values

A JSON value with its fields in their order, repeated fields included, and numbers as literals.
Which number a literal stands for is decided where it is read (`Scholia.Json.Decode`), so that a
value that nobody reads cannot fail.
-/

namespace Scholia

/-- A JSON value. -/
inductive Json where
  | null
  | bool (value : Bool)
  /-- A number, as its literal. -/
  | number (literal : Text)
  | string (text : Text)
  | array (items : List Json)
  | object (fields : List (Text × Json))
  deriving Repr

namespace Json

def ofNat (n : Nat) : Json := .number (Text.ofNat n)

def ofTexts (texts : List Text) : Json := .array (texts.map .string)

/-- The value, or null. -/
def ofOption {α : Type} (f : α → Json) : Option α → Json
  | some a => f a
  | none => .null

/-- A field of an object: the first of that name. -/
def field? (name : Text) : Json → Option Json
  | .object fields => (fields.find? (·.1 == name)).map (·.2)
  | _ => none

end Json

end Scholia
