import Scholia.Json.Basic
import Scholia.Text.Basic
/-!
# Writing JSON text

Two layouts: `render` without blanks, and `pretty` with one field or item a line, indented by two
spaces. Both escape the quote, the backslash and the characters below the space, and nothing else.
-/

namespace Scholia.Json

/-- A character inside a string. -/
def escape (c : Char) : Text :=
  if c = '"' then ['\\', '"']
  else if c = '\\' then ['\\', '\\']
  else if c = '\n' then ['\\', 'n']
  else if c = '\r' then ['\\', 'r']
  else if c = '\t' then ['\\', 't']
  else if c = '\x08' then ['\\', 'b']
  else if c = '\x0c' then ['\\', 'f']
  else if c.toNat < 0x20 then
    ['\\', 'u', '0', '0', Text.hexLetter (c.toNat / 16), Text.hexLetter (c.toNat % 16)]
  else [c]

/-- A string literal. -/
def quote (s : Text) : Text :=
  '"' :: s.flatMap escape ++ ['"']

mutual

/-- A value without blanks. -/
def render : Json → Text
  | .null => "null".toList
  | .bool true => "true".toList
  | .bool false => "false".toList
  | .number literal => literal
  | .string s => quote s
  | .array items => '[' :: Text.join [','] (renderItems items) ++ [']']
  | .object fields => '{' :: Text.join [','] (renderFields fields) ++ ['}']

/-- Each item. -/
def renderItems : List Json → List Text
  | [] => []
  | item :: items => item.render :: renderItems items

/-- Each field. -/
def renderFields : List (Text × Json) → List Text
  | [] => []
  | (name, value) :: fields => (quote name ++ ':' :: value.render) :: renderFields fields

end

/-- The start of a line at a depth. -/
def indent (depth : Nat) : Text :=
  '\n' :: List.replicate (2 * depth) ' '

mutual

/-- A value over several lines, at a depth. -/
def prettyAt (depth : Nat) : Json → Text
  | .array [] => ['[', ']']
  | .array (item :: items) =>
    '[' :: Text.join [','] (prettyItems (depth + 1) (item :: items)) ++ indent depth ++ [']']
  | .object [] => ['{', '}']
  | .object (field :: fields) =>
    '{' :: Text.join [','] (prettyFields (depth + 1) (field :: fields)) ++ indent depth ++ ['}']
  | .null => "null".toList
  | .bool true => "true".toList
  | .bool false => "false".toList
  | .number literal => literal
  | .string s => quote s

/-- Each item on its line. -/
def prettyItems (depth : Nat) : List Json → List Text
  | [] => []
  | item :: items => (indent depth ++ item.prettyAt depth) :: prettyItems depth items

/-- Each field on its line. -/
def prettyFields (depth : Nat) : List (Text × Json) → List Text
  | [] => []
  | (name, value) :: fields =>
    (indent depth ++ quote name ++ ':' :: ' ' :: value.prettyAt depth) :: prettyFields depth fields

end

/-- A value over several lines. -/
def pretty (value : Json) : Text :=
  value.prettyAt 0

end Scholia.Json
