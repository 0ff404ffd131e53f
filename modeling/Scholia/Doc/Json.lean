import Scholia.Doc.Line
import Scholia.Json.Decode
/-!
# Documentation lines in JSON

A line is written as its kind and its value.
-/

namespace Scholia.Doc.Line

open Json (Reader Record asList asText)

/-- The kind of a line in data. -/
def key : Line → Text
  | title _ => "title".toList
  | subheader _ => "subheader".toList
  | bold _ => "bold".toList
  | text _ => "text".toList
  | bullet _ => "bullet".toList
  | bullets _ => "bullet_list".toList

/-- The value of a line in data. -/
def value : Line → Json
  | title t | subheader t | bold t | text t | bullet t => .string t
  | bullets items => .ofTexts items

def toJson (l : Line) : Json :=
  .object [("kind".toList, .string l.key), ("value".toList, l.value)]

/-- The kinds of lines, each with the way of reading its value. -/
def kinds : List (Text × Reader Line) :=
  [("title".toList, fun value => title <$> asText value),
   ("subheader".toList, fun value => subheader <$> asText value),
   ("bold".toList, fun value => bold <$> asText value),
   ("text".toList, fun value => text <$> asText value),
   ("bullet".toList, fun value => bullet <$> asText value),
   ("bullet_list".toList, fun value => bullets <$> asList asText value)]

/-- The way of reading a line's value, and the value. -/
def record : Record ((Text × Reader Line) × Json.Written) :=
  Prod.mk <$> .required "kind" (Json.asMember (·.1) kinds) <*> .required "value" Json.asAny

/-- A line: its kind and its value, which is read when both have been found. -/
def asLine : Reader Line := fun json => do
  let (kind, value) ← record.read json
  kind.2 value

/-- The lines that a text writes. -/
def parseAll? (text : Text) : Option (List Line) := Json.read? (asList asLine) text

end Scholia.Doc.Line
