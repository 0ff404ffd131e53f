import Scholia.Batch.Request
import Scholia.Json.Decode
/-!
# Requests in JSON
-/

namespace Scholia.Batch

open Json (Reader Record asBool)

namespace Method

/-- The name in data. -/
def key : Method → Text
  | quick => "quick".toList
  | slow => "slow".toList

def asMethod : Reader Method := Json.asMember key [quick, slow]

end Method

namespace Formats

/-- The formats in their order; each has a default. -/
def record : Record Formats :=
  Formats.mk <$> .withDefault "markdown" asBool standard.markdown
    <*> .withDefault "document" asBool standard.word

def asFormats : Reader Formats := record.read

/-- The formats that a text writes. -/
def parse? (text : Text) : Option Formats := Json.read? asFormats text

def toJson (f : Formats) : Json :=
  .object [("markdown".toList, .bool f.markdown), ("document".toList, .bool f.word)]

end Formats

end Scholia.Batch
