import Scholia.Comment.Banner
import Scholia.Comment.Docstring
import Scholia.Comment.Javadoc
import Scholia.Comment.XmlDoc
import Scholia.Language
/-!
# Doc comments by language

Each language's comment grammar. A comment of blanks has no documentation in any language.
-/

namespace Scholia.Comment

/-- The documentation in a comment of a language. -/
def read (language : Language) (raw : Text) : Except Fault (List Doc.Line) :=
  if Text.allBlank raw then .ok []
  else
    match language with
    | .python => Docstring.read raw
    | .java => Javadoc.read raw
    | .cSharp => XmlDoc.read raw
    | .visualBasic => Banner.read raw

end Scholia.Comment
