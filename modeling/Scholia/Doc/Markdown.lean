import Scholia.Doc.Line
import Scholia.Text.Blank
/-!
# Markdown

Documentation as Markdown: one paragraph for each line, except that the points of one list stand
together. The first title is followed by the time at which the document was made.
-/

namespace Scholia.Doc.Markdown

/-- A point of a list; its further lines are indented into it. -/
def item (text : Text) : Text :=
  "- ".toList ++ Text.replaceAll ['\n'] "\n  ".toList text ++ ['\n']

def paragraph (text : Text) : Text :=
  text ++ ['\n', '\n']

/-- A line other than a title. -/
def line : Line → Text
  | .title text => paragraph ("# ".toList ++ text)
  | .subheader text => paragraph ("## ".toList ++ text)
  | .bold text => paragraph ("**".toList ++ text ++ "**".toList)
  | .text text => paragraph text
  | .bullet text => paragraph ("- ".toList ++ text)
  | .bullets items => items.flatMap item ++ ['\n']

/-- Lines, with the time after the first title. -/
def body (time : Text) : List Line → Text
  | [] => []
  | .title text :: rest =>
    line (.title text) ++ paragraph ("> Generated at ".toList ++ time) ++ rest.flatMap line
  | l :: rest => line l ++ body time rest

/-- The document, with one line feed at its end. -/
def render (time : Text) (lines : List Line) : Text :=
  Text.trimEnd (body time lines) ++ ['\n']

end Scholia.Doc.Markdown
