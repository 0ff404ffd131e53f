import Scholia.Text.Basic
/-!
# Documentation lines

What a doc comment says, apart from how it is shown: a list of lines, each with its role. The order
of the list is the order of output.
-/

namespace Scholia.Doc

/-- A line of documentation. -/
inductive Line where
  /-- The title of a document. -/
  | title (text : Text)
  /-- The heading of one routine. -/
  | subheader (text : Text)
  /-- The label of a section. -/
  | bold (text : Text)
  /-- Running text, of one or more lines. -/
  | text (text : Text)
  /-- A single point. -/
  | bullet (text : Text)
  /-- The points of a section together. -/
  | bullets (items : List Text)
  deriving Repr, DecidableEq

/-- A labelled section: nothing if it has no lines, so that **no label stands alone**. -/
def Line.labelled (label : Text) (body : List Line) : List Line :=
  if body.isEmpty then [] else .bold label :: body

/-- A name and what is said of it: `name. description`, or `name.` if nothing is said. -/
def entry (name description : Text) : Text :=
  if description.isEmpty then name ++ ['.'] else name ++ ['.', ' '] ++ description

end Scholia.Doc
