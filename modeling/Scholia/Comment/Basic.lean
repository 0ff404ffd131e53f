import Scholia.Doc.Line
import Scholia.Text.Lines
/-!
# Doc comments

What the grammars of doc comments share: how a comment fails to be read, and how the sections that
it was divided into are put into lines. A section without content has no label.
-/

namespace Scholia.Comment

open Scholia.Doc (Line)

/-- Why a doc comment cannot be read. -/
inductive Fault where
  | openBlock
  | openSummary
  | openDocstring
  | openBanner
  deriving Repr, DecidableEq

def Fault.reason : Fault → Text
  | openBlock => "unterminated `/**` comment".toList
  | openSummary => "unterminated <summary> element".toList
  | openDocstring => "unterminated docstring".toList
  | openBanner => "documentation banner is never closed".toList

def Fault.message (f : Fault) : Text :=
  "could not extract the documentation from the function: ".toList ++ f.reason

/-- The description: its lines as one text, if there are any. -/
def descriptionLines (lines : List Text) : List Line :=
  if lines.isEmpty then [] else [.text (Text.join ['\n'] lines)]

/-- Points as one list, if there are any. -/
def bulletList (items : List Text) : List Line :=
  if items.isEmpty then [] else [.bullets items]

/-- Sections in their order, each under its label. -/
def sections (parts : List (Text × List Line)) : List Line :=
  parts.flatMap fun (label, body) => Line.labelled label body

end Scholia.Comment
