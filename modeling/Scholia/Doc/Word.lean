import Scholia.Doc.Line
import Scholia.Text.Lines
/-!
# Word documents

Documentation as the paragraphs of a word processor document. A paragraph is a list of runs of one
weight, and a run a list of texts and line breaks; the texts are as they stand in the document's
markup, with its five special characters escaped and line ends left out.
-/

namespace Scholia.Doc.Word

/-- A part of a run. -/
inductive Part where
  | text (markup : Text)
  /-- A line break inside the paragraph. -/
  | lineBreak
  deriving Repr, DecidableEq

structure Run where
  bold : Bool
  parts : List Part
  deriving Repr, DecidableEq

/-- The named style of a heading. -/
inductive Style where
  | heading1
  | heading2
  deriving Repr, DecidableEq

structure Paragraph where
  style : Option Style
  bullet : Bool
  runs : List Run
  deriving Repr, DecidableEq

/-- A document is its paragraphs. -/
abbrev Document := List Paragraph

/-- A character as it stands in markup. -/
def escape (c : Char) : Text :=
  if c = '&' then "&amp;".toList
  else if c = '<' then "&lt;".toList
  else if c = '>' then "&gt;".toList
  else if c = '"' then "&quot;".toList
  else if c = '\'' then "&apos;".toList
  else if Text.isLineEnd c then []
  else [c]

/-- A text as a part of a run. -/
def Part.ofText (text : Text) : Part := .text (text.flatMap escape)

/-- The runs of a text of several lines: each line after the first is followed by a break. -/
def textRuns (text : Text) : List Run :=
  match Text.lines text with
  | [] => []
  | first :: rest =>
    ⟨false, [.ofText first]⟩ :: rest.map fun line => ⟨false, [.ofText line, .lineBreak]⟩

/-- The paragraphs of a line. -/
def paragraphs : Line → List Paragraph
  | .title text => [⟨some .heading1, false, [⟨false, [.ofText text]⟩]⟩]
  | .subheader text => [⟨some .heading2, false, [⟨false, [.ofText text]⟩]⟩]
  | .bold text => [⟨none, false, [⟨true, [.ofText text]⟩]⟩]
  | .text text => [⟨none, false, textRuns text⟩]
  | .bullet text => [⟨none, true, textRuns text⟩]
  | .bullets items => items.map fun text => ⟨none, true, textRuns text⟩

/-- The document of lines. -/
def render (lines : List Line) : Document :=
  lines.flatMap paragraphs

end Scholia.Doc.Word
