import Scholia.Source.Outline
import Scholia.Text.Lines
/-!
# Layout

Moving a piece of code to another column. `reindent` takes away the indentation that all its lines
have in common and puts another one in its place, except on the first line, which continues a line
that is already indented. Blanks at the end of lines and line ends around the piece are dropped.

A text is edited by segments: each stands for a range of bytes and says what to put there. From left
to right a segment is applied if it starts no earlier than the last applied one ends, and ends within
the text; every other byte is copied.

A text is tidy if no line ends in a blank, no more than two empty lines follow each other, and it
ends with exactly one line feed. `tidy` makes it so and changes nothing else.
-/

namespace Scholia.Layout

/-- The number of spaces and tabs at the start of a line. -/
def leading (line : Text) : Nat :=
  (line.takeWhile Text.isIndent).length

/-- The smallest indentation of the lines that are not blank. -/
def commonIndent (lines : List Text) : Nat :=
  ((lines.filter (!Text.allBlank ·)).map leading).min?.getD 0

/-- A line without `common` leading spaces and tabs, as far as it has them, and without blanks at
its end. -/
def outdent (common : Nat) (line : Text) : Text :=
  let line := Text.trimEnd line
  line.drop (min common (leading line))

/-- A line behind an indentation; an empty one stays empty. -/
def indentLine (indent line : Text) : Text :=
  if line.isEmpty then [] else indent ++ line

/-- Lines of which all but the first get an indentation. -/
def hang (indent : Text) : List Text → List Text
  | [] => []
  | first :: rest => first :: rest.map (indentLine indent)

/-- A piece of code without its common indentation, its further lines behind `indent`. -/
def reindent (code indent : Text) : Text :=
  let lines := Text.lines (Text.trimWhere Text.isLineEnd code)
  Text.join ['\n'] (hang indent (lines.map (outdent (commonIndent lines))))

/-- The part of a text before a byte that is in the same line. -/
def lineBefore (source : Text) (offset : Nat) : Text :=
  ((Text.takeBytes offset source).reverse.takeWhile (· != '\n')).reverse

/-- The indentation of the line that holds a byte, if nothing else stands before that byte. -/
def lineIndent (source : Text) (offset : Nat) : Text :=
  let lead := lineBefore source offset
  if lead.all Text.isIndent then lead else []

/-- A part of a text, moved to the left margin. -/
def dedented (source : Text) (start stop : Nat) : Text :=
  reindent (lineIndent source start ++ Text.slice start stop source) []

/-! ## Edits -/

open Scholia.Source (Span)

/-- A range of bytes, and what takes its place; `none` keeps it. -/
structure Segment where
  span : Span
  replacement : Option Text
  deriving Repr, DecidableEq

/-- Whether a segment can be applied when all before byte `cursor` has been written. -/
def Segment.applies (source : Text) (cursor : Nat) (s : Segment) : Bool :=
  cursor ≤ s.span.start && s.span.stop ≤ Text.width source

/-- What a segment writes: its replacement at the column of the range, or the range itself. -/
def Segment.text (source : Text) (s : Segment) : Text :=
  match s.replacement with
  | some code => reindent code (lineIndent source s.span.start)
  | none => s.span.of source

/-- The edited text from byte `cursor` on. -/
def spliceFrom (source : Text) : Nat → List Segment → Text
  | cursor, [] => Text.dropBytes cursor source
  | cursor, s :: rest =>
    if s.applies source cursor then
      Text.slice cursor s.span.start source ++ s.text source ++ spliceFrom source s.span.stop rest
    else spliceFrom source cursor rest

/-- The text edited by segments. -/
def splice (source : Text) (segments : List Segment) : Text :=
  spliceFrom source 0 segments

/-! ## Tidy texts -/

/-- The most empty lines that may follow each other. -/
def maxEmptyLines : Nat := 2

/-- Lines without surplus empty ones, when `run` empty lines stand directly before. -/
def limitEmpty : Nat → List Text → List Text
  | _, [] => []
  | run, line :: rest =>
    if line.isEmpty then
      if run < maxEmptyLines then line :: limitEmpty (run + 1) rest
      else limitEmpty (run + 1) rest
    else line :: limitEmpty 0 rest

/-- The text with blanks at line ends, surplus empty lines and empty lines at its end removed. -/
def tidy (code : Text) : Text :=
  let lines := limitEmpty 0 ((Text.lines code).map Text.trimEnd)
  Text.trimEndWhere (· == '\n') (lines.flatMap (· ++ ['\n'])) ++ ['\n']

end Scholia.Layout
