import Scholia.Comment.Basic
/-!
# Docstrings

The grammar of triple-quoted documentation: a first paragraph of description, then sections that a
header line opens. In a section, a line with a colon that is indented no deeper than the section's
first line is an entry; any other line goes on with the entry before it. Text outside the first
paragraph and the sections says nothing.
-/

namespace Scholia.Comment.Docstring

open Scholia.Doc (Line entry)

/-- A section that is read. -/
inductive Section where
  | arguments
  | returns
  | raises
  deriving Repr, DecidableEq

/-- The section that a line opens, if it is a header. -/
def Section.ofHeader? (line : Text) : Option Section :=
  if ["Args:", "Arguments:", "Parameters:"].any (·.toList == line) then some .arguments
  else if ["Returns:", "Return:"].any (·.toList == line) then some .returns
  else if line = "Raises:".toList then some .raises
  else none

/-- What has been read; each list has its last entry first. -/
structure State where
  description : List Text
  /-- Whether the first paragraph has ended. -/
  described : Bool
  current : Option Section
  /-- The indentation of the section's first line. -/
  indent : Option Nat
  arguments : List Text
  returns : List Text
  raises : List Text
  deriving Repr, DecidableEq

/-- The entries of a section with one more line. -/
def addLine (isEntry : Bool) (text : Text) (entries : List Text) : List Text :=
  match Text.cutAt? [':'] text, isEntry, entries with
  | some (name, description), true, _ =>
    entry (Text.trim name) (Text.trim description) :: entries
  | _, _, last :: rest => (last ++ '\n' :: text) :: rest
  | _, _, [] => [text]

namespace State

def initial : State := ⟨[], false, none, none, [], [], []⟩

/-- A line of a section. -/
def addTo (s : State) (part : Section) (line text : Text) : State :=
  if text = "None".toList || text = "None.".toList then s
  else
    let indent := Text.width line - Text.width (Text.trimStart line)
    let first := s.indent.getD indent
    let s := { s with indent := some first }
    let add := addLine (indent ≤ first) text
    match part with
    | .arguments => { s with arguments := add s.arguments }
    | .returns => { s with returns := add s.returns }
    | .raises => { s with raises := add s.raises }

/-- One line. -/
def step (s : State) (line : Text) : State :=
  let text := Text.trim line
  if text.isEmpty then
    { s with described := s.described || (s.current.isNone && !s.description.isEmpty) }
  else
    match Section.ofHeader? text, s.current with
    | some opened, _ => { s with current := some opened, indent := none }
    | none, some current => s.addTo current line text
    | none, none => if s.described then s else { s with description := text :: s.description }

/-- The sections in their order. -/
def finish (s : State) : List Line :=
  sections
    [ ("Description:".toList, descriptionLines s.description.reverse),
      ("Arguments:".toList, bulletList s.arguments.reverse),
      ("Returns:".toList, bulletList s.returns.reverse),
      ("Raises:".toList, bulletList s.raises.reverse) ]

end State

/-- The quotes that a literal opens with, if they are three. -/
def tripleQuote? (literal : Text) : Option Text :=
  [['"', '"', '"'], ['\'', '\'', '\'']].find? (·.isPrefixOf literal)

/-- The documentation in a string literal; a literal with other quotes has none. -/
def read (raw : Text) : Except Fault (List Line) :=
  let literal := Text.trimStartWhere ("rRuUbBfF".toList.contains ·) (Text.trim raw)
  match tripleQuote? literal with
  | none => .ok []
  | some quote =>
    if literal.length < 6 || !quote.isSuffixOf literal then .error .openDocstring
    else
      let content := (literal.drop 3).take (literal.length - 6)
      .ok ((Text.lines content).foldl State.step .initial).finish

end Scholia.Comment.Docstring
