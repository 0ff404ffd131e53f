import Scholia.Comment.Basic
import Scholia.Source.Procedural.Pattern
/-!
# Banner comments

The grammar of comment blocks between banner lines. A label at the start of a line opens a section:
the description and the error handling are free text, on the line of the label or on the lines after
it; parameters are lines `name - description (Type)`; what is returned stands on the label's own
line, as `Type - description`. Descriptions of parameters and of what is returned end in one full
stop.
-/

namespace Scholia.Comment.Banner

open Scholia.Doc (Line)
open Scholia.Source.Procedural (isBanner)

/-- The section that the current line belongs to. -/
inductive Section where
  | none
  | description
  | parameters
  | errors
  deriving Repr, DecidableEq

/-- What has been read; each list has its last entry first. -/
structure State where
  current : Section
  description : List Text
  parameters : List Text
  returns : Option Text
  errors : List Text
  deriving Repr, DecidableEq

/-- A line without the quotes that lead it. -/
def content (line : Text) : Text :=
  Text.trim (Text.trimStartWhere (· == '\'') (Text.trim line))

/-- A text with one full stop at its end. -/
def sentence (s : Text) : Text :=
  Text.trimEndWhere (· == '.') (Text.trim s) ++ ['.']

/-- A word in parentheses at the end of a text: what stands before it, and the word. -/
def trailingWord? (s : Text) : Option (Text × Text) :=
  match (Text.trimEnd s).reverse with
  | ')' :: r =>
    let word := r.takeWhile Text.isWordChar
    match word, r.drop word.length with
    | _ :: _, '(' :: before => some (Text.trimEnd before.reverse, word.reverse)
    | _, _ => none
  | _ => none

/-- A word and the text after the dash that follows it. -/
def dashed? (s : Text) : Option (Text × Text) :=
  match Text.spanWord s with
  | ([], _) => none
  | (word, rest) =>
    match Text.trimStart rest with
    | '-' :: rest => some (word, Text.trimStart rest)
    | _ => none

/-- The point for a parameter line: `name (Type). description.` -/
def parameter? (line : Text) : Option Text := do
  let (name, rest) ← dashed? line
  let (description, type) ← trailingWord? rest
  return name ++ " (".toList ++ type ++ "). ".toList ++ sentence description

/-- The text for what is returned: `(Type). description.` -/
def returned? (line : Text) : Option Text := do
  let rest ← Text.dropLead? "Returns:".toList line
  let (type, description) ← dashed? (Text.trimStart rest)
  return '(' :: type ++ "). ".toList ++ sentence description

/-- Free text that says something. -/
def addFree (text : Text) (lines : List Text) : List Text :=
  if text.isEmpty then lines else text :: lines

namespace State

def initial : State := ⟨.none, [], [], none, []⟩

/-- A line that begins with no label. -/
def addText (s : State) (line : Text) : State :=
  match s.current with
  | .description => { s with description := line :: s.description }
  | .parameters => { s with parameters := (parameter? line).toList ++ s.parameters }
  | .errors =>
    if line = "None".toList || line = "None.".toList then s
    else { s with errors := line :: s.errors }
  | .none => s

/-- A line with content. -/
def addLine (s : State) (line : Text) : State :=
  match Text.dropLead? "Description:".toList line with
  | some rest =>
    { s with current := .description, description := addFree (Text.trim rest) s.description }
  | none =>
    if "Parameters:".toList.isPrefixOf line then { s with current := .parameters }
    else if "Returns:".toList.isPrefixOf line then
      { s with current := .none, returns := (returned? line).or s.returns }
    else
      match Text.dropLead? "Error Handling:".toList line with
      | some rest =>
        let text := Text.trim rest
        { s with
          current := .errors
          errors := if text = "None".toList then s.errors else addFree text s.errors }
      | none => s.addText line

/-- One line. -/
def step (s : State) (line : Text) : State :=
  if isBanner line then s
  else
    let line := content line
    if line.isEmpty then s else s.addLine line

/-- The sections in their order. -/
def finish (s : State) : List Line :=
  sections
    [ ("Description:".toList, descriptionLines s.description.reverse),
      ("Arguments:".toList, bulletList s.parameters.reverse),
      ("Return:".toList, (s.returns.map Line.text).toList),
      ("Error Handling:".toList, s.errors.reverse.map .text) ]

end State

/-- The documentation in a comment; a comment without banners has none. -/
def read (raw : Text) : Except Fault (List Line) :=
  match ((Text.lines raw).filter isBanner).length with
  | 0 => .ok []
  | 1 => .error .openBanner
  | _ => .ok ((Text.lines raw).foldl State.step .initial).finish

end Scholia.Comment.Banner
