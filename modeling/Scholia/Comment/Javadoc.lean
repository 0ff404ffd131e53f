import Scholia.Comment.Basic
import Scholia.Text.Word
/-!
# Block tags

The grammar of `/** ... */` comments: a description, then tags at the start of lines. The text of a
tag goes on over the lines after it, joined by single spaces, up to the next tag. Parameters,
returns and exceptions keep their order among themselves, whatever stands between them; other tags
and their text are passed over.
-/

namespace Scholia.Comment.Javadoc

open Scholia.Doc (Line entry)

/-- What the current line belongs to. -/
inductive Section where
  | description
  | param
  | returns
  | throws
  | ignored
  deriving Repr, DecidableEq

/-- What has been read; each list has its last entry first. -/
structure State where
  current : Section
  description : List Text
  params : List (Text × Text)
  returns : List Text
  throws : List (Text × Text)
  deriving Repr, DecidableEq

/-- A line without the star that leads it. -/
def content (line : Text) : Text :=
  match Text.trim line with
  | '*' :: rest => Text.trim rest
  | line => line

/-- The name of a tag and the trimmed text after it, if a line begins with a tag. -/
def tag? : Text → Option (Text × Text)
  | '@' :: rest =>
    match Text.spanWord rest with
    | ([], _) => none
    | (name, rest) => some (name, Text.trim rest)
  | _ => none

/-- A text that goes on with another line. -/
def continueWith (text line : Text) : Text :=
  if text.isEmpty then line else text ++ ' ' :: line

/-- An entry whose description goes on with another line. -/
def continueEntry (line : Text) : List (Text × Text) → List (Text × Text)
  | [] => []
  | (name, text) :: rest => (name, continueWith text line) :: rest

namespace State

def initial : State := ⟨.description, [], [], [], []⟩

/-- A line that begins with a tag. -/
def addTag (s : State) (name text : Text) : State :=
  if name = "param".toList then
    if text.isEmpty then { s with current := .ignored }
    else { s with current := .param, params := Text.firstWord text :: s.params }
  else if name = "return".toList || name = "returns".toList then
    { s with current := .returns, returns := text :: s.returns }
  else if name = "throws".toList || name = "exception".toList then
    if text.isEmpty then { s with current := .ignored }
    else { s with current := .throws, throws := Text.firstWord text :: s.throws }
  else { s with current := .ignored }

/-- A line that begins with no tag. -/
def addText (s : State) (line : Text) : State :=
  match s.current with
  | .description => { s with description := line :: s.description }
  | .param => { s with params := continueEntry line s.params }
  | .returns =>
    match s.returns with
    | [] => s
    | text :: rest => { s with returns := continueWith text line :: rest }
  | .throws => { s with throws := continueEntry line s.throws }
  | .ignored => s

/-- One line. -/
def step (s : State) (line : Text) : State :=
  let line := content line
  if line.isEmpty then s
  else
    match tag? line with
    | some (name, text) => s.addTag name text
    | none => s.addText line

/-- The sections in their order. -/
def finish (s : State) : List Line :=
  let point := fun (name, text) => Line.bullet (entry name text)
  sections
    [ ("Description:".toList, descriptionLines s.description.reverse),
      ("Arguments:".toList, s.params.reverse.map point),
      ("Return:".toList, (s.returns.reverse.filter (!·.isEmpty)).map .bullet),
      ("Exceptions:".toList, s.throws.reverse.map point) ]

end State

/-- The documentation in a comment; a comment of another form has none. -/
def read (raw : Text) : Except Fault (List Line) :=
  match Text.cutAt? ['/', '*', '*'] raw with
  | none => .ok []
  | some (_, inner) =>
    match Text.cutAtLast? ['*', '/'] inner with
    | none => .error .openBlock
    | some (body, _) => .ok ((Text.lines body).foldl State.step .initial).finish

end Scholia.Comment.Javadoc
