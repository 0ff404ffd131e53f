import Scholia.Text.Blank
import Scholia.Text.Word
/-!
# Code blocks

A reply is prose with code between fences of three backticks. The first block is taken: a fence, a
tag that may name the language, a line end, and the code up to the next fence. A block without a tag
may begin with a line of prose: that line is dropped unless it looks like code.
-/

namespace Scholia.Reply

def fence : Text := ['`', '`', '`']

/-- A character of the tag after a fence. -/
def isTagChar (c : Char) : Bool :=
  Text.isWordChar c || c == '#' || c == '+' || c == '.' || c == '-'

/-- What follows a line end at the front of a text. -/
def afterLineEnd? : Text → Option Text
  | '\n' :: r => some r
  | '\r' :: '\n' :: r => some r
  | _ => none

/-- The tag and the body of a block that starts at the front of a text. -/
def blockAt? (s : Text) : Option (Text × Text) := do
  let s ← Text.dropLead? fence s
  let s' ← afterLineEnd? ((s.dropWhile isTagChar).dropWhile Text.isIndent)
  let (body, _) ← Text.cutAt? fence s'
  return (s.takeWhile isTagChar, body)

/-- The tag and the body of the first block. -/
def firstBlock? : Text → Option (Text × Text)
  | [] => none
  | c :: r => (blockAt? (c :: r)).or (firstBlock? r)

/-- A code block. -/
structure CodeBlock where
  /-- The language that the fence names. -/
  declaredLanguage : Option Text
  code : Text
  /-- The first line of the block. -/
  description : Text
  deriving Repr, DecidableEq

/-- Words that make a line look like code. -/
def codeWords : List Text :=
  ["import", "def", "class", "print"].map String.toList

def looksLikeCode (line : Text) : Bool :=
  codeWords.any (Text.holds · line)

/-- The block of a tag and a body. -/
def CodeBlock.of (tag body : Text) : CodeBlock :=
  let body := Text.trimEndWhere Text.isLineEnd body
  let (first, rest) := (Text.cutAt? ['\n'] body).getD (body, [])
  { declaredLanguage := if tag.isEmpty then none else some tag
    code := if tag.isEmpty && !looksLikeCode first then rest else body
    description := Text.trimEndWhere (· == '\r') first }

/-- The first code block of a reply. -/
def CodeBlock.ofReply? (reply : Text) : Option CodeBlock :=
  (firstBlock? reply).map fun (tag, body) => .of tag body

end Scholia.Reply
