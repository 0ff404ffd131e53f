import Scholia.Source.Indented.Lexeme
import Scholia.Source.Outline
/-!
# Logical lines

A logical line runs to the first line end that is outside brackets and not covered by a backslash.
Blank lines and lines with nothing but a comment are none. Its indentation is that of its first
character: a tab leads to the next multiple of eight, every other blank is one column.

A closing bracket takes back the last open one, of whatever kind; a text in which one is missing or
left over has no logical lines.
-/

namespace Scholia.Source.Indented

/-- A logical line. -/
structure LogicalLine where
  start : Nat
  /-- The end of the last code: a comment after it is not included. -/
  stop : Nat
  indent : Nat
  /-- The first colon outside brackets. -/
  colon : Option Nat
  /-- The string, with the letters before it, that is the whole line. -/
  loneString : Option Span
  deriving Repr, DecidableEq

/-- A logical line that has begun. -/
structure OpenLine where
  start : Nat
  indent : Nat
  /-- Whether only letters that may stand before a string have been met. -/
  fresh : Bool
  /-- The open brackets with their bytes, innermost first. -/
  brackets : List (Char × Nat)
  colon : Option Nat
  firstString : Option Span
  lastCode : Nat
  deriving Repr, DecidableEq

/-- A letter that may stand before a string. -/
def isStringLetter (c : Char) : Bool :=
  "rRbBuUfF".toList.contains c

namespace OpenLine

def begin (start indent : Nat) : OpenLine :=
  ⟨start, indent, true, [], none, none, start⟩

/-- The line with one more lexeme, which does not end it. -/
def add (line : OpenLine) (offset : Nat) (lexeme : Lexeme Kind) : Except Fault OpenLine :=
  let stop := offset + Text.width lexeme.text
  let worn := { line with fresh := false }
  match lexeme.kind with
  | .newline => .ok worn
  | .continuation => .ok worn
  | .comment => .ok worn
  | .blank => .ok worn
  | .string =>
    let first :=
      if line.fresh && offset ≤ line.start + 2 then some ⟨line.start, stop⟩ else line.firstString
    .ok { worn with firstString := first, lastCode := stop }
  | .opener c => .ok { worn with brackets := (c, offset) :: line.brackets, lastCode := stop }
  | .closer c =>
    match line.brackets with
    | [] => .error (.unbalanced .python c offset)
    | _ :: outer => .ok { worn with brackets := outer, lastCode := stop }
  | .colon =>
    let colon := if line.brackets.isEmpty then some (line.colon.getD offset) else line.colon
    .ok { worn with colon, lastCode := stop }
  | .code c => .ok { line with fresh := line.fresh && isStringLetter c, lastCode := stop }

/-- The line at its end. -/
def close (line : OpenLine) : LogicalLine :=
  { start := line.start
    stop := line.lastCode
    indent := line.indent
    colon := line.colon
    loneString := line.firstString.filter (·.stop == line.lastCode) }

end OpenLine

/-- The state between two lexemes. -/
structure LineState where
  /-- The indentation met since the last line end, before a line begins. -/
  indent : Nat
  line : Option OpenLine
  /-- The lines that have ended, the last one first. -/
  lines : List LogicalLine
  deriving Repr, DecidableEq

namespace LineState

def initial : LineState := ⟨0, none, []⟩

/-- The column after a blank. -/
def column (indent : Nat) (blank : Text) : Nat :=
  if blank = ['\t'] then (indent / 8 + 1) * 8 else indent + 1

/-- One lexeme. -/
def step (s : LineState) (offset : Nat) (lexeme : Lexeme Kind) : Except Fault LineState :=
  match s.line, lexeme.kind with
  | none, .newline => .ok { s with indent := 0 }
  | none, .comment => .ok { s with indent := 0 }
  | none, .blank => .ok { s with indent := column s.indent lexeme.text }
  | none, _ => do
    return { s with line := some (← (OpenLine.begin offset s.indent).add offset lexeme) }
  | some line, .newline =>
    if line.brackets.isEmpty then .ok ⟨0, none, line.close :: s.lines⟩
    else do return { s with line := some (← line.add offset lexeme) }
  | some line, _ => do return { s with line := some (← line.add offset lexeme) }

/-- The lines of a text that has ended, unless a bracket is still open. -/
def finish (s : LineState) : Except Fault (List LogicalLine) :=
  match s.line with
  | none => .ok s.lines.reverse
  | some line =>
    match line.brackets with
    | [] => .ok (line.close :: s.lines).reverse
    | (c, offset) :: _ => .error (.unbalanced .python c offset)

end LineState

/-- The logical lines of a text. -/
def logicalLines (source : Text) : Except Fault (List LogicalLine) := do
  (← (rule.lex source).run .python LineState.step .initial).finish

end Scholia.Source.Indented
