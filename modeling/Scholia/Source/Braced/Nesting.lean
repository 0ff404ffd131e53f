import Scholia.Source.Braced.Header
import Scholia.Source.Braced.Lexeme
import Scholia.Source.Outline
/-!
# Nesting of braces

From the lexemes of a brace language to its outline. A *header* starts at the first code after a
semicolon or a brace and is judged when its brace opens; the scope waits on a stack until its brace
closes, and only then is its place known. Declarations stand directly in the file, in a namespace or
in a type: whatever a routine or a plain block contains is part of it.

A brace inside parentheses (an array in an annotation, a lambda among arguments) is *inline*: it
keeps the header that it interrupts.
-/

namespace Scholia.Source.Braced

/-- What a brace has opened. -/
inductive BraceKind where
  | package
  | typeDecl (name signature : Text)
  | routine (name signature : Text)
  | block
  /-- Inside parentheses, with the header and the number of parentheses that it interrupts. -/
  | inline (header : Option Nat) (parens : Nat)
  deriving Repr, DecidableEq

/-- Whether declarations may stand directly inside. -/
def BraceKind.holdsDeclarations : BraceKind → Bool
  | package => true
  | typeDecl .. => true
  | _ => false

/-- An open brace. -/
structure OpenBrace where
  kind : BraceKind
  /-- The byte at which the header starts. -/
  start : Nat
  /-- The byte of the brace. -/
  brace : Nat
  deriving Repr, DecidableEq

/-- The state between two lexemes. -/
structure State where
  /-- The byte at which the header starts, once it has. -/
  header : Option Nat
  /-- The number of open parentheses since the last brace. -/
  parens : Nat
  /-- The open braces, innermost first. -/
  braces : List OpenBrace
  /-- The places found, the last one first. -/
  nodes : List Node
  /-- The run of comment lines that may still grow. -/
  run : Option Span
  deriving Repr, DecidableEq

namespace State

def initial : State := ⟨none, 0, [], [], none⟩

/-- Code at a byte: it starts a header unless one is under way. -/
def mark (s : State) (offset : Nat) : State :=
  { s with header := some (s.header.getD offset) }

/-- Ends the run of comment lines. -/
def flushRun (s : State) : State :=
  match s.run with
  | some run => { s with nodes := .doc run :: s.nodes, run := none }
  | none => s

/-- Between two comment lines of one run stand blanks with at most one line feed. -/
def isRunGap (gap : Text) : Bool :=
  Text.allBlank gap && Text.tally '\n' gap ≤ 1

/-- A comment line of a run: it continues the run before it or starts a new one. -/
def extendRun (source : Text) (s : State) (line : Span) : State :=
  match s.run with
  | some run =>
    if isRunGap (Text.slice run.stop line.start source) then
      { s with run := some ⟨run.start, line.stop⟩ }
    else { s.flushRun with run := some line }
  | none => { s with run := some line }

/-- A brace opens at a byte. -/
def openBrace (dialect : Dialect) (source : Text) (s : State) (brace : Nat) : State :=
  if s.parens > 0 then
    { s with
      header := none
      parens := 0
      braces := ⟨.inline s.header s.parens, brace, brace⟩ :: s.braces }
  else
    let start := s.header.getD brace
    let allowed := (s.braces.head?.map (·.kind.holdsDeclarations)).getD true
    let kind : BraceKind :=
      if allowed then
        match Header.ofText (dialect == .cSharp) (Text.slice start brace source) with
        | .package => .package
        | .typeDecl name signature => .typeDecl name signature
        | .routine name signature => .routine name signature
        | .block => .block
      else .block
    { s with header := none, braces := ⟨kind, start, brace⟩ :: s.braces }

/-- A brace closes at a byte, if one is open. -/
def closeBrace? (s : State) (offset : Nat) : Option State :=
  match s.braces with
  | [] => none
  | inner :: outer =>
    let s := { s with braces := outer }
    let span : Span := ⟨inner.start, offset + 1⟩
    match inner.kind with
    | .inline header parens => some { s with header, parens }
    | .typeDecl name signature =>
      some { s with header := none, parens := 0, nodes := .typeDecl name signature span :: s.nodes }
    | .routine name signature =>
      some
        { s with
          header := none
          parens := 0
          nodes := .routine name signature span inner.brace :: s.nodes }
    | _ => some { s with header := none, parens := 0 }

/-- Whether a line comment is a line of a doc comment: it begins with exactly three slashes. -/
def isDocLine (line : Text) : Bool :=
  "///".toList.isPrefixOf line && !"////".toList.isPrefixOf line

/-- Whether a block comment is a doc comment: it begins with two stars and is not empty. -/
def isDocBlock (comment : Text) : Bool :=
  ['/', '*', '*'].isPrefixOf comment && comment.length > 4

/-- One lexeme. -/
def step (dialect : Dialect) (source : Text) (s : State) (offset : Nat) (lexeme : Lexeme Kind) :
    Except Fault State :=
  let span : Span := ⟨offset, offset + Text.width lexeme.text⟩
  match lexeme.kind with
  | .lineComment =>
    if dialect = .cSharp && isDocLine lexeme.text then .ok (s.extendRun source span) else .ok s
  | .blockComment =>
    if dialect = .java && isDocBlock lexeme.text then
      .ok { s with nodes := .doc span :: s.nodes }
    else .ok s
  | .literal => .ok (s.mark offset)
  | .openBrace => .ok (s.openBrace dialect source offset)
  | .closeBrace =>
    match s.closeBrace? offset with
    | some s => .ok s
    | none => .error (.unbalanced dialect.language '}' offset)
  | .openParen => .ok { s.mark offset with parens := s.parens + 1 }
  | .closeParen => .ok { s with parens := s.parens - 1 }
  | .semicolon => .ok (if s.parens = 0 then { s with header := none } else s)
  | .blank => .ok s
  | .code => .ok (s.mark offset)

/-- The places of a text that has ended, unless a brace is still open. -/
def finish (dialect : Dialect) (s : State) : Except Fault (List Node) :=
  match s.braces with
  | [] => .ok s.flushRun.nodes.reverse
  | inner :: _ => .error (.unbalanced dialect.language '{' inner.brace)

end State

/-- The outline of a text in a brace language. -/
def outline (dialect : Dialect) (source : Text) : Except Fault Outline := do
  let lexing := (rule dialect).lex source
  let state ← lexing.run dialect.language (State.step dialect source) .initial
  return .ofNodes source (← state.finish dialect)

end Scholia.Source.Braced
