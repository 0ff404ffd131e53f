import Scholia.Language
import Scholia.Text.Lines
/-!
# Outlines of source text

An outline is a source text with the places of its type declarations, routines and doc comments,
in the order in which they start. `Outline.survey` reads it from front to back and restores who
contains whom: it answers the types and the outermost routines, each with the doc comment that
belongs to it. What stands inside the body of a routine is part of that body.

What is decided here: nesting, and which comment belongs to which routine. How the places are found
is the matter of each language's scanner.
-/

namespace Scholia.Source

/-- A range of bytes, the end excluded. -/
structure Span where
  start : Nat
  stop : Nat
  deriving Repr, DecidableEq

/-- The text of a range. -/
def Span.of (span : Span) (source : Text) : Text :=
  Text.slice span.start span.stop source

/-- What stands at a place of an outline. -/
inductive NodeKind where
  /-- A class, interface, module or the like. -/
  | typeDecl (name : Text)
  /-- A routine with a body, and the byte at which the body starts. -/
  | routine (name : Text) (bodyStart : Nat)
  /-- A doc comment. -/
  | doc
  deriving Repr, DecidableEq

/-- A place of an outline. -/
structure Node where
  kind : NodeKind
  /-- The declaration on one line; empty for a comment. -/
  signature : Text
  span : Span
  deriving Repr, DecidableEq

def Node.typeDecl (name signature : Text) (span : Span) : Node :=
  ⟨.typeDecl name, signature, span⟩

def Node.routine (name signature : Text) (span : Span) (bodyStart : Nat) : Node :=
  ⟨.routine name bodyStart, signature, span⟩

def Node.doc (span : Span) : Node :=
  ⟨.doc, [], span⟩

/-- A source text and its places. -/
structure Outline where
  source : Text
  nodes : List Node
  deriving Repr, DecidableEq

/-- The outline with these places, put in the order of their starts; places with the same start
keep their order. -/
def Outline.ofNodes (source : Text) (nodes : List Node) : Outline :=
  ⟨source, nodes.mergeSort fun m n => m.span.start ≤ n.span.start⟩

/-- A routine as it is found in a source text. -/
structure Routine where
  name : Text
  /-- The declaration on one line. -/
  signature : Text
  body : Text
  /-- From the declaration to the end of the body. -/
  span : Span
  /-- The doc comment, empty if there is none. -/
  comment : Text
  commentSpan : Option Span
  deriving Repr, DecidableEq

namespace Routine

/-- What is replaced when the routine is: the comment before it, if any, and the routine. -/
def extent (r : Routine) : Span :=
  match r.commentSpan with
  | some c => if c.start < r.span.start then ⟨c.start, r.span.stop⟩ else r.span
  | none => r.span

def hasComment (r : Routine) : Bool :=
  !r.comment.isEmpty

end Routine

/-- A type declaration as it is found in a source text. -/
structure TypeDecl where
  name : Text
  signature : Text
  deriving Repr, DecidableEq

/-! ## Which comment belongs to a routine -/

/-- Between a comment and its declaration stand only blank lines and lines that begin an annotation
or an attribute. -/
def isGapLine (line : Text) : Bool :=
  match Text.trim line with
  | [] => true
  | c :: _ => c == '@' || c == '[' || c == '<'

/-- Whether a comment that ends at `commentStop` belongs to a declaration at `start`. -/
def isAdjacent (source : Text) (commentStop start : Nat) : Bool :=
  commentStop ≤ start && (Text.lines (Text.slice commentStop start source)).all isGapLine

/-- Whether a text holds only blanks, colons and line comments that begin with a number sign;
`inComment` tells whether it starts inside such a comment. -/
def onlyHeaderEnd (inComment : Bool) : Text → Bool
  | [] => true
  | '\n' :: r => onlyHeaderEnd false r
  | c :: r =>
    if inComment then onlyHeaderEnd true r
    else if c == '#' then onlyHeaderEnd true r
    else (Text.isBlank c || c == ':') && onlyHeaderEnd false r

/-- Whether a literal at `start` is the first statement of a body that starts at `bodyStart`. -/
def isFirstStatement (source : Text) (bodyStart start : Nat) : Bool :=
  bodyStart ≤ start && onlyHeaderEnd false (Text.slice bodyStart start source)

/-! ## The walk -/

/-- What is open around a place. -/
inductive Scope where
  | typeDecl (stop : Nat)
  | routine (name signature : Text) (span : Span) (bodyStart : Nat) (comment : Option Span)
  /-- Something declared inside the body of a routine. -/
  | inner (stop : Nat)
  deriving Repr, DecidableEq

namespace Scope

def stop : Scope → Nat
  | typeDecl stop => stop
  | routine _ _ span _ _ => span.stop
  | inner stop => stop

/-- Whether what stands inside is part of a body. -/
def isBody : Scope → Bool
  | typeDecl _ => false
  | routine .. => true
  | inner _ => true

/-- The routine that a scope yields when it closes. -/
def closed? (source : Text) : Scope → Option Routine
  | routine name signature span bodyStart comment =>
    some
      { name, signature, span
        body := Text.slice bodyStart span.stop source
        comment := (comment.map (·.of source)).getD []
        commentSpan := comment }
  | _ => none

/-- A scope that has met a literal: a routine without a comment takes it if it is its first
statement. -/
def withLiteral (source : Text) (literal : Span) : Scope → Scope
  | routine name signature span bodyStart none =>
    routine name signature span bodyStart
      (if isFirstStatement source bodyStart literal.start then some literal else none)
  | scope => scope

end Scope

/-- The state of the walk over the places of an outline. -/
structure Walk where
  /-- What is open, innermost first. -/
  scopes : List Scope
  /-- The last comment that a following declaration could take. -/
  pending : Option Span
  /-- The routines that have closed, in the order of their closing. -/
  routines : List Routine
  types : List TypeDecl
  deriving Repr

namespace Walk

/-- Closes scopes from the innermost outward as long as they have `ended`. -/
def closeWhile (source : Text) (ended : Scope → Bool) : List Scope → List Scope × List Routine
  | [] => ([], [])
  | scope :: outer =>
    if ended scope then
      let (rest, routines) := closeWhile source ended outer
      (rest, (scope.closed? source).toList ++ routines)
    else (scope :: outer, [])

/-- The walk with the scopes closed that have `ended`. -/
def close (source : Text) (ended : Scope → Bool) (w : Walk) : Walk :=
  let (scopes, routines) := closeWhile source ended w.scopes
  { w with scopes, routines := w.routines ++ routines }

/-- The walk at a place, after all that ends before it has been closed. -/
def enter (source : Text) (attachment : Attachment) (w : Walk) (node : Node) : Walk :=
  let inBody := w.scopes.any Scope.isBody
  match node.kind with
  | .doc =>
    match attachment with
    | .preceding => if inBody then w else { w with pending := some node.span }
    | .firstStatement =>
      match w.scopes with
      | [] => w
      | scope :: outer => { w with scopes := scope.withLiteral source node.span :: outer }
  | .typeDecl name =>
    if inBody then { w with pending := none, scopes := .inner node.span.stop :: w.scopes }
    else
      { w with
        pending := none
        scopes := .typeDecl node.span.stop :: w.scopes
        types := w.types ++ [⟨name, node.signature⟩] }
  | .routine name bodyStart =>
    if inBody then { w with pending := none, scopes := .inner node.span.stop :: w.scopes }
    else
      let comment :=
        match attachment with
        | .preceding => w.pending.filter fun c => isAdjacent source c.stop node.span.start
        | .firstStatement => none
      { w with
        pending := none
        scopes := .routine name node.signature node.span bodyStart comment :: w.scopes }

/-- One step of the walk. -/
def step (source : Text) (attachment : Attachment) (w : Walk) (node : Node) : Walk :=
  (w.close source fun scope => scope.stop ≤ node.span.start).enter source attachment node

end Walk

/-- The outermost routines and the types of an outline, in the order of their starts. -/
def Outline.survey (o : Outline) (attachment : Attachment) : List Routine × List TypeDecl :=
  let w := o.nodes.foldl (Walk.step o.source attachment) ⟨[], none, [], []⟩
  let w := w.close o.source fun _ => true
  (w.routines.mergeSort fun r s => r.span.start ≤ s.span.start, w.types)

end Scholia.Source
