import Scholia.Source.Fault
import Scholia.Source.Outline
import Scholia.Source.Procedural.Pattern
/-!
# Procedures by line

From the lines of Visual Basic to the outline. A procedure runs from its header to the matching end;
a lambda of several lines inside it has an end of its own. A doc comment runs from one banner to the
next, with nothing but comments and blank lines between them. A type runs from its header to any end
of a type.

A header goes on over the lines after it as long as they end in a blank and an underscore, whatever
these lines hold. Members without a body (inside an interface, or with `MustOverride`) are no
procedures.
-/

namespace Scholia.Source.Procedural

/-- A line with its place. -/
structure PhysicalLine where
  /-- Counted from 1. -/
  number : Nat
  /-- The byte of the first character that is not blank. -/
  start : Nat
  /-- The byte after the last character that is not blank. -/
  stop : Nat
  /-- The line without blanks at its end. -/
  text : Text
  deriving Repr, DecidableEq

/-- Places for raw lines, the first of which has this number and starts at this byte. -/
def placeLines : Nat → Nat → List Text → List PhysicalLine
  | _, _, [] => []
  | number, offset, raw :: rest =>
    let text := Text.trimEnd raw
    let lead := Text.width text - Text.width (Text.trimStart text)
    ⟨number, offset + lead, offset + Text.width text, text⟩ ::
      placeLines (number + 1) (offset + Text.width raw) rest

/-- The lines of a text. -/
def physicalLines (source : Text) : List PhysicalLine :=
  placeLines 1 0 (Text.rawLines source)

/-- A procedure that has begun. -/
structure OpenProcedure where
  line : Nat
  keyword : Text
  name : Text
  start : Nat
  /-- The header as it is written, continued lines joined. -/
  header : Text
  bodyStart : Nat
  deriving Repr, DecidableEq

/-- A type that has begun. -/
structure OpenType where
  line : Nat
  name : Text
  signature : Text
  start : Nat
  isInterface : Bool
  deriving Repr, DecidableEq

/-- Whether the next line goes on with a header. -/
inductive Continued where
  | no
  /-- With the header of the open procedure. -/
  | header
  /-- With the header of a member without a body. -/
  | passed
  deriving Repr, DecidableEq

/-- The state between two lines. -/
structure State where
  continued : Continued
  procedure : Option OpenProcedure
  /-- The keywords of the open lambdas, innermost first. -/
  lambdas : List Text
  /-- The open types, innermost first. -/
  types : List OpenType
  /-- The start of a banner that may open a doc comment. -/
  banner : Option Nat
  /-- The places found, the last one first. -/
  nodes : List Node
  deriving Repr, DecidableEq

namespace State

def initial : State := ⟨.no, none, [], [], none, []⟩

/-- Whether a line is continued by the next one. -/
def isContinued (line : Text) : Bool :=
  [' ', '_'].isSuffixOf line

/-- A line of a header without the underscores at its end. -/
def headerPart (line : Text) : Text :=
  Text.trimEndWhere (· == '_') line

def misfit {α : Type} (why : Misfit) (line : Nat) : Except Fault α :=
  .error (.misfit .visualBasic why line)

/-- The end of a procedure or lambda. -/
def endProcedure (s : State) (line : PhysicalLine) (keyword : Text) : Except Fault State :=
  if (s.lambdas.head?.map (Text.sameLetters keyword)).getD false then
    .ok { s with lambdas := s.lambdas.tail }
  else
    match s.procedure with
    | none => misfit (.strayEnd keyword) line.number
    | some p =>
      if Text.sameLetters p.keyword keyword then
        let node := .routine p.name (signature p.header) ⟨p.start, line.stop⟩ p.bodyStart
        .ok { s with procedure := none, nodes := node :: s.nodes }
      else misfit (.wrongEnd keyword p.keyword p.name) line.number

/-- The header of a procedure or of a member without a body. -/
def beginProcedure (s : State) (line : PhysicalLine) (d : Declarator) : Except Fault State :=
  let isAbstract := d.modifiers.any (Text.sameLetters "mustoverride".toList)
  let inInterface := (s.types.head?.map OpenType.isInterface).getD false
  let goesOn := isContinued line.text
  if isAbstract || inInterface then
    .ok { s with continued := if goesOn then .passed else .no }
  else
    match s.procedure with
    | some p => misfit (.innerDeclaration d.name p.keyword p.name) line.number
    | none =>
      let p : OpenProcedure :=
        { line := line.number
          keyword := d.keyword
          name := d.name
          start := line.start
          header := headerPart line.text
          bodyStart := line.stop }
      .ok { s with procedure := some p, continued := if goesOn then .header else .no }

/-- A line outside procedures that declares none. -/
def declaration (s : State) (line : PhysicalLine) : Except Fault State :=
  match declarator? typeWords line.text with
  | some d =>
    let t : OpenType :=
      { line := line.number
        name := d.name
        signature := signature line.text
        start := line.start
        isInterface := Text.sameLetters d.keyword "interface".toList }
    .ok { s with types := t :: s.types }
  | none =>
    match ending? typeWords line.text with
    | none => .ok s
    | some keyword =>
      match s.types with
      | [] => misfit (.strayEnd keyword) line.number
      | t :: outer =>
        let node := .typeDecl t.name t.signature ⟨t.start, line.stop⟩
        .ok { s with types := outer, nodes := node :: s.nodes }

/-- A line of code that goes on with no header. -/
def code (s : State) (line : PhysicalLine) : Except Fault State :=
  match ending? procedureWords line.text with
  | some keyword => s.endProcedure line keyword
  | none =>
    match declarator? procedureWords line.text with
    | some d => s.beginProcedure line d
    | none =>
      if s.procedure.isSome then .ok { s with lambdas := (lambda? line.text).toList ++ s.lambdas }
      else s.declaration line

/-- One line. -/
def step (s : State) (line : PhysicalLine) : Except Fault State :=
  match s.continued with
  | .passed => .ok { s with continued := if isContinued line.text then .passed else .no }
  | .header =>
    let procedure := s.procedure.map fun p =>
      { p with header := p.header ++ ' ' :: headerPart line.text, bodyStart := line.stop }
    .ok { s with procedure, continued := if isContinued line.text then .header else .no }
  | .no =>
    if isBanner line.text then
      match s.banner with
      | some start =>
        .ok { s with banner := none, nodes := .doc ⟨start, line.stop⟩ :: s.nodes }
      | none => .ok { s with banner := some line.start }
    else if isComment line.text || Text.allBlank line.text then .ok s
    else { s with banner := none }.code line

/-- The places of a text that has ended, unless a procedure or type is still open. -/
def finish (s : State) : Except Fault (List Node) :=
  match s.procedure, s.types with
  | some p, _ => misfit (.endlessProcedure p.keyword p.name) p.line
  | none, t :: _ => misfit (.endlessType t.name) t.line
  | none, [] => .ok s.nodes.reverse

end State

/-- The outline of a text in the procedural language. -/
def outline (source : Text) : Except Fault Outline := do
  return .ofNodes source (← (← (physicalLines source).foldlM State.step .initial).finish)

end Scholia.Source.Procedural
