import Scholia.Source.Indented.LogicalLine
/-!
# Blocks by indentation

From logical lines to the outline. A header opens a block, which holds the lines after it that are
indented deeper and closes at the first that is not. Annotation lines before a header belong to it.
The first line of a routine's block is its documentation if it is a single string.
-/

namespace Scholia.Source.Indented

/-- A header that has been read: whether it declares a routine, and the name. -/
structure Header where
  isRoutine : Bool
  name : Text
  deriving Repr, DecidableEq

/-- The rest of a text after a word and the blanks that have to follow it. -/
def afterWord? (word s : Text) : Option Text := do
  let rest ← Text.dropLead? word s
  guard ((rest.head?.map Text.isBlank).getD false)
  return Text.trimStart rest

/-- The name at the front of a text. -/
def leadingName? (s : Text) : Option Text :=
  match (Text.spanWord s).1 with
  | [] => none
  | name => some name

/-- The header that a logical line is, if it is one. -/
def Header.ofLine? (line : Text) : Option Header :=
  let routine := do
    let line := ((afterWord? "async".toList line).getD line)
    leadingName? (← afterWord? "def".toList line)
  match routine with
  | some name => some ⟨true, name⟩
  | none => (afterWord? "class".toList line >>= leadingName?).map (⟨false, ·⟩)

/-- A block that has begun. -/
structure OpenBlock where
  header : Header
  signature : Text
  indent : Nat
  start : Nat
  /-- The end of the last line in the block. -/
  stop : Nat
  bodyStart : Nat
  /-- Whether the first line of the body is still to come. -/
  awaiting : Bool
  deriving Repr, DecidableEq

/-- The place of a block that has ended. -/
def OpenBlock.close (b : OpenBlock) : Node :=
  if b.header.isRoutine then .routine b.header.name b.signature ⟨b.start, b.stop⟩ b.bodyStart
  else .typeDecl b.header.name b.signature ⟨b.start, b.stop⟩

/-- The state between two logical lines. -/
structure BlockState where
  /-- The open blocks, innermost first. -/
  blocks : List OpenBlock
  /-- The start of the annotation lines directly before. -/
  annotations : Option Nat
  /-- The places found, the last one first. -/
  nodes : List Node
  deriving Repr, DecidableEq

namespace BlockState

def initial : BlockState := ⟨[], none, []⟩

/-- Closes the blocks that a line at this indentation ends. -/
def closeTo (s : BlockState) (indent : Nat) : BlockState :=
  let ended := s.blocks.takeWhile (·.indent ≥ indent)
  { s with
    blocks := s.blocks.drop ended.length
    nodes := (ended.map OpenBlock.close).reverse ++ s.nodes }

/-- The line is part of all open blocks, and the first line of the innermost if that awaits one. -/
def extend (s : BlockState) (line : LogicalLine) : BlockState :=
  let literal :=
    match s.blocks with
    | inner :: _ => if inner.awaiting && inner.header.isRoutine then line.loneString else none
    | [] => none
  let blocks :=
    match s.blocks with
    | inner :: outer => { inner with awaiting := false } :: outer
    | [] => []
  { s with
    blocks := blocks.map fun b => { b with stop := line.stop }
    nodes := (literal.map Node.doc).toList ++ s.nodes }

/-- One logical line. -/
def step (source : Text) (s : BlockState) (line : LogicalLine) : Except Fault BlockState :=
  let s := (s.closeTo line.indent).extend line
  let text := Text.slice line.start line.stop source
  if text.head? = some '@' then
    .ok { s with annotations := some (s.annotations.getD line.start) }
  else
    let start := s.annotations.getD line.start
    let s := { s with annotations := none }
    match Header.ofLine? text with
    | none => .ok s
    | some header =>
      match line.colon with
      | none =>
        .error (.misfit .python (.missingColon header.name) (Text.lineAt source line.start))
      | some colon =>
        let block : OpenBlock :=
          { header, start
            signature := Text.collapse (Text.slice line.start colon source)
            indent := line.indent
            stop := line.stop
            bodyStart := colon + 1
            awaiting := line.stop ≤ colon + 1 }
        .ok { s with blocks := block :: s.blocks }

/-- All places, once the text has ended. -/
def finish (s : BlockState) : List Node :=
  s.nodes.reverse ++ s.blocks.map OpenBlock.close

end BlockState

/-- The places of blocks and of their documentation. -/
def blockNodes (source : Text) (lines : List LogicalLine) : Except Fault (List Node) := do
  return (← lines.foldlM (BlockState.step source) .initial).finish

/-- The outline of a text in the indented language. -/
def outline (source : Text) : Except Fault Outline := do
  return .ofNodes source (← blockNodes source (← logicalLines source))

end Scholia.Source.Indented
