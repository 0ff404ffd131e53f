import Scholia.Comment.Read
import Scholia.Source.Survey
import Scholia.Text.Table
/-!
# Harvest

The documentation that a source text carries: for each routine the lines of its doc comment, under a
heading with its signature, or the reason why it has none. **Every routine is accounted for**: it is
documented, or its signature is a key of the table of errors.
-/

namespace Scholia

open Source (Routine)

/-- Why a routine has no documentation. -/
inductive Undocumented where
  /-- No comment, or a comment that says nothing. -/
  | missing
  /-- A comment that cannot be read. -/
  | unreadable
  deriving Repr, DecidableEq

def Undocumented.message : Undocumented → Text
  | missing => "could not extract documentation".toList
  | unreadable => "could not extract the documentation from the function".toList

/-- The documentation of a routine, under its heading. -/
def Source.Routine.document (language : Language) (r : Routine) :
    Except Undocumented (List Doc.Line) :=
  if !r.hasComment then .error .missing
  else
    match Comment.read language r.comment with
    | .error _ => .error .unreadable
    | .ok [] => .error .missing
    | .ok lines => .ok (.subheader ("Function: ".toList ++ r.signature) :: lines)

/-- The documentation of a whole source text. -/
structure Harvest where
  /-- The documentation of all documented routines, in their order. -/
  lines : List Doc.Line
  /-- The signatures of the others, each with the reason for the last routine of that signature. -/
  errors : Text.Table
  total : Nat
  documented : Nat
  deriving Repr, DecidableEq

namespace Harvest

def empty : Harvest := ⟨[], [], 0, 0⟩

/-- One routine more. -/
def add (language : Language) (h : Harvest) (r : Routine) : Harvest :=
  match r.document language with
  | .ok lines =>
    { h with lines := h.lines ++ lines, total := h.total + 1, documented := h.documented + 1 }
  | .error reason =>
    { h with errors := h.errors.put r.signature reason.message, total := h.total + 1 }

end Harvest

/-- The documentation that a source text carries. -/
def Language.harvest (language : Language) (source : Text) : Except Source.Fault Harvest := do
  return (← language.routines source).foldl (Harvest.add language) .empty

end Scholia
