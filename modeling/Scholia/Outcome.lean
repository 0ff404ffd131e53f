import Scholia.Text.Table
/-!
# Outcomes

What came of one file: how many routines it has, how many were documented, why the others were not,
and what was written. A file that failed as a whole counts no routine as documented.

The report of a batch is a heading, then for each outcome a section with the share of documented
routines, rounded down, and the error of the file or else the errors of its routines.
-/

namespace Scholia

/-- How a file is documented. -/
inductive Strategy where
  | wholeFile
  | perRoutine
  deriving Repr, DecidableEq

/-- What came of one file. -/
structure Outcome where
  /-- The file as it is shown. -/
  file : Text
  /-- Why the file failed as a whole, if it did. -/
  error : Option Text
  total : Nat
  documented : Nat
  /-- The signatures of routines that failed, each with the reason. -/
  routineErrors : Text.Table
  strategy : Option Strategy
  /-- The paths of the documents written. -/
  artifacts : List Text
  deriving Repr, DecidableEq

namespace Outcome

/-- The outcome of a file about which nothing is known. -/
def fresh (file : Text) : Outcome := ⟨file, none, 0, 0, [], none, []⟩

/-- The outcome of a file that has failed as a whole. -/
def fail (o : Outcome) (error : Text) : Outcome :=
  { o with error := some error, documented := 0 }

def isFailed (o : Outcome) : Bool := o.error.isSome

end Outcome

end Scholia

namespace Scholia.Report

/-- The name of the file that a report is written to. -/
def fileName : Text := "result.md".toList

/-- The share of documented routines in percent, rounded down. The product is a word of 64 bits. -/
def percentage (o : Outcome) : Nat :=
  o.documented * 100 % Nat.pow 2 64 / o.total

/-- The lines with the share of documented routines. -/
def coverage (o : Outcome) : Text :=
  if o.total = 0 then
    "## ".toList ++ o.file ++ " was documented at 0%\n".toList ++
      "Couldn't count the number of functions\n".toList
  else
    "## ".toList ++ o.file ++ " was documented at ".toList ++
      Text.ofNat (percentage o) ++ "%\n".toList ++
      "Functions documented: ".toList ++ Text.ofNat o.documented ++ ['/'] ++ Text.ofNat o.total ++
      ['\n']

/-- The lines with the errors. -/
def errors (o : Outcome) : Text :=
  match o.error with
  | some error => "### File error:\n".toList ++ error ++ ['\n']
  | none =>
    if o.routineErrors.isEmpty then []
    else
      "### Function errors:\n".toList ++
        o.routineErrors.flatMap fun (signature, error) =>
          "- ".toList ++ signature ++ [' '] ++ error ++ ['\n']

/-- The report of a batch. -/
def render (outcomes : List Outcome) : Text :=
  "# Documentation Results\n".toList ++ outcomes.flatMap fun o => coverage o ++ errors o

end Scholia.Report
