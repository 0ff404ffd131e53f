import Scholia.Outcome
import Scholia.Path
import Scholia.SourceKind
/-!
# Requests

What a batch is asked to do, and the names under which its files are shown. Files are named by their
place under the project's root; if none is given, `commonRoot` is the deepest folder that holds them
all.
-/

namespace Scholia.Batch

/-- How the strategy for a file is chosen. -/
inductive Method where
  /-- Routine by routine, where that is possible and the file is not long. -/
  | quick
  /-- Always the whole file. -/
  | slow
  deriving Repr, DecidableEq

/-- The kinds of document that are written. -/
structure Formats where
  markdown : Bool
  word : Bool
  deriving Repr, DecidableEq

namespace Formats

def standard : Formats := ⟨true, false⟩

def any (f : Formats) : Bool := f.markdown || f.word

end Formats

/-- The limits of a batch. -/
structure Limits where
  /-- How many files are worked on at a time. -/
  concurrency : Nat
  /-- How often the model is asked again after a reply that cannot be used. -/
  maxRetries : Nat
  /-- The most lines of a file that is documented routine by routine. -/
  lineThreshold : Nat
  deriving Repr, DecidableEq

/-- Limits that a batch can be run with: at least one file and at most ten at a time. -/
def Limits.clamped (l : Limits) : Limits :=
  { l with concurrency := max 1 (min l.concurrency 10) }

/-- What a batch is asked to do. -/
structure Request where
  projectRoot : Option Path
  files : List Path
  method : Method
  /-- The folder that documents and the report are written to. -/
  outputFolder : Path
  formats : Formats
  /-- Whether the code written back is tidied. -/
  tidied : Bool
  deriving Repr, DecidableEq

namespace Request

/-- A file's place under the root, or its name if it is not there. -/
def relative (r : Request) (file : Path) : Path :=
  match r.projectRoot.bind (Path.relativeTo? · file), file.fileName? with
  | some place, _ => place
  | none, some name => ⟨name⟩
  | none, none => file

/-- The name under which a file is shown. -/
def shown (r : Request) (file : Path) : Text :=
  match r.projectRoot with
  | some _ => Text.replaceAll ['\\'] ['/'] (r.relative file).text
  | none => file.text

end Request

/-- The components that two lists start with. -/
def sharedLead : List Path.Component → List Path.Component → List Path.Component
  | c :: r, d :: s => if c = d then c :: sharedLead r s else []
  | _, _ => []

/-- The components that all lists start with; nothing for no list. -/
def sharedLeads : List (List Path.Component) → List Path.Component
  | [] => []
  | first :: rest => rest.foldl sharedLead first

/-- The components of the folder that holds a file. -/
def folderComponents (file : Path) : List Path.Component :=
  (file.parent?.getD ⟨[]⟩).components

/-- The deepest folder that holds all files; files from the root and others have none. -/
def commonRoot (files : List Path) : Option Path :=
  let shared := sharedLeads (files.map folderComponents)
  if files.isEmpty || (shared.isEmpty && files.any Path.hasRoot) then none
  else some (.ofComponents shared)

/-- The strategy for a file of so many lines. -/
def strategy (kind : SourceKind) (method : Method) (lines threshold : Nat) : Strategy :=
  if method = .slow || lines > threshold || kind.language?.isNone then .wholeFile else .perRoutine

end Scholia.Batch
