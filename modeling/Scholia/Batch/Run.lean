import Scholia.Batch.File
import Scholia.Outcome
/-!
# Batches

The files of a request are worked on one after the other. Their outcomes are collected in the order
in which they come, taken out all at once when the last file is done, and sorted by the names under
which the files are shown.
-/

namespace Scholia.Batch

/-- The outcomes collected so far. -/
structure Collector where
  outcomes : List Outcome
  deriving Repr, DecidableEq

namespace Collector

def empty : Collector := ⟨[]⟩

def collect (c : Collector) (o : Outcome) : Collector := ⟨c.outcomes ++ [o]⟩

/-- The outcomes, and the collector without them. -/
def drain (c : Collector) : List Outcome × Collector := (c.outcomes, empty)

def size (c : Collector) : Nat := c.outcomes.length

end Collector

/-- The work on each of these files, its outcome collected. -/
def documentFiles (limits : Limits) (r : Request) : List Path → Collector → Job Collector
  | [], c => return c
  | file :: files, c => do
    documentFiles limits r files (c.collect (← documentFile limits r file))

/-- Outcomes in the order of the names under which their files are shown. -/
def sorted (outcomes : List Outcome) : List Outcome :=
  outcomes.mergeSort fun o p => !Text.before p.file o.file

/-- The work on a batch. The collector is the one that batches share. -/
def run (limits : Limits) (r : Request) (c : Collector) : Job (List Outcome × Collector) := do
  let (collected, c) := (← documentFiles limits.clamped r r.files c).drain
  let outcomes := sorted collected
  unless outcomes.isEmpty do writeReport r.outputFolder outcomes
  return (outcomes, c)

/-- The work on files without a project: the deepest folder that holds them all is the root. -/
def runAlone (limits : Limits) (r : Request) : Job (List Outcome) := do
  return (← run limits { r with projectRoot := commonRoot r.files } .empty).1

end Scholia.Batch
