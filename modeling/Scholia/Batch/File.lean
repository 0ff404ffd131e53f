import Scholia.Batch.Documents
import Scholia.Layout
import Scholia.Prompt
import Scholia.Reply.Acceptance
import Scholia.Retry
/-!
# The work on one file

A file is read and its strategy chosen. Either the model is asked to document the whole file, or it
is asked for each routine, and the accepted routines are put in the places of the old ones. The new
code is written back and its documentation written out. Whatever fails is recorded in the outcome: a
file that fails as a whole before its code is written is left as it was.
-/

namespace Scholia.Batch

/-- The model is asked until a reply is accepted or no attempt is left; then the last error
counts. -/
def askUntil {α : Type} (prompt : Text) (accept : Text → Except Text α) (r : Retry) :
    Job (Except Text α) :=
  match _ : r.next? with
  | none => return .error r.reason
  | some r' => do
    match (← ask prompt).mapError Model.Fault.message >>= accept with
    | .ok accepted => return .ok accepted
    | .error reason => askUntil prompt accept (r'.fail reason)
termination_by r.limit - r.attempt
decreasing_by exact @Retry.left_lt_of_next? r r' ‹_›

/-- The new code of a file, with what is known and said about it. -/
structure Draft where
  outcome : Outcome
  /-- The documentation, after its title. -/
  docs : List Doc.Line
  code : Text
  deriving Repr, DecidableEq

/-- The new code of a file, or the outcome of a file that has failed. -/
abbrev Attempt := Except Outcome Draft

/-- An outcome with what an accepted reply says about its file. -/
def withHarvest (o : Outcome) (h : Harvest) : Outcome :=
  { o with total := h.total, documented := h.documented, routineErrors := h.errors }

/-- The number of routines of a source, if its language is understood. -/
def countRoutines? (kind : SourceKind) (source : Text) : Except Source.Fault (Option Nat) :=
  match kind.language? with
  | none => .ok none
  | some language => do return some (← language.routines source).length

/-- The draft that an accepted reply makes. -/
def draftOf (o : Outcome) (accepted : Reply.AcceptedFile) : Draft :=
  match accepted.harvest with
  | some harvest => ⟨withHarvest o harvest, harvest.lines, accepted.code⟩
  | none => ⟨o, [], accepted.code⟩

/-- The model is asked to document a whole file. -/
def documentWhole (limits : Limits) (kind : SourceKind) (source : Text) (o : Outcome) :
    Job Attempt := do
  match countRoutines? kind source with
  | .error fault => return .error (o.fail fault.message)
  | .ok total? =>
    let o := { o with total := total?.getD o.total }
    if total?.isSome then announce o.file .parsed
    announce o.file .wholeFile
    let prompt := Prompt.wholeFile kind.name kind.docStyle o.file source
    let accept reply := (Reply.acceptFile kind reply).mapError Reply.Fault.message
    match ← askUntil prompt accept (.start limits.maxRetries) with
    | .error reason => return .error (o.fail reason)
    | .ok accepted => return .ok (draftOf o accepted)

/-- What came of a routine: the accepted reply, or why there is none. -/
abbrev Result := Except Text Reply.AcceptedRoutine

/-- The model is asked to document a routine. -/
def documentRoutine (limits : Limits) (language : Language) (source : Text)
    (routine : Source.Routine) : Job Result :=
  let code := Layout.dedented source routine.span.start routine.span.stop
  let accept reply :=
    (Reply.acceptRoutine language routine.name reply).mapError Reply.Fault.message
  askUntil (Prompt.routine language.name language.docStyle code) accept (.start limits.maxRetries)

/-- An outcome with what came of a routine. -/
def withResult (o : Outcome) (routine : Source.Routine) : Result → Outcome
  | .ok _ => { o with documented := o.documented + 1 }
  | .error reason => { o with routineErrors := o.routineErrors.put routine.signature reason }

/-- What a routine's place in the file is filled with. -/
def segment (routine : Source.Routine) (result : Result) : Layout.Segment :=
  ⟨routine.extent, result.toOption.map (·.code)⟩

/-- The documentation of a routine that has been accepted. -/
def docsOf (result : Result) : List Doc.Line :=
  (result.toOption.map (·.docs)).getD []

/-- The draft that the results for the routines of a file make. -/
def assemble (source : Text) (o : Outcome) (results : List (Source.Routine × Result)) : Draft where
  outcome := results.foldl (fun o (routine, result) => withResult o routine result) o
  docs := results.flatMap fun (_, result) => docsOf result
  code := Layout.splice source (results.map fun (routine, result) => segment routine result)

/-- The model is asked for one routine after the other. -/
def documentEach (limits : Limits) (language : Language) (source : Text) :
    List Source.Routine → Job (List (Source.Routine × Result))
  | [] => return []
  | routine :: rest => do
    let result ← documentRoutine limits language source routine
    return (routine, result) :: (← documentEach limits language source rest)

/-- The model is asked to document each routine of a file. -/
def documentRoutines (limits : Limits) (language : Language) (source : Text) (o : Outcome) :
    Job Attempt := do
  match language.routines source with
  | .error fault => return .error (o.fail fault.message)
  | .ok routines =>
    announce o.file .parsed
    announce o.file .perRoutine
    let results ← documentEach limits language source routines
    return .ok (assemble source { o with total := routines.length } results)

/-- The model is asked for new code by the file's strategy. -/
def draft (limits : Limits) (r : Request) (kind : SourceKind) (source : Text) (o : Outcome) :
    Job Attempt :=
  let chosen := strategy kind r.method (Text.lines source).length limits.lineThreshold
  let o := { o with strategy := some chosen }
  match chosen, kind.language? with
  | .perRoutine, some language => documentRoutines limits language source o
  | _, _ => documentWhole limits kind source o

/-- That a file could not be read or written. -/
def fileFault (file : Path) (reason : Text) : Text :=
  "I/O error (".toList ++ file.text ++ "): ".toList ++ reason

/-- The code of a draft is written back and its documentation written out. -/
def publish (r : Request) (file : Path) (d : Draft) : Job Outcome := do
  let code := if r.tidied then Layout.tidy d.code else d.code
  match ← write file (.text code) with
  | .error reason => return d.outcome.fail (fileFault file reason)
  | .ok () =>
    announce d.outcome.file .written
    match ← writeDocuments r file (titleLine d.outcome.file :: d.docs) with
    | .ok paths =>
      unless paths.isEmpty do announce d.outcome.file .documentsWritten
      return { d.outcome with artifacts := paths.map (·.text) }
    | .error reason =>
      return if d.outcome.routineErrors.isEmpty then d.outcome.fail reason else d.outcome

/-- The work on a file that could be read. -/
def documentSource (limits : Limits) (r : Request) (file : Path) (kind : SourceKind)
    (source : Text) (o : Outcome) : Job Outcome := do
  match ← draft limits r kind source o with
  | .error failed => return failed
  | .ok d => publish r file d

/-- The outcome of a file, once its last stage has been announced. -/
def finish (o : Outcome) : Job Outcome := do
  announce o.file (if o.isFailed then .failed else .done)
  return o

/-- The work on a file. -/
def documentFile (limits : Limits) (r : Request) (file : Path) : Job Outcome := do
  let o := Outcome.fresh (r.shown file)
  announce o.file .idle
  match SourceKind.ofPath? file with
  | none => finish (o.fail ("unsupported file type: ".toList ++ file.text))
  | some kind =>
    match ← read file with
    | .error reason => finish (o.fail (fileFault file reason))
    | .ok source => finish (← documentSource limits r file kind source o)

end Scholia.Batch
