import Scholia.Model.Fault
import Scholia.Storage.Basic
/-!
# Calls of a batch

What the work on a batch needs from outside: replies of a model, storage, the time, and someone who
is told how far a file has come.
-/

namespace Scholia.Batch

/-- How far the work on a file has come. -/
inductive Stage where
  | idle
  | parsed
  | wholeFile
  | perRoutine
  | written
  | documentsWritten
  | done
  | failed
  deriving Repr, DecidableEq

def Stage.text : Stage → Text
  | idle => "idle".toList
  | parsed => "parsed".toList
  | wholeFile => "whole_file_generate".toList
  | perRoutine => "per_function_generate".toList
  | written => "written".toList
  | documentsWritten => "artifact_emitted".toList
  | done => "done".toList
  | failed => "failed".toList

/-- The calls of a batch. -/
inductive Call where
  /-- The model's reply to a prompt. -/
  | ask (prompt : Text)
  | storage (call : Storage.Call)
  /-- The time, as it is written into documents. -/
  | time
  /-- The file shown under that name has come to a stage. -/
  | announce (file : Text) (stage : Stage)
  deriving Repr

abbrev Call.Answer : Call → Type
  | ask _ => Except Model.Fault Text
  | storage call => call.Answer
  | time => Text
  | announce _ _ => Unit

/-- The calls of a batch as an interface. -/
abbrev interface : Interface := ⟨Call, Call.Answer⟩

/-- A program with the calls of a batch. -/
abbrev Job (α : Type) : Type := Program interface α

/-- The model's reply to a prompt. -/
def ask (prompt : Text) : Job (Except Model.Fault Text) :=
  Program.perform (I := interface) (.ask prompt)

def read (file : Path) : Job (Except Text Text) :=
  Program.perform (I := interface) (.storage (.read file))

def write (file : Path) (content : Storage.Content) : Job (Except Text Unit) :=
  Program.perform (I := interface) (.storage (.write file content))

def makeFolders (folder : Path) : Job (Except Text Unit) :=
  Program.perform (I := interface) (.storage (.makeFolders folder))

def time : Job Text := Program.perform (I := interface) .time

def announce (file : Text) (stage : Stage) : Job Unit :=
  Program.perform (I := interface) (.announce file stage)

end Scholia.Batch
