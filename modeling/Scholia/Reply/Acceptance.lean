import Scholia.Harvest
import Scholia.Reply.CodeBlock
import Scholia.SourceKind
/-!
# Acceptance of replies

A reply is accepted on the strength of its code alone, which is read as source text: it shows the
mark of a doc comment, it has an outline, and what was asked for is documented in it. Nothing that
the reply says about its code is trusted.
-/

namespace Scholia.Reply

open Source (Routine)

/-- What a reply answers. -/
inductive Context where
  | wholeFile
  | routine
  deriving Repr, DecidableEq

def Context.describe : Context → Text
  | wholeFile => "whole file".toList
  | routine => "function".toList

/-- Why a reply is not accepted. -/
inductive Fault where
  | noCodeBlock (context : Context)
  | noMarker (marker : Text)
  | unparseable (fault : Source.Fault)
  | noRoutine
  | undocumented (reason : Undocumented)
  deriving Repr, DecidableEq

def Fault.message : Fault → Text
  | noCodeBlock context =>
    "could not find a code block in the model reply for the ".toList ++ context.describe
  | noMarker marker =>
    "the code block has no `".toList ++ marker ++ "` documentation comment".toList
  | unparseable fault =>
    "the code in the model reply could not be parsed: ".toList ++ fault.message
  | noRoutine => "the code in the model reply contains no function".toList
  | undocumented reason => "the documented function is unusable: ".toList ++ reason.message

/-- The first code block of a reply. -/
def codeBlock (context : Context) (reply : Text) : Except Fault CodeBlock :=
  match CodeBlock.ofReply? reply with
  | some block => .ok block
  | none => .error (.noCodeBlock context)

/-- A reply for one routine that has been accepted. -/
structure AcceptedRoutine where
  code : Text
  /-- The documentation of the routine, under its heading. -/
  docs : List Doc.Line
  deriving Repr, DecidableEq

/-- The routine that a reply answers with: the one of that name, or else the first. -/
def chosenRoutine? (name : Text) (routines : List Routine) : Option Routine :=
  (routines.find? (·.name == name)).or routines.head?

/-- A reply for the routine of that name. -/
def acceptRoutine (language : Language) (name reply : Text) : Except Fault AcceptedRoutine := do
  let block ← codeBlock .routine reply
  unless language.hasMarker block.code do throw (.noMarker language.marker)
  let routines ← (language.routines block.code).mapError .unparseable
  match chosenRoutine? name routines with
  | none => throw .noRoutine
  | some routine =>
    match routine.document language with
    | .error reason => throw (.undocumented reason)
    | .ok docs => return { code := block.code, docs }

/-- A reply for a whole file that has been accepted. -/
structure AcceptedFile where
  code : Text
  /-- The documentation in the code, where the language's comments are understood. -/
  harvest : Option Harvest
  deriving Repr, DecidableEq

/-- A reply for a whole file of that kind. -/
def acceptFile (kind : SourceKind) (reply : Text) : Except Fault AcceptedFile := do
  let block ← codeBlock .wholeFile reply
  unless kind.hasMarker block.code do throw (.noMarker kind.marker)
  match kind.language? with
  | none => return { code := block.code, harvest := none }
  | some language =>
    let harvest ← (language.harvest block.code).mapError .unparseable
    return { code := block.code, harvest := some harvest }

end Scholia.Reply
