import Scholia.Batch.Json
import Scholia.Outcome.Json
import Scholia.Service.Interface
/-!
# Requests for documentation

A project is documented: the files named, or all source files found in it. Files are named by their
place in the project, and **no name leads out of it**.
-/

namespace Scholia.Service

open Json (Record asBool asList asText)

/-- A request to document a project. -/
structure Generation where
  projectPath : Text
  files : Option (List Text)
  method : Batch.Method
  outputFolder : Option Text
  formats : Batch.Formats
  tidied : Bool
  deriving Repr, DecidableEq

namespace Generation

/-- The fields of a request in their order. -/
def record : Record Generation :=
  Generation.mk <$> .required "project_path" asText
    <*> .optional "files" (asList asText)
    <*> .withDefault "method" Batch.Method.asMethod .quick
    <*> .optional "output_dir" asText
    <*> .withDefault "formats" Batch.Formats.asFormats .standard
    <*> .withDefault "use_formatter" asBool false

/-- Whether a component leads out of the folder it is used in. -/
def leadsOut : Path.Component → Bool
  | .root | .above => true
  | .current | .name _ => false

/-- The file of that name in a project. -/
def projectFile (root : Path) (file : Text) : Except Fault Path :=
  let place : Path := ⟨file⟩
  if place.components.any leadsOut || file.isEmpty then
    .error (.badRequest ("file must be a relative path inside the project: ".toList ++ file))
  else .ok (root.join place)

/-- The folder that documents are written to. -/
def outputPath (g : Generation) (s : Settings) : Path :=
  match g.outputFolder with
  | some folder => ⟨folder⟩
  | none => Path.join ⟨g.projectPath⟩ ⟨s.outputFolderName⟩

/-- The files to document in a project, of which `entry` is the folder. -/
def chooseFiles (g : Generation) (s : Settings) (entry : Option Storage.Entry) :
    Except Fault (List Path) :=
  match g.files with
  | some files => files.mapM (projectFile ⟨g.projectPath⟩)
  | none =>
    (Scan.scan (.standard (some (g.outputPath s))) ⟨g.projectPath⟩ entry).mapError .ofScan

/-- The request to a batch for these files. -/
def batch (g : Generation) (s : Settings) (files : List Path) : Batch.Request where
  projectRoot := some ⟨g.projectPath⟩
  files := files
  method := g.method
  outputFolder := g.outputPath s
  formats := g.formats
  tidied := g.tidied

/-- The client and the files of a project, of which `entry` is the folder. -/
def prepare (g : Generation) (s : Settings) (entry : Option Storage.Entry) :
    Except Fault (Model.Client × List Path) :=
  match entry with
  | some (.folder _) => do
    let files ← g.chooseFiles s entry
    let client ← s.client.mapError .ofModel
    return (client, files)
  | _ => .error (.badRequest ("project path is not a directory: ".toList ++ g.projectPath))

/-- The answer that gives outcomes. -/
def answer (outcomes : List Outcome) : Response :=
  .ok (.object
    [("success".toList, .bool (outcomes.all (!·.isFailed))),
     ("outcomes".toList, .array (outcomes.map Outcome.toJson))])

/-- A project is documented. -/
def run (g : Generation) (s : State) : Action (Response × State) := do
  match g.prepare s.settings (← storage (.look ⟨g.projectPath⟩)) with
  | .error fault => return (.ofFault fault, s)
  | .ok (client, files) =>
    let (outcomes, collector) ←
      withClient client
        (Batch.run s.settings.limits (g.batch s.settings files) s.collector)
    return (answer outcomes, { s with collector })

end Generation

end Scholia.Service
