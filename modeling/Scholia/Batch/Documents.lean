import Scholia.Batch.Interface
import Scholia.Batch.Request
import Scholia.Doc.Markdown
import Scholia.Outcome
/-!
# Written documents

The documents of a file are written into the output folder, at the place that the file has under the
project's root, with an extension added to its full name: `src/a.py` becomes `src/a.py.md`. The
report of a batch stands in the output folder itself.
-/

namespace Scholia.Batch

/-- The path of a file's documents, without the extension that is added. -/
def documentBase (outputFolder relative : Path) : Path :=
  (outputFolder.join (relative.parent?.getD ⟨[]⟩)).join ⟨relative.fileName?.getD []⟩

/-- A path with text added to its last part. -/
def withSuffix (base : Path) (suffix : String) : Path :=
  ⟨base.text ++ suffix.toList⟩

/-- The title of the documents of a file. -/
def titleLine (shown : Text) : Doc.Line :=
  .title ("Documentation for ".toList ++ shown)

/-- That a document could not be written. -/
def documentFault (path : Path) (reason : Text) : Text :=
  "failed to write documentation artifact ".toList ++ path.text ++ ": ".toList ++ reason

/-- A document is written. -/
def writeDocument (path : Path) (content : Storage.Content) : Job (Except Text Path) := do
  match ← write path content with
  | .ok () => return .ok path
  | .error reason => return .error (documentFault path reason)

/-- The documents of these formats are written one after the other, up to the first that fails. -/
def writeEach : List (Job (Except Text Path)) → Job (Except Text (List Path))
  | [] => return .ok []
  | document :: rest => do
    match ← document with
    | .error reason => return .error reason
    | .ok path => return (← writeEach rest).map (path :: ·)

/-- The writing of the documents at a base path. -/
def documentsAt (base : Path) (formats : Formats) (lines : List Doc.Line) :
    List (Job (Except Text Path)) :=
  let markdown := do
    writeDocument (withSuffix base ".md") (.text (Doc.Markdown.render (← time) lines))
  let word := writeDocument (withSuffix base ".docx") (.document (Doc.Word.render lines))
  (if formats.markdown then [markdown] else []) ++ (if formats.word then [word] else [])

/-- The documents of a file are written, unless their title is all there is to say. -/
def writeDocuments (r : Request) (file : Path) (lines : List Doc.Line) :
    Job (Except Text (List Path)) := do
  if lines.length ≤ 1 || !r.formats.any then return .ok []
  let base := documentBase r.outputFolder (r.relative file)
  let folder := base.parent?.getD ⟨[]⟩
  match ← makeFolders folder with
  | .error reason => return .error (documentFault folder reason)
  | .ok () => writeEach (documentsAt base r.formats lines)

/-- The report of a batch is written, if that is possible. -/
def writeReport (outputFolder : Path) (outcomes : List Outcome) : Job Unit := do
  if let .ok () ← makeFolders outputFolder then
    let _ ← write (outputFolder.join ⟨Report.fileName⟩) (.text (Report.render outcomes))

end Scholia.Batch
