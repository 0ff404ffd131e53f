import Scholia.Doc.Word
import Scholia.Path
import Scholia.Program
import Scholia.Text.Utf8
/-!
# Storage

What files and folders are, and the calls by which a program reads and changes them. A call succeeds
as a whole or fails with the text that the operating system has for the reason.
-/

namespace Scholia.Storage

/-- What a file holds. -/
inductive Content where
  | text (text : Text)
  | binary (bytes : List UInt8)
  /-- A word processor document, kept as its paragraphs. -/
  | document (document : Doc.Word.Document)
  deriving Repr, DecidableEq

/-- The content as a text, unless its bytes are none. -/
def Content.text? : Content → Option Text
  | text t => some t
  | binary bytes => Text.Utf8.decode? bytes
  | document _ => none

/-- What a name in a folder stands for. -/
inductive Entry where
  | file (content : Content)
  /-- A symbolic link. -/
  | link (target : Path)
  | folder (entries : List (Text × Entry))
  deriving Repr

/-- The calls on files and folders. -/
inductive Call where
  /-- The text of a file. -/
  | read (file : Path)
  /-- A file gets a content, and is made if it is missing. -/
  | write (file : Path) (content : Content)
  /-- A folder and those that lead to it are made, as far as they are missing. -/
  | makeFolders (folder : Path)
  /-- What stands at a path, links followed. -/
  | look (path : Path)
  deriving Repr

abbrev Call.Answer : Call → Type
  | read _ => Except Text Text
  | write _ _ => Except Text Unit
  | makeFolders _ => Except Text Unit
  | look _ => Option Entry

/-- Storage as an interface. -/
abbrev interface : Interface := ⟨Call, Call.Answer⟩

end Scholia.Storage
