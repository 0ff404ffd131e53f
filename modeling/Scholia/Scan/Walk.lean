import Scholia.Scan.Glob
import Scholia.SourceKind
import Scholia.Storage.Basic
/-!
# Scans

The source files under a folder, at any depth, in the order of their paths. Links are not followed.
An entry is passed over, with all that is under it, if it is hidden, if it is the folder to skip, or
if its name or its whole path matches a pattern.
-/

namespace Scholia.Scan

open Storage (Entry)

/-- What is passed over. -/
structure Rules where
  patterns : List Glob
  skip : Option Path
  deriving Repr, DecidableEq

namespace Rules

/-- The rules of these patterns; those that are not well formed are left out. -/
def ofPatterns (patterns : List Text) (skip : Option Path) : Rules :=
  ⟨patterns.filterMap Glob.parse?, skip⟩

/-- The patterns of folders and files that are no sources of a project. -/
def standardPatterns : List Text :=
  ["node_modules", "__pycache__", "venv", "target", "dist", "build", "bin", "obj", "out",
    "*.min.js"].map String.toList

def standard (skip : Option Path) : Rules := ofPatterns standardPatterns skip

/-- Whether an entry is passed over. -/
def ignores (rules : Rules) (path : Path) : Bool :=
  let name := path.fileName?.getD []
  name.head? == some '.' || rules.skip.any (·.same path) ||
    rules.patterns.any fun g => g.isMatch name || g.isMatch path.text

end Rules

mutual

/-- The source files of a tree that stands at a path. -/
def filesOf (rules : Rules) (path : Path) : Entry → List Path
  | .file _ => if (SourceKind.ofPath? path).isSome then [path] else []
  | .link _ => []
  | .folder entries => filesAmong rules path entries

/-- The source files among the entries of a folder. -/
def filesAmong (rules : Rules) (folder : Path) : List (Text × Entry) → List Path
  | [] => []
  | (name, entry) :: entries =>
    let path := folder.join ⟨name⟩
    (if rules.ignores path then [] else filesOf rules path entry) ++
      filesAmong rules folder entries

end

/-- Why a path cannot be scanned. -/
inductive Fault where
  | missing (path : Path)
  | notFolder (path : Path)
  deriving Repr, DecidableEq

def Fault.message : Fault → Text
  | missing path => "path does not exist: ".toList ++ path.text
  | notFolder path => "path is not a directory: ".toList ++ path.text

/-- The source files under a folder, where `entry` is what stands at its path. -/
def scan (rules : Rules) (root : Path) (entry : Option Entry) : Except Fault (List Path) :=
  match entry with
  | none => .error (.missing root)
  | some (.folder entries) => .ok ((filesAmong rules root entries).mergeSort Path.atMost)
  | some _ => .error (.notFolder root)

end Scholia.Scan
