import Scholia.Storage.Basic
/-!
# Storage in memory

A tree of files and folders that answers the calls on storage. A path is followed part by part from
the root: each part but the last has to be a folder, and a link is replaced by its target, at most
forty times. Names and paths have a greatest length, in bytes, and a path holds no zero character.
-/

namespace Scholia.Storage

/-- Why a call fails. -/
inductive Fault where
  | missing
  | taken
  | notFolder
  | isFolder
  | tooManyLinks
  | tooLong
  | zeroCharacter
  | notText
  deriving Repr, DecidableEq

def Fault.message : Fault → Text
  | missing => "No such file or directory (os error 2)".toList
  | taken => "File exists (os error 17)".toList
  | notFolder => "Not a directory (os error 20)".toList
  | isFolder => "Is a directory (os error 21)".toList
  | tooManyLinks => "Too many levels of symbolic links (os error 40)".toList
  | tooLong => "File name too long (os error 36)".toList
  | zeroCharacter => "file name contained an unexpected NUL byte".toList
  | notText => "stream did not contain valid UTF-8".toList

/-! ## Trees -/

namespace Entry

/-- The entry of a name in a folder. -/
def named (name : Text) (entries : List (Text × Entry)) : Option Entry :=
  (entries.find? (·.1 == name)).map (·.2)

/-- The entries of a folder with one of that name put among them. -/
def setNamed (name : Text) (entry : Entry) : List (Text × Entry) → List (Text × Entry)
  | [] => [(name, entry)]
  | (n, e) :: rest => if n = name then (n, entry) :: rest else (n, e) :: setNamed name entry rest

/-- The entry that names lead to. -/
def get? : List Text → Entry → Option Entry
  | [], e => some e
  | name :: names, folder entries => (named name entries).bind (get? names)
  | _ :: _, _ => none

/-- The tree with an entry put where names lead; all but the last have to be folders. -/
def put (new : Entry) : List Text → Entry → Entry
  | [], _ => new
  | name :: names, folder entries =>
    folder (setNamed name (put new names ((named name entries).getD (folder []))) entries)
  | _ :: _, e => e

mutual

/-- The files of a tree with their paths, links left out. -/
def files (path : Path) : Entry → List (Path × Content)
  | file content => [(path, content)]
  | link _ => []
  | folder entries => filesAmong path entries

/-- The files of the entries of a folder. -/
def filesAmong (path : Path) : List (Text × Entry) → List (Path × Content)
  | [] => []
  | (name, entry) :: entries => entry.files (path.join ⟨name⟩) ++ filesAmong path entries

end

end Entry

/-! ## Paths -/

/-- Where a path leads. -/
inductive Place where
  | found (names : List Text) (entry : Entry)
  /-- Nothing is there, but a folder for it. -/
  | vacant (names : List Text)
  deriving Repr

/-- The greatest number of links that a path may lead through. -/
def maxLinks : Nat := 40

/-- The greatest length of a name in a folder. -/
def maxName : Nat := 255

/-- The greatest length of a path. -/
def maxPath : Nat := 4095

/-- Where the parts of a path lead from the folder `here`, through at most `links` links. -/
def locate (tree : Entry) (links : Nat) (here : List Text) :
    List Text → Except Fault Place
  | [] =>
    match tree.get? here with
    | some entry => .ok (.found here entry)
    | none => .error .missing
  | part :: rest =>
    match tree.get? here with
    | some (.folder entries) =>
      if !Path.isComponent part then locate tree links here rest
      else if part = ['.', '.'] then locate tree links here.dropLast rest
      else if Text.width part > maxName then .error .tooLong
      else
        match Entry.named part entries, links with
        | none, _ =>
          if rest.isEmpty then .ok (.vacant (here ++ [part])) else .error .missing
        | some (.link _), 0 => .error .tooManyLinks
        | some (.link target), links + 1 =>
          locate tree links (if target.hasRoot then [] else here) (Path.parts target.text ++ rest)
        | some _, links => locate tree links (here ++ [part]) rest
    | _ => .error .notFolder
termination_by parts => (links, parts.length)

/-- Files and folders in memory. -/
structure Memory where
  /-- The root folder. -/
  tree : Entry
  deriving Repr

namespace Memory

def empty : Memory := ⟨.folder []⟩

/-- Why a path leads nowhere, whatever is there. -/
def pathFault? (p : Path) : Option Fault :=
  if p.text.contains '\x00' then some .zeroCharacter
  else if p.text.isEmpty then some .missing
  else if Text.width p.text > maxPath then some .tooLong
  else none

/-- Where a path leads. -/
def locate (m : Memory) (p : Path) : Except Fault Place :=
  match pathFault? p with
  | some fault => .error fault
  | none => Storage.locate m.tree maxLinks [] (Path.parts p.text)

/-- What stands at a path. -/
def look (m : Memory) (p : Path) : Option Entry :=
  match m.locate p with
  | .ok (.found _ entry) => some entry
  | _ => none

def isFolder (m : Memory) (p : Path) : Bool :=
  match m.look p with
  | some (.folder _) => true
  | _ => false

/-- The text of a file. -/
def read (m : Memory) (p : Path) : Except Fault Text := do
  match ← m.locate p with
  | .found _ (.file content) => (content.text?.map Except.ok).getD (.error .notText)
  | .found _ _ => .error .isFolder
  | .vacant _ => .error .missing

/-- A file gets a content. -/
def write (m : Memory) (p : Path) (content : Content) : Except Fault Memory := do
  match ← m.locate p with
  | .found names (.file _) | .vacant names => return ⟨Entry.put (.file content) names m.tree⟩
  | .found _ _ => .error .isFolder

/-- One folder is made. -/
def makeFolder (m : Memory) (p : Path) : Except Fault Memory := do
  match ← m.locate ⟨Text.trimEndWhere (· == '/') p.text⟩ with
  | .vacant names => return ⟨Entry.put (.folder []) names m.tree⟩
  | .found _ _ => .error .taken

/-- One folder is made, unless it is there. -/
def ensureFolder (m : Memory) (p : Path) : Except Fault Memory :=
  match m.makeFolder p with
  | .ok m => .ok m
  | .error fault => if m.isFolder p then .ok m else .error fault

/-- A folder and at most `depth` of those that lead to it are made. -/
def makeFolders (p : Path) : Nat → Memory → Except Fault Memory
  | 0, m => m.ensureFolder p
  | depth + 1, m =>
    if p.text.isEmpty then .ok m
    else
      match m.makeFolder p, p.parent? with
      | .error .missing, some parent => do
        (← makeFolders parent depth m).ensureFolder p
      | _, _ => m.ensureFolder p

/-- The answer to a call, and the files and folders after it. -/
def answer : (c : Call) → StateM Memory c.Answer
  | .read file => fun m => ((m.read file).mapError Fault.message, m)
  | .write file content => fun m =>
    match m.write file content with
    | .ok m' => (.ok (), m')
    | .error fault => (.error fault.message, m)
  | .makeFolders folder => fun m =>
    match makeFolders folder folder.text.length m with
    | .ok m' => (.ok (), m')
    | .error fault => (.error fault.message, m)
  | .look path => fun m => (m.look path, m)

end Memory

end Scholia.Storage
