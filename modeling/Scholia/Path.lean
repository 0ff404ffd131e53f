import Scholia.Text.Table
/-!
# Paths

A path is a text that names a file by *components*: the root, the current directory, the directory
above, or a name. Slashes separate components; empty parts and inner dots are no components, and a
dot counts only at the very front. Two texts can have the same components; comparison and removal of
a leading path go by components, while what is kept keeps its spelling.
-/

namespace Scholia

/-- A path as it is written. -/
structure Path where
  text : Text
  deriving Repr, DecidableEq

namespace Path

/-- A component of a path. -/
inductive Component where
  | root
  | current
  | above
  | name (text : Text)
  deriving Repr, DecidableEq

/-- Whether a part between slashes is a component. -/
def isComponent (part : Text) : Bool :=
  !(part.isEmpty || part == ['.'])

/-- The component that a part between slashes is. -/
def Component.ofPart (part : Text) : Component :=
  if part = ['.', '.'] then .above else .name part

/-- Whether a path starts at the root. -/
def hasRoot (p : Path) : Bool :=
  p.text.head? == some '/'

/-- The front that is a component of its own (a slash, a dot, or nothing) and what follows it. -/
def split (p : Path) : Text × Text :=
  match p.text with
  | '/' :: rest => (['/'], rest)
  | ['.'] => (['.'], [])
  | '.' :: '/' :: rest => (['.'], '/' :: rest)
  | text => ([], text)

/-- The component of the front. -/
def frontComponent : Text → List Component
  | ['/'] => [.root]
  | ['.'] => [.current]
  | _ => []

/-- The parts between slashes. -/
def parts (body : Text) : List Text :=
  Text.splitWhere (· == '/') body

/-- The components of a path, in order. -/
def components (p : Path) : List Component :=
  frontComponent p.split.1 ++ ((parts p.split.2).filter isComponent).map Component.ofPart

/-- Whether two paths have the same components. -/
def same (p q : Path) : Bool :=
  p.components == q.components

/-- Parts without those at the end that are no components. -/
def trimParts (parts : List Text) : List Text :=
  (parts.reverse.dropWhile (!isComponent ·)).reverse

/-- The path of a front and parts. -/
def ofParts (front : Text) (parts : List Text) : Path :=
  ⟨front ++ Text.join ['/'] (trimParts parts)⟩

/-- The last component, if it is a name. -/
def fileName? (p : Path) : Option Text :=
  match (trimParts (parts p.split.2)).getLast? with
  | some part => if isComponent part && part != ['.', '.'] then some part else none
  | none => none

/-- The path without its last component; the root and the empty path have none. -/
def parent? (p : Path) : Option Path :=
  let (front, body) := p.split
  match trimParts (parts body) with
  | [] => if front = ['.'] then some ⟨[]⟩ else none
  | kept => some (ofParts front kept.dropLast)

/-- What follows the last dot of a file name, unless nothing stands before that dot. -/
def extension? (p : Path) : Option Text := do
  let name ← p.fileName?
  let (stem, extension) ← Text.cutAtLast? ['.'] name
  guard !stem.isEmpty
  return extension

/-- A path inside another; a path from the root stands for itself. -/
def join (p q : Path) : Path :=
  if q.hasRoot then q
  else if p.text.isEmpty || p.text.getLast? = some '/' then ⟨p.text ++ q.text⟩
  else ⟨p.text ++ '/' :: q.text⟩

/-- Parts without the first `n` components and what stands between them. -/
def dropComponents : Nat → List Text → List Text
  | _, [] => []
  | n, part :: rest =>
    if !isComponent part then dropComponents n rest
    else
      match n with
      | 0 => part :: rest
      | n + 1 => dropComponents n rest

/-- What follows the components of `base` in a path, if it starts with them. -/
def relativeTo? (base p : Path) : Option Path :=
  let lead := base.components
  let (front, body) := p.split
  if !lead.isPrefixOf p.components then none
  else if lead.isEmpty then some (ofParts front (parts body))
  else
    let inBody := lead.length - (frontComponent front).length
    some (ofParts [] (dropComponents inBody (parts body)))

/-- The text of a component. -/
def Component.text : Component → Text
  | root => ['/']
  | current => ['.']
  | above => ['.', '.']
  | name text => text

/-- The path that components make up. -/
def ofComponents (components : List Component) : Path :=
  components.foldl (fun p c => p.join ⟨c.text⟩) ⟨[]⟩

/-- The order of components: the root, the dots, then names by code points. -/
def Component.before : Component → Component → Bool
  | root, root => false
  | root, _ => true
  | current, root => false
  | current, current => false
  | current, _ => true
  | above, above => false
  | above, name _ => true
  | above, _ => false
  | name s, name t => Text.before s t
  | name _, _ => false

/-- Whether a list of components comes before another. -/
def componentsBefore : List Component → List Component → Bool
  | _, [] => false
  | [], _ :: _ => true
  | c :: r, d :: s => if c = d then componentsBefore r s else c.before d

/-- Whether a path comes before another or has the same components. -/
def atMost (p q : Path) : Bool :=
  !componentsBefore q.components p.components

end Path

end Scholia
