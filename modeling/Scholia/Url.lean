import Scholia.Url.Host
/-!
# Addresses on the network

The address that a request goes to, in its normal form: the scheme is http or https, the host is in
its own normal form, the number of the service is left out where it is that of the scheme, the path
goes neither to itself nor above, and what cannot stand is percent encoded. Tabs and line ends count
nowhere, a backslash is a slash, and a name and password before the host are no part of the address.
-/

namespace Scholia

/-- Where a request goes. -/
structure Url where
  /-- Whether the scheme is https. -/
  secure : Bool
  host : Url.Host
  /-- The number of the service at the host, unless it is that of the scheme. -/
  service : Option Nat
  /-- The parts of the path between slashes, one at least. -/
  path : List Text
  query : Option Text
  fragment : Option Text
  deriving Repr, DecidableEq

namespace Url

/-- A character that counts nowhere. -/
def isLayout (c : Char) : Bool := c == '\t' || c == '\n' || c == '\r'

def isSlash (c : Char) : Bool := c == '/' || c == '\\'

/-- The end of the part that names the server. -/
def endsServer (c : Char) : Bool := isSlash c || c == '?' || c == '#'

def schemeText (secure : Bool) : Text := if secure then "https".toList else "http".toList

/-- The service of a scheme. -/
def standardService (secure : Bool) : Nat := if secure then 443 else 80

/-- Whether a scheme is https, if it is one of the two. -/
def isSecure? (scheme : Text) : Option Bool :=
  [true, false].find? fun secure => Text.sameLetters scheme (schemeText secure)

/-- The host of a server and what follows its colon; colons inside brackets are part of the host. -/
def splitService : Bool → Text → Text × Text
  | _, [] => ([], [])
  | inBrackets, c :: r =>
    if c = ':' && !inBrackets then ([], r)
    else
      let (host, service) := splitService (c = '[' || (inBrackets && c != ']')) r
      (c :: host, service)

/-- The service that digits name, if it differs from that of the scheme. -/
def service? (secure : Bool) (digits : Text) : Option (Option Nat) :=
  if digits.isEmpty then some none
  else do
    let n ← Host.numberIn? 10 digits
    guard (n < Nat.pow 2 16)
    return if n = standardService secure then none else some n

/-- A part of a path with its dots, however they are written. -/
def plainDots (part : Text) : Text :=
  Text.replaceAll "%2e".toList ['.'] (Text.lowered part)

/-- A drive: a letter and a mark. It is never left. -/
def isDrive : Text → Bool
  | [letter, mark] => letter.isAlpha && (mark == ':' || mark == '|')
  | _ => false

/-- The parts that have been passed, last one first, without the last one. -/
def leave : List Text → List Text
  | [] => []
  | part :: rest => if isDrive part then part :: rest else rest

/-- The path of these parts after those passed, which stand last one first. A part that only moves
leaves an empty part at the end. -/
def walk : List Text → List Text → List Text
  | passed, [] => passed.reverse
  | passed, part :: rest =>
    let empty : List Text := if rest.isEmpty then [[]] else []
    if plainDots part = ['.', '.'] then walk (empty ++ leave passed) rest
    else if plainDots part = ['.'] then walk (empty ++ passed) rest
    else walk (Percent.encode Percent.standsInPath part :: passed) rest

/-- The path of a text, which starts with a slash unless it is empty. -/
def pathOf (s : Text) : List Text :=
  walk [] (Text.splitWhere isSlash (s.drop 1))

/-- A text without what follows the first mark, and that. -/
def splitMark (mark : Char) (s : Text) : Text × Option Text :=
  match Text.cutAt? [mark] s with
  | some (before, rest) => (before, some rest)
  | none => (s, none)

/-- The address that a text writes. -/
def ofText? (s : Text) : Option Url := do
  let (scheme, rest) ← Text.cutAt? [':'] (s.filter (!isLayout ·))
  let secure ← isSecure? scheme
  let rest := rest.dropWhile isSlash
  let server := rest.takeWhile (!endsServer ·)
  let (host, digits) := splitService false (((Text.cutAtLast? ['@'] server).map (·.2)).getD server)
  let host ← Host.ofText? host
  let service ← service? secure digits
  let (rest, fragment) := splitMark '#' (rest.drop server.length)
  let (path, query) := splitMark '?' rest
  return {
    secure, host, service
    path := pathOf path
    query := query.map (Percent.encode Percent.standsInQuery)
    fragment := fragment.map (Percent.encode Percent.standsInFragment) }

/-- An address as it is written. -/
def render (u : Url) : Text :=
  schemeText u.secure ++ "://".toList ++ u.host.render ++
    u.service.elim [] (fun n => ':' :: Text.ofNat n) ++
    u.path.flatMap ('/' :: ·) ++
    u.query.elim [] ('?' :: ·) ++
    u.fragment.elim [] ('#' :: ·)

/-- The greatest length of an address to which a request can go. -/
def maxLength : Nat := 65534

/-- Whether a request can go to an address: some names of hosts are no part of a request. -/
def isUsable (u : Url) : Bool :=
  u.render.length ≤ maxLength && u.host.render.all fun c => !"\"`\x7b\x7d".toList.contains c

end Url

end Scholia
