import Scholia.Text.Basic
/-!
# Content types

Whether the type that a request gives for its body is JSON: `application/json`, or an application
type with the suffix `+json`, in any case and with any parameters. A type that is not well written
is none.
-/

namespace Scholia.Service.ContentType

/-- A character of a name. -/
def isToken (c : Char) : Bool :=
  c.isAlphanum || "!#$%&'*+-.^_`|~".toList.contains c

/-- A name and what follows it. -/
def name? (s : Text) : Option (Text × Text) :=
  let name := s.takeWhile isToken
  if name.isEmpty then none else some (name, s.drop name.length)

/-- A character between quotes. -/
def isQuotable (c : Char) : Bool := 0x20 ≤ c.toNat && c.toNat < 0x7F

def isSpace (c : Char) : Bool := c == ' '

/-- What follows a semicolon, or nothing at the end. -/
def afterSemicolon? : Text → Option Text
  | [] => some []
  | ';' :: r => some r
  | _ => none

/-- What follows a quoted value. There is one character at least between the quotes, which may be a
quote itself. -/
def afterQuoted? : Text → Option Text
  | [] => none
  | c :: r => do
    let (value, r) ← Text.cutAt? ['"'] r
    guard ((c :: value).all isQuotable)
    afterSemicolon? (Text.trimStartWhere isSpace r)

/-- What follows the value of a parameter; a value that is not quoted may be empty at the end. -/
def afterValue? : Text → Option Text
  | '"' :: r => afterQuoted? r
  | ';' :: _ => none
  | s => afterSemicolon? (Text.trimStartWhere isToken s)

/-- Whether a text is a list of at most `fuel` parameters. -/
def isParameters : Nat → Text → Bool
  | 0, s => s.all isSpace
  | fuel + 1, s =>
    match Text.trimStartWhere isSpace s with
    | [] => true
    | s =>
      match name? s with
      | some (_, '=' :: r) => (afterValue? r).any (isParameters fuel)
      | _ => false

/-- Whether the second part of a type is JSON. It has a suffix if a plus stands in it after the
first character. -/
def isJsonSubtype (subtype : Text) : Bool :=
  match Text.cutAtLast? ['+'] subtype with
  | some (c :: base, suffix) =>
    Text.sameLetters (c :: base) "json".toList || Text.sameLetters suffix "json".toList
  | _ => Text.sameLetters subtype "json".toList

/-- Whether a content type is JSON. -/
def isJson (contentType : Text) : Bool :=
  match name? contentType with
  | some (type, '/' :: r) =>
    match name? r with
    | some (subtype, rest) =>
      Text.sameLetters type "application".toList && isJsonSubtype subtype &&
        (afterSemicolon? rest).any fun r => isParameters r.length r
    | none => false
  | _ => false

end Scholia.Service.ContentType
