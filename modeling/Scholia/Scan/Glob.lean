import Scholia.Text.Basic
/-!
# Glob patterns

A pattern over whole texts: `?` is any character, `*` any text, slashes included, and a class in
brackets any of its characters, or any other if it begins with `!`. A part `**` between slashes
stands for any number of parts. A pattern that is not well formed means nothing.
-/

namespace Scholia.Scan

/-- Characters between two bounds, which count as well. -/
structure Range where
  first : Char
  last : Char
  deriving Repr, DecidableEq

def Range.holds (r : Range) (c : Char) : Bool :=
  r.first.toNat ≤ c.toNat && c.toNat ≤ r.last.toNat

/-- The ranges of a class; a single character is a range. -/
def ranges : Text → List Range
  | first :: '-' :: last :: r => ⟨first, last⟩ :: ranges r
  | c :: r => ⟨c, c⟩ :: ranges r
  | [] => []

/-- A part of a pattern. -/
inductive Token where
  | literal (c : Char)
  | anyChar
  | anyText
  /-- Any number of parts between slashes. -/
  | anyParts
  | within (ranges : List Range)
  | without (ranges : List Range)
  deriving Repr, DecidableEq

/-- A pattern. -/
abbrev Glob := List Token

namespace Glob

/-- The token of a class of characters after its opening, where `c` is the first of them. -/
def classAt? (token : List Range → Token) (c : Char) (r : Text) : Option (Token × Text) :=
  (Text.cutAt? [']'] r).map fun (body, _) => (token (ranges (c :: body)), c :: body ++ [']'])

/-- The token that begins with `c`, before the text `r`, with the characters of `r` that belong to
it. -/
def tokenAt? (before : Option Char) (c : Char) (r : Text) : Option (Token × Text) :=
  match c, r with
  | '?', _ => some (.anyChar, [])
  | '*', '*' :: '*' :: _ => none
  | '*', '*' :: r =>
    if before != none && before != some '/' then none
    else
      match r with
      | [] => some (.anyParts, ['*'])
      | '/' :: _ => some (.anyParts, ['*', '/'])
      | _ => none
  | '*', _ => some (.anyText, [])
  | '[', '!' :: c :: r => (classAt? .without c r).map fun (t, taken) => (t, '!' :: taken)
  | '[', '!' :: [] => none
  | '[', c :: r => classAt? .within c r
  | '[', [] => none
  | c, _ => some (.literal c, [])

/-- Read tokens, the last one first, with one more. Two tokens for any number of parts follow each
other only at the start. -/
def push : Token → Glob → Glob
  | .anyParts, .anyParts :: t :: r => .anyParts :: t :: r
  | t, acc => t :: acc

/-- The tokens of a pattern after the tokens `acc`, the last one first, and the character `before`,
when `skip` characters of the last token are still to pass. -/
def parseFrom (acc : Glob) (before : Option Char) : Nat → Text → Option Glob
  | _, [] => some acc.reverse
  | skip + 1, c :: r => parseFrom acc (some c) skip r
  | 0, c :: r =>
    match tokenAt? before c r with
    | some (token, taken) => parseFrom (push token acc) (some c) taken.length r
    | none => none

/-- The pattern that a text writes. -/
def parse? (text : Text) : Option Glob :=
  parseFrom [] none 0 text

/-- Whether a predicate holds of what follows some start of a text. -/
def anyTail (p : Text → Bool) : Text → Bool
  | [] => p []
  | c :: r => p (c :: r) || anyTail p r

/-- Whether a predicate holds of what follows some slash of a text, or of the empty text. -/
def anyPart (p : Text → Bool) : Text → Bool
  | [] => p []
  | c :: r => (c == '/' && p r) || anyPart p r

/-- Whether a token stands for a character. -/
def accepts : Token → Char → Bool
  | .literal d, c => c == d
  | .within ranges, c => ranges.any (·.holds c)
  | .without ranges, c => !ranges.any (·.holds c)
  | _, _ => true

/-- Whether a pattern stands for a text. -/
def isMatch : Glob → Text → Bool
  | [], s => s.isEmpty
  | .anyText :: g, s => anyTail (isMatch g) s
  | .anyParts :: g, s => isMatch g s || anyPart (isMatch g) s
  | _ :: _, [] => false
  | t :: g, c :: s => accepts t c && isMatch g s

end Glob

end Scholia.Scan
