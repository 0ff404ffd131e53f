import Scholia.Json.Written
import Scholia.Text.Basic
/-!
# Reading JSON text

The grammar is that of the standard: one value, with blanks around it and nothing else. A text that
leaves the grammar is read up to that place.
-/

namespace Scholia.Json

/-- The four blanks of JSON text. -/
def isSpace (c : Char) : Bool :=
  c == ' ' || c == '\n' || c == '\t' || c == '\r'

def skipSpace (s : Text) : Text := s.dropWhile isSpace

/-- The number that four hexadecimal digits write. -/
def hexUnit? (a b c d : Char) : Option Nat := do
  return (← Text.hexDigit? a) * 0x1000 + (← Text.hexDigit? b) * 0x100
    + (← Text.hexDigit? c) * 0x10 + (← Text.hexDigit? d)

/-- The character of a one-letter escape. -/
def shortEscape? (c : Char) : Option Char :=
  if c = '"' || c = '\\' || c = '/' then some c
  else if c = 'b' then some '\x08'
  else if c = 'f' then some '\x0c'
  else if c = 'n' then some '\n'
  else if c = 'r' then some '\r'
  else if c = 't' then some '\t'
  else none

/-- The rest of a string up to its closing quote, as units of 16 bits where it is escaped so, and
what follows the quote. -/
def stringUnits : Text → Option (List (Char ⊕ Nat) × Text)
  | [] => none
  | '"' :: r => some ([], r)
  | '\\' :: 'u' :: a :: b :: c :: d :: r => do
    let unit ← hexUnit? a b c d
    let (units, rest) ← stringUnits r
    return (.inr unit :: units, rest)
  | '\\' :: c :: r => do
    let c ← shortEscape? c
    let (units, rest) ← stringUnits r
    return (.inl c :: units, rest)
  | c :: r => do
    guard (c.toNat ≥ 0x20 && c != '\\')
    let (units, rest) ← stringUnits r
    return (.inl c :: units, rest)

/-- The text of units: a high surrogate joins the low one directly after it, and a surrogate without
its other half has none. -/
def textOfUnits? : List (Char ⊕ Nat) → Option Text
  | [] => some []
  | .inl c :: r => (textOfUnits? r).map (c :: ·)
  | .inr high :: .inr low :: r =>
    if 0xD800 ≤ high && high ≤ 0xDBFF then
      if 0xDC00 ≤ low && low ≤ 0xDFFF then
        (textOfUnits? r).map
          (Char.ofNat (0x10000 + (high - 0xD800) * 0x400 + (low - 0xDC00)) :: ·)
      else none
    else if 0xDC00 ≤ high && high ≤ 0xDFFF then none
    else (textOfUnits? (.inr low :: r)).map (Char.ofNat high :: ·)
  | .inr unit :: r =>
    if 0xD800 ≤ unit && unit ≤ 0xDFFF then none
    else (textOfUnits? r).map (Char.ofNat unit :: ·)

/-- Digits, at least one, and what follows them. -/
def digits? (s : Text) : Option (Text × Text) :=
  match s.takeWhile Char.isDigit with
  | [] => none
  | found => some (found, s.dropWhile Char.isDigit)

/-- The digits before the point: no zero before another digit. -/
def wholeDigits? : Text → Option (Text × Text)
  | '0' :: r => if (r.head?.map Char.isDigit).getD false then none else some (['0'], r)
  | s => digits? s

/-- The point and the digits after it, if there is a point. -/
def fraction? : Text → Option (Text × Text)
  | '.' :: r => (digits? r).map fun (found, rest) => ('.' :: found, rest)
  | s => some ([], s)

/-- The exponent, if there is one. -/
def exponent? : Text → Option (Text × Text)
  | e :: r =>
    if e = 'e' || e = 'E' then
      match r with
      | '+' :: r => (digits? r).map fun (found, rest) => (e :: '+' :: found, rest)
      | '-' :: r => (digits? r).map fun (found, rest) => (e :: '-' :: found, rest)
      | r => (digits? r).map fun (found, rest) => (e :: found, rest)
    else some ([], e :: r)
  | [] => some ([], [])

/-- The literal of a number and what follows it. -/
def number? (s : Text) : Option (Text × Text) := do
  let sign := s.take (if s.head? = some '-' then 1 else 0)
  let (whole, s) ← wholeDigits? (s.drop sign.length)
  let (fraction, s) ← fraction? s
  let (exponent, s) ← exponent? s
  return (sign ++ whole ++ fraction ++ exponent, s)

mutual

/-- The value at the front of a text and what follows it, unless the value is broken; in at most
`fuel` steps. -/
def writtenIn : Nat → Text → Written × Option Text
  | 0, _ => (.broken, none)
  | fuel + 1, s =>
    match skipSpace s with
    | '{' :: r =>
      match skipSpace r with
      | '}' :: r => (.object [], some r)
      | r =>
        let (fields, rest) := fieldsIn fuel r
        (.object fields, rest)
    | '[' :: r =>
      match skipSpace r with
      | ']' :: r => (.array [], some r)
      | r =>
        let (items, rest) := itemsIn fuel r
        (.array items, rest)
    | '"' :: r =>
      match stringUnits r with
      | some (units, rest) => (.string (textOfUnits? units), some rest)
      | none => (.broken, none)
    | 't' :: 'r' :: 'u' :: 'e' :: r => (.bool true, some r)
    | 'f' :: 'a' :: 'l' :: 's' :: 'e' :: r => (.bool false, some r)
    | 'n' :: 'u' :: 'l' :: 'l' :: r => (.null, some r)
    | s =>
      match number? s with
      | some (literal, rest) => (.number literal, some rest)
      | none => (.broken, none)

/-- The items of an array up to its closing bracket. -/
def itemsIn : Nat → Text → List Written × Option Text
  | 0, _ => ([.broken], none)
  | fuel + 1, s =>
    match writtenIn fuel s with
    | (item, none) => ([item], none)
    | (item, some s) =>
      match skipSpace s with
      | ',' :: s =>
        let (items, rest) := itemsIn fuel s
        (item :: items, rest)
      | ']' :: s => ([item], some s)
      | _ => ([item, .broken], none)

/-- The fields of an object up to its closing brace. What stands in the place of a name is read as a
value. -/
def fieldsIn : Nat → Text → List (Written × Written) × Option Text
  | 0, _ => ([(.broken, .broken)], none)
  | fuel + 1, s =>
    match writtenIn fuel s with
    | (.string name, some s) =>
      match skipSpace s with
      | ':' :: s =>
        match writtenIn fuel s with
        | (value, none) => ([(.string name, value)], none)
        | (value, some s) =>
          match skipSpace s with
          | ',' :: s =>
            let (fields, rest) := fieldsIn fuel s
            ((.string name, value) :: fields, rest)
          | '}' :: s => ([(.string name, value)], some s)
          | _ => ([(.string name, value), (.broken, .broken)], none)
      | _ => ([(.string name, .broken)], none)
    | (other, _) => ([(other, .broken)], none)

end

/-- The value at the front of a text and what follows it, unless the value is broken. Every two
steps take a character at least, so twice the length suffices. -/
def front (s : Text) : Written × Option Text :=
  writtenIn (2 * s.length + 2) s

/-- What a text writes, if nothing but blanks follows it. -/
def written? (s : Text) : Option Written :=
  match front s with
  | (value, some rest) => if (skipSpace rest).isEmpty then some value else none
  | (_, none) => none

/-- The value that a text writes. -/
def parse? (s : Text) : Option Json := do
  (← written? s).value?

end Scholia.Json
