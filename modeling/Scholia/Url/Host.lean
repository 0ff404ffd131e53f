import Scholia.Text.Basic
import Scholia.Url.Name
/-!
# Hosts

A host is a name or a number. A number is an address of 32 bits, in one to four parts, or in
brackets one of 128 bits. A name whose last part is a number has to be an address.
-/

namespace Scholia.Url

/-- Where a server is found. -/
inductive Host where
  | name (text : Text)
  | short (address : Nat)
  /-- An address in eight pieces of 16 bits. -/
  | long (pieces : List Nat)
  deriving Repr, DecidableEq

namespace Host

/-! ## Numbers -/

/-- The value of a digit of a base up to sixteen. -/
def digitIn? (base : Nat) (c : Char) : Option Nat :=
  (Text.hexDigit? c).filter (· < base)

/-- The number that digits of a base write; none for no digits. -/
def numberIn? (base : Nat) (s : Text) : Option Nat := do
  guard !s.isEmpty
  s.foldlM (fun n c => return n * base + (← digitIn? base c)) 0

/-- A part of an address: a zero in front makes it octal, and `0x` hexadecimal. -/
def part? : Text → Option Nat
  | ['0', 'x'] => some 0
  | '0' :: 'x' :: r => numberIn? 16 r
  | '0' :: c :: r => numberIn? 8 (c :: r)
  | s => numberIn? 10 s

/-- The parts between dots, without an empty one at the end. -/
def dotted (s : Text) : List Text :=
  let parts := Text.splitWhere (· == '.') s
  if parts.length > 1 && parts.getLast? = some [] then parts.dropLast else parts

/-- Whether the last part is a number. -/
def endsInNumber (s : Text) : Bool :=
  (dotted s).getLast?.any fun last => (numberIn? 10 last).isSome || (part? last).isSome

/-- The address of 32 bits that parts write. Each but the last is a byte, and the last one gives all
bytes that are left. -/
def short? (s : Text) : Option Host := do
  let numbers ← (dotted s).mapM part?
  let last ← numbers.getLast?
  let front := numbers.dropLast
  guard (front.length < 4 && front.all (· < 256) && last < Nat.pow 256 (4 - front.length))
  let address := front.foldl (fun n byte => n * 256 + byte) 0
  return .short (address * Nat.pow 256 (4 - front.length) + last)

/-- A byte in decimal digits, without a zero in front. -/
def byte? (s : Text) : Option Nat := do
  let n ← numberIn? 10 s
  guard (n < 256 && (s.length = 1 || s.head? != some '0'))
  return n

/-- A piece of an address of 128 bits. -/
def piece? (s : Text) : Option Nat := do
  guard (s.length ≤ 4)
  numberIn? 16 s

/-- The pieces that a text between colons writes at the end of an address: one, or two as bytes. -/
def lastPieces? (s : Text) : Option (List Nat) :=
  if s.contains '.' then do
    match ← (Text.splitWhere (· == '.') s).mapM byte? with
    | [a, b, c, d] => return [a * 256 + b, c * 256 + d]
    | _ => none
  else (piece? s).map ([·])

/-- Pieces, the last of them read by `readLast`. -/
def pieces? (readLast : Text → Option (List Nat)) (s : Text) : Option (List Nat) :=
  if s.isEmpty then some []
  else do
    let parts := Text.splitWhere (· == ':') s
    return (← parts.dropLast.mapM piece?) ++ (← readLast (parts.getLastD []))

/-- An address of 128 bits. Two colons stand for the zeros that are missing, one piece at least. -/
def long? (s : Text) : Option Host :=
  match Text.cutAt? [':', ':'] s with
  | none => do
    let pieces ← pieces? lastPieces? s
    guard (pieces.length = 8)
    return .long pieces
  | some (front, back) => do
    let front ← pieces? (fun part => (piece? part).map ([·])) front
    let back ← pieces? lastPieces? back
    guard (front.length + back.length < 8)
    return .long (front ++ List.replicate (8 - front.length - back.length) 0 ++ back)

/-! ## Reading and writing -/

/-- The host that a text names. -/
def ofText? : Text → Option Host
  | '[' :: r => if r.getLast? = some ']' then long? r.dropLast else none
  | s => do
    let name ← Name.ofText? s
    if endsInNumber name then short? name else return .name name

/-- The place and the length of the longest run of zeros, the first of those. -/
def longestZeros (pieces : List Nat) : Nat × Nat :=
  let runs := (List.range pieces.length).map fun i => (i, ((pieces.drop i).takeWhile (· = 0)).length)
  runs.foldl (fun best run => if run.2 > best.2 then run else best) (0, 0)

def renderPieces (pieces : List Nat) : Text :=
  Text.join [':'] (pieces.map (Nat.toDigits 16))

/-- A host as it is written. -/
def render : Host → Text
  | name text => text
  | short n =>
    Text.join ['.']
      ([n / 0x1000000, n / 0x10000 % 256, n / 0x100 % 256, n % 256].map Text.ofNat)
  | long pieces =>
    let (start, length) := longestZeros pieces
    let text :=
      if length < 2 then renderPieces pieces
      else renderPieces (pieces.take start) ++ [':', ':'] ++ renderPieces (pieces.drop (start + length))
    '[' :: text ++ [']']

end Host

end Scholia.Url
