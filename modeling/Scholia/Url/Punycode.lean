import Scholia.Text.Basic
/-!
# Punycode

The label of a domain name in ASCII. The characters of ASCII come first. Then each other
character is added in ascending order: a number says how many places are passed before it, where
each turn through the label goes on to the next code point. A number is written in base 36, its
lowest digit first; a digit below the threshold of its place is the last one. The thresholds follow
from a bias that adapts to the numbers written before. Main statement: a digit is read back.
-/

namespace Scholia.Url.Punycode

/-- A digit of base 36. -/
def digit (n : Nat) : Char :=
  if n < 26 then Char.ofNat ('a'.toNat + n) else Char.ofNat ('0'.toNat + (n - 26))

/-- The value of a digit of base 36. -/
def digitValue? (c : Char) : Option Nat :=
  if 'a' ≤ c && c ≤ 'z' then some (c.toNat - 'a'.toNat)
  else if '0' ≤ c && c ≤ '9' then some (c.toNat - '0'.toNat + 26)
  else none

/-- **A digit is read back**. -/
theorem digitValue?_digit {n : Nat} (h : n < 36) : digitValue? (digit n) = some n := by
  have all : ∀ m ∈ List.range 36, digitValue? (digit m) = some m := by decide
  exact all n (List.mem_range.mpr h)

/-- The threshold of a place, which counts in steps of 36. -/
def threshold (bias place : Nat) : Nat :=
  if place ≤ bias then 1 else min (place - bias) 26

theorem threshold_pos (bias place : Nat) : 0 < threshold bias place := by
  unfold threshold
  split <;> omega

/-- A number, from a place on. -/
def digits (bias place n : Nat) : Text :=
  let t := threshold bias place
  if n < t then [digit n]
  else digit (t + (n - t) % (36 - t)) :: digits bias (place + 36) ((n - t) / (36 - t))
termination_by n
decreasing_by
  have := threshold_pos bias place
  exact Nat.lt_of_le_of_lt (Nat.div_le_self _ _) (by omega)

/-- The bias of a number that is divided by 35 until it is small, after `places`. -/
def biasFrom (places n : Nat) : Nat :=
  if h : n > 455 then biasFrom (places + 36) (n / 35) else places + 36 * n / (n + 38)
termination_by n

/-- The bias after a number that has put the character at the place `count`. -/
def adapt (isFirst : Bool) (n count : Nat) : Nat :=
  let n := if isFirst then n / 700 else n / 2
  biasFrom 0 (n + n / count)

/-! ## Writing -/

/-- A label that is being written. -/
structure State where
  output : Text
  /-- The places passed since the last character was added. -/
  passed : Nat
  bias : Nat
  /-- The characters that have been written. -/
  count : Nat

/-- One character of the label is passed while `code` is added. -/
def pass (basic code : Nat) (s : State) (c : Char) : State :=
  if c.toNat < code then { s with passed := s.passed + 1 }
  else if c.toNat = code then
    { output := s.output ++ digits s.bias 36 s.passed
      passed := 0
      bias := adapt (s.count = basic) s.passed (s.count + 1)
      count := s.count + 1 }
  else s

/-- These code points are added, where `next` is the one that would come next. -/
def add (label : Text) (basic : Nat) : Nat → List Nat → State → State
  | _, [], s => s
  | next, code :: codes, s =>
    let s := { s with passed := s.passed + (code - next) * (s.count + 1) }
    let s := label.foldl (pass basic code) s
    add label basic (code + 1) codes { s with passed := s.passed + 1 }

/-- A number put into an ascending list, unless it is there. -/
def insert (n : Nat) : List Nat → List Nat
  | [] => [n]
  | m :: rest => if n < m then n :: m :: rest else if n = m then m :: rest else m :: insert n rest

def isBasic (c : Char) : Bool := c.toNat < 0x80

/-- A label in ASCII, without its mark. -/
def encode (label : Text) : Text :=
  let basic := label.filter isBasic
  let codes := (label.filter (!isBasic ·)).foldr (fun c => insert c.toNat) []
  let start := if basic.isEmpty then [] else basic ++ ['-']
  (add label basic.length 0x80 codes ⟨start, 0, 72, basic.length⟩).output

/-! ## Reading -/

/-- A label that is being read. -/
structure Reading where
  label : Text
  /-- Where the next character is added at the earliest. -/
  place : Nat
  /-- The least code point of the next character. -/
  code : Nat
  bias : Nat
  /-- The number that is being read, as far as it has been. -/
  number : Nat
  /-- What the next digit counts, and its place. -/
  weight : Nat
  digitPlace : Nat

/-- Nothing has been added to these characters of ASCII. -/
def Reading.start (basic : Text) : Reading := ⟨basic, 0, 0x80, 72, 0, 1, 36⟩

/-- A character is added after `number` places, where each turn through the label goes on to the next
code point. -/
def Reading.add? (basic : Nat) (r : Reading) (number : Nat) : Option Reading := do
  let count := r.label.length + 1
  let code := r.code + (r.place + number) / count
  let place := (r.place + number) % count
  guard code.isValidChar
  return {
    label := r.label.take place ++ Char.ofNat code :: r.label.drop place
    place := place + 1
    code
    bias := adapt (r.label.length = basic) number count
    number := 0
    weight := 1
    digitPlace := 36 }

/-- One digit is read. -/
def Reading.step? (basic : Nat) (r : Reading) (c : Char) : Option Reading := do
  let n ← digitValue? c
  let t := threshold r.bias r.digitPlace
  let number := r.number + n * r.weight
  if n < t then r.add? basic number
  else return { r with number, weight := r.weight * (36 - t), digitPlace := r.digitPlace + 36 }

/-- The label that a text in ASCII stands for; none if the last number has no end. -/
def decode? (s : Text) : Option Text := do
  let (basic, digits) :=
    match Text.cutAtLast? ['-'] s with
    | some (c :: basic, digits) => (c :: basic, digits)
    | _ => ([], s)
  let r ← digits.foldlM (Reading.step? basic.length) (.start basic)
  guard (r.digitPlace = 36)
  return r.label

end Scholia.Url.Punycode
