import Scholia.Decimal.Shortest
import Scholia.Json.Basic
/-!
# Numbers in JSON text

What a literal stands for, where it is read as a natural number or as a double.

A double is read in two steps. The digits make a number as long as it stays below `2 ^ 64`; further
digits only move the point. This number is then multiplied or divided by a power of ten once, in
double arithmetic, so the last bit can differ from that of the nearest double.
-/

namespace Scholia.Json

/-- The parts of a literal. -/
structure Literal where
  negative : Bool
  whole : Text
  /-- The digits after the point, if there is one. -/
  fraction : Option Text
  /-- The sign of the exponent and its digits, if there is one. -/
  exponent : Option (Bool × Text)
  deriving Repr, DecidableEq

/-- The parts of a literal that is well written. -/
def Literal.ofText (s : Text) : Literal :=
  let negative := s.head? == some '-'
  let s := if negative then s.drop 1 else s
  let whole := s.takeWhile Char.isDigit
  let s := s.drop whole.length
  let fraction :=
    match s with
    | '.' :: r => some (r.takeWhile Char.isDigit)
    | _ => none
  let exponent :=
    match s.drop (fraction.elim 0 (·.length + 1)) with
    | _ :: '-' :: r => some (true, r)
    | _ :: '+' :: r => some (false, r)
    | _ :: r => some (false, r)
    | [] => none
  { negative, whole, fraction, exponent }

def digitValue (c : Char) : Nat := c.toNat - '0'.toNat

/-- The number that digits write. -/
def natOfDigits (digits : Text) : Nat :=
  digits.foldl (fun n c => n * 10 + digitValue c) 0

/-- The natural number of a literal, at most `limit`: digits alone. -/
def nat? (limit : Nat) (literal : Text) : Option Nat :=
  let l := Literal.ofText literal
  let n := natOfDigits l.whole
  if l.negative || l.fraction.isSome || l.exponent.isSome || n > limit then none else some n

/-- Digits added to a number as long as it stays below `2 ^ 64`; and those that are left. -/
def addDigits : Nat → Text → Nat × Text
  | n, [] => (n, [])
  | n, c :: r =>
    let next := n * 10 + digitValue c
    if next < Nat.pow 2 64 then addDigits next r else (n, c :: r)

/-- A double divided by a power of ten, by at most `10 ^ 308` at a time. -/
def divideBy (x : Float) (places : Nat) : Float :=
  if places ≤ 308 then x / Float.ofScientific 1 false places
  else if x == 0 then x
  else divideBy (x / Float.ofScientific 1 false 308) (places - 308)
termination_by places

/-- A number times a power of ten, unless it is too large for a double. -/
def scale? (n : Nat) (exponent : Int) : Option Float :=
  let x := n.toUInt64.toFloat
  match exponent with
  | .ofNat k =>
    if k ≤ 308 then
      let y := x * Float.ofScientific 1 false k
      if y.isInf then none else some y
    else if n = 0 then some x
    else none
  | .negSucc k => some (divideBy x (k + 1))

/-- The double of a literal, unless it is too large. -/
def float? (literal : Text) : Option Float := do
  let l := Literal.ofText literal
  let (n, passed) := addDigits 0 l.whole
  let (n, left) := addDigits n (l.fraction.getD [])
  let taken := (l.fraction.getD []).length - left.length
  let start : Int := passed.length - taken
  let x ←
    match l.exponent with
    | none => scale? n start
    | some (negative, digits) =>
      let e := natOfDigits digits
      if e ≥ Nat.pow 2 31 then if n = 0 || negative then some 0 else none
      else scale? n (if negative then start - e else start + e)
  return if l.negative then -x else x

/-- A double as a JSON value. -/
def ofFloat (x : Float) : Json :=
  if x.isFinite then .number (Decimal.render x) else .null

end Scholia.Json
