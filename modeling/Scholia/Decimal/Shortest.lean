import Scholia.Text.Basic
/-!
# Shortest decimals

The decimal with the fewest digits that reads back as a given double, and of those the nearest. A
positive finite double is `m * 2 ^ q`; the reals that round to it form an interval around it, with
its ends if and only if `m` is even. For one digit after the other the two neighbours of the value
on that decimal grid are tried, in exact arithmetic: the first grid with a neighbour in the interval
decides.

The layout is that of JSON writers: positional from `1e-5` up to sixteen digits before the point,
with a signed exponent otherwise, and always with a fraction or an exponent.
-/

namespace Scholia.Decimal

/-- A positive decimal `digits * 10 ^ exponent`. -/
structure Numeral where
  digits : Nat
  exponent : Int
  deriving Repr, DecidableEq

/-- A fraction with what rounds to it, all over one denominator. -/
structure Interval where
  low : Nat
  value : Nat
  high : Nat
  denominator : Nat
  /-- Whether the ends belong to it. -/
  closed : Bool
  deriving Repr, DecidableEq

/-- The interval of the double with these bits, the sign aside. -/
def Interval.ofBits (bits : Nat) : Interval :=
  let fraction := bits % Nat.pow 2 52
  let biased := bits / Nat.pow 2 52 % Nat.pow 2 11
  let m := if biased = 0 then fraction else Nat.pow 2 52 + fraction
  -- four times the value is `m * 2 ^ (shift - 1074)`
  let shift := biased - 1
  let below := if fraction = 0 && biased > 1 then 1 else 2
  { low := (4 * m - below) * Nat.pow 2 shift
    value := 4 * m * Nat.pow 2 shift
    high := (4 * m + 2) * Nat.pow 2 shift
    denominator := 4 * Nat.pow 2 1074
    closed := m % 2 = 0 }

namespace Interval

/-- The interval divided by a power of ten. -/
def scale (i : Interval) (exponent : Int) : Interval :=
  match exponent with
  | .ofNat k => { i with denominator := i.denominator * Nat.pow 10 k }
  | .negSucc k =>
    { i with
      low := i.low * Nat.pow 10 (k + 1)
      value := i.value * Nat.pow 10 (k + 1)
      high := i.high * Nat.pow 10 (k + 1) }

/-- Whether a natural number lies in it. -/
def contains (i : Interval) (n : Nat) : Bool :=
  let n := n * i.denominator
  if i.closed then i.low ≤ n && n ≤ i.high else i.low < n && n < i.high

/-- The natural number nearest to the value, of the two next to it that lie in the interval. -/
def nearest? (i : Interval) : Option Nat :=
  let floor := i.value / i.denominator
  match i.contains floor, i.contains (floor + 1) with
  | true, false => some floor
  | false, true => some (floor + 1)
  | false, false => none
  | true, true =>
    let below := i.value - floor * i.denominator
    let above := (floor + 1) * i.denominator - i.value
    if below < above then some floor
    else if above < below then some (floor + 1)
    else some (if floor % 2 = 0 then floor else floor + 1)

/-- The greatest power of ten that is not above the value. -/
def magnitude (i : Interval) : Int :=
  let guess : Int := (Nat.toDigits 10 i.value).length - (Nat.toDigits 10 i.denominator).length
  let s := i.scale guess
  if s.denominator ≤ s.value then guess else guess - 1

/-- The first decimal that reads back, from a grid on, in at most `fuel` grids. -/
def firstFrom (i : Interval) : Nat → Int → Numeral
  | 0, exponent => ⟨(i.scale exponent).value / (i.scale exponent).denominator, exponent⟩
  | fuel + 1, exponent =>
    match (i.scale exponent).nearest? with
    | some digits => ⟨digits, exponent⟩
    | none => firstFrom i fuel (exponent - 1)

end Interval

/-- A decimal without zeros at its end, at most `fuel` of them. -/
def Numeral.trim : Nat → Numeral → Numeral
  | 0, d => d
  | fuel + 1, d =>
    if d.digits != 0 && d.digits % 10 = 0 then trim fuel ⟨d.digits / 10, d.exponent + 1⟩ else d

/-- The shortest decimal of the positive double with these bits. Seventeen digits always read
back. -/
def shortest (bits : Nat) : Numeral :=
  let i := Interval.ofBits bits
  Numeral.trim 20 (i.firstFrom 17 i.magnitude)

def zeros (n : Nat) : Text := List.replicate n '0'

/-- A positive decimal in its layout. -/
def Numeral.render (d : Numeral) : Text :=
  let digits := Text.ofNat d.digits
  let point : Int := digits.length + d.exponent
  if 0 ≤ d.exponent && point ≤ 16 then digits ++ zeros d.exponent.toNat ++ ".0".toList
  else if 0 < point && point ≤ 16 then
    digits.take point.toNat ++ '.' :: digits.drop point.toNat
  else if -5 < point && point ≤ 0 then "0.".toList ++ zeros (-point).toNat ++ digits
  else
    let power := point - 1
    let exponent := (if power < 0 then '-' else '+') :: Text.ofNat power.natAbs
    let fraction := if digits.length = 1 then [] else '.' :: digits.drop 1
    digits.take 1 ++ fraction ++ 'e' :: exponent

/-- The text of a finite double. -/
def render (x : Float) : Text :=
  let bits := x.toBits.toNat
  let sign := if bits ≥ Nat.pow 2 63 then ['-'] else []
  let bits := bits % Nat.pow 2 63
  if bits = 0 then sign ++ "0.0".toList else sign ++ (shortest bits).render

end Scholia.Decimal
