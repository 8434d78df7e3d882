import DiagramEditor.Decimal.Dyadic

/-!
# Shortest decimal digits of a double

Every real number between two neighbours' midpoints rounds to the same
double. For one, two, up to seventeen digits the two points of that decimal
grid around the value are tried; the first grid with a point inside the
interval gives the digits, the nearer point winning and an exact tie going to
the even digit.
-/

set_option autoImplicit false

namespace DiagramEditor.Decimal

/-- The decimal `digits * 10 ^ exponent`. -/
structure Digits where
  digits : Nat
  exponent : Int
deriving DecidableEq, Repr

/-- The value and the ends of its rounding interval, over one denominator. -/
structure Interval where
  low : Nat
  value : Nat
  high : Nat
  denominator : Nat
  /-- The ends themselves round to the value. -/
  closed : Bool

def Dyadic.interval (d : Dyadic) : Interval :=
  let up := Nat.pow 2 (d.exponent - 2).toNat
  { low := (4 * d.mantissa - if d.narrowBelow then 1 else 2) * up
    value := 4 * d.mantissa * up
    high := (4 * d.mantissa + 2) * up
    denominator := Nat.pow 2 (2 - d.exponent).toNat
    closed := d.mantissa % 2 == 0 }

/-- The interval measured in units of `10 ^ exponent`. -/
def Interval.scale (i : Interval) (exponent : Int) : Interval :=
  let up := Nat.pow 10 (-exponent).toNat
  { i with
    low := i.low * up, value := i.value * up, high := i.high * up
    denominator := i.denominator * Nat.pow 10 exponent.toNat }

def Interval.holds (i : Interval) (n : Nat) : Bool :=
  let point := n * i.denominator
  if i.closed then decide (i.low ≤ point ∧ point ≤ i.high)
  else decide (i.low < point ∧ point < i.high)

/-- The grid point to write, if one of the two around the value rounds to it. -/
def Interval.gridPoint? (i : Interval) : Option Nat :=
  let below := i.value / i.denominator
  let rest := i.value % i.denominator
  match i.holds below, i.holds (below + 1) with
  | false, false => none
  | true, false => some below
  | false, true => some (below + 1)
  | true, true =>
    if 2 * rest < i.denominator then some below
    else if i.denominator < 2 * rest then some (below + 1)
    else if below % 2 = 0 then some below else some (below + 1)

def digitCount : Nat → Nat → Nat
  | 0, _ => 0
  | fuel + 1, n => if n < 10 then 1 else digitCount fuel (n / 10) + 1

/-- How many places after the point the first digit other than zero stands. -/
def leadingZeros (denominator : Nat) : Nat → Nat → Nat
  | 0, _ => 0
  | fuel + 1, value =>
    if denominator ≤ value then 0 else leadingZeros denominator fuel (10 * value) + 1

/-- The power of ten of the first digit. -/
def Interval.leadingExponent (i : Interval) : Int :=
  if i.denominator ≤ i.value then digitCount 400 (i.value / i.denominator) - 1
  else -(leadingZeros i.denominator 400 i.value)

def search (i : Interval) (leading : Int) : Nat → Nat → Digits
  | 0, count => ⟨i.value / i.denominator, leading - count⟩
  | more + 1, count =>
    let exponent := leading - count
    match (i.scale exponent).gridPoint? with
    | some n => ⟨n, exponent⟩
    | none => search i leading more (count + 1)

/-- Moves the zeros at the end into the exponent. -/
def Digits.trim : Nat → Digits → Digits
  | 0, d => d
  | fuel + 1, d =>
    if d.digits ≠ 0 ∧ d.digits % 10 = 0 then Digits.trim fuel ⟨d.digits / 10, d.exponent + 1⟩ else d

/-- The shortest digits that read back as the double, without its sign. -/
def shortest (d : Dyadic) : Digits :=
  if d.mantissa = 0 then ⟨0, 0⟩
  else
    let i := d.interval
    (search i i.leadingExponent 17 0).trim 20

end DiagramEditor.Decimal
