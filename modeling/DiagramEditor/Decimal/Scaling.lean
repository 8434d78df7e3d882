/-!
# Reading decimals

A decimal is read from its leading digits, as many as fit a 64-bit word, and
one power of ten: the word is rounded to a double and then multiplied or
divided by the rounded power. Powers past `10 ^ 308` are taken in steps.
-/

set_option autoImplicit false

namespace DiagramEditor.Decimal

def wordLimit : Nat := Nat.pow 2 64

/-- Digits taken so far, and how many were left over. -/
structure Significand where
  value : Nat
  dropped : Nat
deriving DecidableEq, Repr

def digitValue (c : Char) : Nat := c.toNat - '0'.toNat

/-- Takes digits while the word holds them; the others are only counted. -/
def takeDigits : Nat → List Char → Significand
  | value, [] => ⟨value, 0⟩
  | value, c :: rest =>
    let next := 10 * value + digitValue c
    if next < wordLimit then takeDigits next rest else ⟨value, rest.length + 1⟩

def powerOfTen (n : Nat) : Float := OfScientific.ofScientific 1 false n

/-- Divides by a power of ten of any size. -/
def scaleDown : Nat → Nat → Float → Float
  | 0, _, x => x
  | fuel + 1, power, x =>
    if power ≤ 308 then x / powerOfTen power
    else if x == 0 then x
    else scaleDown fuel (power - 308) (x / powerOfTen 308)

/-- The double `significand * 10 ^ exponent`, or `none` where no double is that large. -/
def scale? (significand : Nat) (exponent : Int) : Option Float :=
  let x := significand.toUInt64.toFloat
  if exponent < 0 then some (scaleDown 8 exponent.natAbs x)
  else if exponent.natAbs ≤ 308 then
    let y := x * powerOfTen exponent.natAbs
    if y.isFinite then some y else none
  else if significand = 0 then some 0 else none

end DiagramEditor.Decimal
