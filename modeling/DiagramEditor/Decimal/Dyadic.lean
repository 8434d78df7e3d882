/-!
# Doubles as dyadic numbers

A finite double is a sign, a whole mantissa and a power of two. Everything
that must be exact about a double is decided on these three parts, in `Nat`
and `Int`.
-/

set_option autoImplicit false

namespace DiagramEditor.Decimal

/-- The number `± mantissa * 2 ^ exponent`. -/
structure Dyadic where
  negative : Bool
  mantissa : Nat
  exponent : Int
  /-- The next double below is only half as far away as the next one above. -/
  narrowBelow : Bool
deriving DecidableEq, Repr

def fractionBits : Nat := Nat.pow 2 52

def exponentCodes : Nat := Nat.pow 2 11

/-- Reads the three fields of a double. Meaningless for infinities. -/
def Dyadic.ofBits (bits : Nat) : Dyadic :=
  let fraction := bits % fractionBits
  let code := bits / fractionBits % exponentCodes
  let negative := decide (bits / fractionBits / exponentCodes = 1)
  if code = 0 then ⟨negative, fraction, -1074, false⟩
  else ⟨negative, fraction + fractionBits, code - 1075, decide (fraction = 0 ∧ 1 < code)⟩

def Dyadic.ofFloat (x : Float) : Dyadic := .ofBits x.toBits.toNat

/-- No fraction is left when the binary point is written out. -/
def Dyadic.isWhole (d : Dyadic) : Bool :=
  decide (0 ≤ d.exponent) || decide (d.mantissa % Nat.pow 2 (-d.exponent).toNat = 0)

end DiagramEditor.Decimal
