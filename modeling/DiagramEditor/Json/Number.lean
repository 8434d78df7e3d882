import DiagramEditor.Decimal.Layout
import DiagramEditor.Decimal.Scaling

/-!
# Numbers of a document

Whole numbers written without point or exponent are kept exactly while they
fit a signed or an unsigned 64-bit word; every other number is a finite double.
The two kinds differ even where their values agree.
-/

set_option autoImplicit false

namespace DiagramEditor.Json

def leastInt : Int := -Int.ofNat (Nat.pow 2 63)

def intLimit : Int := Int.ofNat (Nat.pow 2 64)

inductive Number where
  | int (n : Int) (exact : leastInt ≤ n ∧ n < intLimit)
  | float (x : Float) (finite : x.isFinite = true)
deriving DecidableEq

namespace Number

def ofInt? (n : Int) : Option Number :=
  if h : leastInt ≤ n ∧ n < intLimit then some (.int n h) else none

def ofFloat? (x : Float) : Option Number :=
  if h : x.isFinite = true then some (.float x h) else none

/-- The nearest double. -/
def toFloat : Number → Float
  | .int n _ => Float.ofInt n
  | .float x _ => x

/-- A whole number, be it written with a point or without. -/
def isWhole : Number → Bool
  | .int _ _ => true
  | .float x _ => (Decimal.Dyadic.ofFloat x).isWhole

/-- Equal as members of a document: same kind, same value. -/
def same : Number → Number → Bool
  | .int a _, .int b _ => a == b
  | .float a _, .float b _ => a == b
  | _, _ => false

instance : BEq Number := ⟨same⟩

/-- Doubles are positional from `0.00001` up to sixteen whole digits and always
show a point or an exponent. -/
def layout : Decimal.Layout :=
  { positionalFrom := -5, positionalTo := 15, wholeTail := ".0", exponentMark := "e", plusSign := "+" }

def print : Number → String
  | .int n _ => toString n
  | .float x _ => layout.writeFloat x

/-- The parts of a written number: `-` or not, whole digits, digits after the
point if there is one, exponent if there is one. -/
structure Lexeme where
  negative : Bool
  whole : List Char
  fraction : Option (List Char)
  exponent : Option (Bool × List Char)

def digitsValue (cs : List Char) : Nat := cs.foldl (fun n c => 10 * n + Decimal.digitValue c) 0

def Lexeme.power (l : Lexeme) : Int :=
  match l.exponent with
  | none => 0
  | some (negative, digits) => if negative then -(digitsValue digits : Int) else digitsValue digits

/-- The double a number reads as; `none` where it is too large. -/
def Lexeme.toFloat? (l : Lexeme) : Option Float :=
  let whole := Decimal.takeDigits 0 l.whole
  let fraction := l.fraction.getD []
  let all := Decimal.takeDigits whole.value fraction
  let taken : Int := fraction.length - all.dropped
  let size := Decimal.scale? all.value (whole.dropped - taken + l.power)
  if l.negative then size.map (- ·) else size

def Lexeme.isPlain (l : Lexeme) : Bool := l.fraction.isNone && l.exponent.isNone

/-- Zero with a minus sign is no whole number. -/
def Lexeme.toInt? (l : Lexeme) : Option Number :=
  let n := digitsValue l.whole
  if l.negative then
    if n = 0 ∨ Nat.pow 2 63 < n then none else ofInt? (-(n : Int))
  else ofInt? n

/-- Nothing where the number is too large for a double. -/
def Lexeme.read? (l : Lexeme) : Option Number :=
  match if l.isPlain then l.toInt? else none with
  | some n => some n
  | none => l.toFloat?.bind ofFloat?

end Number

end DiagramEditor.Json
