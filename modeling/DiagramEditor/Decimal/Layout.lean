import DiagramEditor.Decimal.Shortest

/-!
# Writing digits out

Where positional notation ends and how the exponent is spelt are decisions of
a format; they are kept in one record.
-/

set_option autoImplicit false

namespace DiagramEditor.Decimal

structure Layout where
  /-- Exponents of the first digit that are written positionally. -/
  positionalFrom : Int
  positionalTo : Int
  /-- What follows a whole number written positionally. -/
  wholeTail : String
  exponentMark : String
  plusSign : String

def zeros (n : Nat) : List Char := List.replicate n '0'

def Layout.positional (l : Layout) (digits : List Char) (exponent : Int) : List Char :=
  if 0 ≤ exponent then digits ++ zeros exponent.toNat ++ l.wholeTail.toList
  else
    let places := (-exponent).toNat
    if places < digits.length then
      digits.take (digits.length - places) ++ '.' :: digits.drop (digits.length - places)
    else '0' :: '.' :: zeros (places - digits.length) ++ digits

def Layout.scientific (l : Layout) (digits : List Char) (leading : Int) : List Char :=
  let body := match digits with
    | [] => []
    | [d] => [d]
    | d :: rest => d :: '.' :: rest
  let power :=
    if leading < 0 then '-' :: (toString leading.natAbs).toList
    else l.plusSign.toList ++ (toString leading.natAbs).toList
  body ++ l.exponentMark.toList ++ power

def Layout.write (l : Layout) (d : Digits) : List Char :=
  let digits := (toString d.digits).toList
  let leading := d.exponent + digits.length - 1
  if l.positionalFrom ≤ leading ∧ leading ≤ l.positionalTo then l.positional digits d.exponent
  else l.scientific digits leading

def Layout.writeFloat (l : Layout) (x : Float) : String :=
  let d := Dyadic.ofFloat x
  String.ofList ((if d.negative then ['-'] else []) ++ l.write (shortest d))

end DiagramEditor.Decimal
