import DiagramEditor.Text.Bytes
import DiagramEditor.Text.Hex

/-!
# Percent signs in addresses

In an address `%` and two hexadecimal digits stand for a byte. All other
characters stand for themselves.
-/

set_option autoImplicit false

namespace DiagramEditor.Text

def percentBytes : List Char → List UInt8
  | '%' :: a :: b :: rest =>
    match hexValue? a, hexValue? b with
    | some m, some n => UInt8.ofNat (16 * m + n) :: percentBytes rest
    | _, _ => UInt8.ofNat '%'.toNat :: percentBytes (a :: b :: rest)
  | c :: rest => String.utf8EncodeChar c ++ percentBytes rest
  | [] => []

/-- The text a part of an address stands for. -/
def percentDecode? (cs : List Char) : Option String := ofBytes? (percentBytes cs)

end DiagramEditor.Text
