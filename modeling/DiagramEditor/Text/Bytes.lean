/-!
# Texts in bytes

Bytes that encode no character are shown as the replacement character, one for each
start of a character that breaks off.
-/

set_option autoImplicit false

namespace DiagramEditor.Text

/-- The text that some bytes encode. -/
def ofBytes? (bytes : List UInt8) : Option String := String.fromUTF8? ⟨bytes.toArray⟩

def replacement : Char := '\ufffd'

/-- A character of which the first bytes are read. -/
structure Begun where
  /-- The bits so far. -/
  bits : Nat
  /-- How many bytes are still to come. -/
  missing : Nat
  /-- The bounds of the next byte. -/
  low : Nat
  high : Nat
deriving DecidableEq, Repr

/-- What the first byte of a character says. -/
inductive Lead where
  | whole (c : Char)
  | begun (b : Begun)
  | stray
deriving DecidableEq, Repr

/-- The bounds after the first byte keep out what is written with fewer bytes, the
halves of pairs and what lies beyond the last character. -/
def Lead.ofByte (n : Nat) : Lead :=
  if n < 0x80 then .whole (Char.ofNat n)
  else if n < 0xC2 then .stray
  else if n < 0xE0 then .begun ⟨n - 0xC0, 1, 0x80, 0xBF⟩
  else if n < 0xF0 then
    .begun ⟨n - 0xE0, 2, if n = 0xE0 then 0xA0 else 0x80, if n = 0xED then 0x9F else 0xBF⟩
  else if n < 0xF5 then
    .begun ⟨n - 0xF0, 3, if n = 0xF0 then 0x90 else 0x80, if n = 0xF4 then 0x8F else 0xBF⟩
  else .stray

/-- The characters of some bytes, the first of which may be read already. -/
def shownChars : Option Begun → List UInt8 → List Char
  | none, [] => []
  | some _, [] => [replacement]
  | before, byte :: rest =>
    let fresh (_ : Unit) : List Char :=
      match Lead.ofByte byte.toNat with
      | .whole c => c :: shownChars none rest
      | .begun b => shownChars (some b) rest
      | .stray => replacement :: shownChars none rest
    match before with
    | none => fresh ()
    | some b =>
      if b.low ≤ byte.toNat ∧ byte.toNat ≤ b.high then
        let bits := b.bits * 64 + byte.toNat % 64
        if b.missing ≤ 1 then Char.ofNat bits :: shownChars none rest
        else shownChars (some ⟨bits, b.missing - 1, 0x80, 0xBF⟩) rest
      else replacement :: fresh ()

/-- The text that shows some bytes. -/
def showBytes (bytes : List UInt8) : String := String.ofList (shownChars none bytes)

end DiagramEditor.Text
