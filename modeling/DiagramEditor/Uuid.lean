import DiagramEditor.Text.Hex

/-!
# Identifiers

A generated identifier is a 128-bit number, written as 32 hexadecimal digits in
five groups. The identifiers of a supply may be any; those of the first supply are
handed out by counting, so no two of them agree.
-/

set_option autoImplicit false

namespace DiagramEditor

abbrev ElementId := String

structure Uuid where
  value : Nat
deriving DecidableEq, Repr

namespace Uuid

def hexDigits (u : Uuid) : List Char :=
  let digits := Nat.toDigits 16 u.value
  List.replicate (32 - digits.length) '0' ++ digits

/-- Lower case, in groups of 8, 4, 4, 4 and 12 digits. -/
def print (u : Uuid) : String :=
  let d := u.hexDigits
  String.ofList (d.take 8 ++ '-' :: (d.drop 8).take 4 ++ '-' :: (d.drop 12).take 4 ++
    '-' :: (d.drop 16).take 4 ++ '-' :: d.drop 20)

def ofDigits? : Nat → List Char → Option Uuid
  | n, [] => some ⟨n⟩
  | n, c :: rest => (Text.hexValue? c).bind fun d => ofDigits? (16 * n + d) rest

/-- The digits of five hyphenated groups. -/
def ungroup? (cs : List Char) : Option (List Char) :=
  let separators := [cs[8]?, cs[13]?, cs[18]?, cs[23]?]
  if cs.length = 36 ∧ separators.all (· == some '-') then
    some (cs.take 8 ++ (cs.drop 9).take 4 ++ (cs.drop 14).take 4 ++ (cs.drop 19).take 4 ++ cs.drop 24)
  else none

/-- Groups may be joined, and the whole may stand in braces or behind `urn:uuid:`
in any case. -/
def parse? (text : String) : Option Uuid :=
  let cs := text.toList
  let body :=
    if cs.length = 32 then some cs
    else if cs.length = 36 then ungroup? cs
    else if cs.length = 38 ∧ cs.head? = some '\x7b' ∧ cs.getLast? = some '\x7d' then
      ungroup? ((cs.drop 1).take 36)
    else if cs.length = 45 ∧ (cs.take 9).map Char.toLower = "urn:uuid:".toList then ungroup? (cs.drop 9)
    else none
  body.bind fun digits => if digits.length = 32 then ofDigits? 0 digits else none

/-- The identifiers handed out, in order. -/
def numbered (n : Nat) : Uuid := ⟨0x7ed1a9e0000040008000000000000000 + n⟩

end Uuid

/-- Where new identifiers come from. -/
structure IdSupply where
  /-- The identifiers to hand out, in order. -/
  uuid : Nat → Uuid
  next : Nat

namespace IdSupply

def start : IdSupply := ⟨Uuid.numbered, 1⟩

def take (s : IdSupply) : Uuid × IdSupply := (s.uuid s.next, { s with next := s.next + 1 })

/-- A new id for an element or a model. -/
def takeId (s : IdSupply) : ElementId × IdSupply := ((s.uuid s.next).print, { s with next := s.next + 1 })

end IdSupply

end DiagramEditor
