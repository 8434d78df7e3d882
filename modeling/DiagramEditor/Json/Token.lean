import DiagramEditor.Json.Number
import DiagramEditor.Text.Hex

/-!
# Tokens of a document

The text is cut into tokens; the first place where none fits is marked and
ends the list. A number no double can hold and a string with half a surrogate
pair are tokens without a content: they may stand where nobody reads them.
-/

set_option autoImplicit false

namespace DiagramEditor.Json

inductive Token where
  | openArray
  | closeArray
  | openObject
  | closeObject
  | comma
  | colon
  | null
  | bool (b : Bool)
  | number (n : Option Number)
  | string (s : Option String)
  | junk
deriving DecidableEq

namespace Token

def isBlank (c : Char) : Bool := c = ' ' || c = '\n' || c = '\t' || c = '\r'

def isDigit (c : Char) : Bool := '0' ≤ c && c ≤ '9'

def hexUnit? (a b c d : Char) : Option Nat := do
  let a ← Text.hexValue? a
  let b ← Text.hexValue? b
  let c ← Text.hexValue? c
  let d ← Text.hexValue? d
  return ((a * 16 + b) * 16 + c) * 16 + d

/-- The first half of a pair, met but not yet completed. -/
abbrev Half := Option Nat

def isHighHalf (unit : Nat) : Bool := 0xD800 ≤ unit && unit < 0xDC00

def isLowHalf (unit : Nat) : Bool := 0xDC00 ≤ unit && unit < 0xE000

def joinHalves (high low : Nat) : Char := Char.ofNat (0x10000 + (high - 0xD800) * 0x400 + (low - 0xDC00))

def simpleEscape? (c : Char) : Option Char :=
  if c = '"' then some '"'
  else if c = '\\' then some '\\'
  else if c = '/' then some '/'
  else if c = 'b' then some (Char.ofNat 8)
  else if c = 'f' then some (Char.ofNat 12)
  else if c = 'n' then some '\n'
  else if c = 'r' then some '\r'
  else if c = 't' then some '\t'
  else none

/-- Reads a string after its opening quote. `out` holds what was read so far, last
character first, and is `none` once half a pair was left alone. The result is
`none` where the text breaks off or has an escape or a control character that no
string may hold. -/
def scanString : List Char → Half → Option (List Char) → Option (Option String × List Char)
  | [], _, _ => none
  | '"' :: rest, half, out =>
    some (if half.isSome then none else out.map (fun cs => String.ofList cs.reverse), rest)
  | '\\' :: 'u' :: a :: b :: c :: d :: rest, half, out =>
    match hexUnit? a b c d, half with
    | none, _ => none
    | some unit, some high =>
      if isLowHalf unit then scanString rest none (out.map (joinHalves high unit :: ·))
      else scanString rest none none
    | some unit, none =>
      if isHighHalf unit then scanString rest (some unit) out
      else if isLowHalf unit then scanString rest none none
      else scanString rest none (out.map (Char.ofNat unit :: ·))
  | '\\' :: e :: rest, half, out =>
    match simpleEscape? e with
    | none => none
    | some c => scanString rest none (if half.isSome then none else out.map (c :: ·))
  | c :: rest, half, out =>
    if c.toNat < 32 ∨ c = '\\' then none
    else scanString rest none (if half.isSome then none else out.map (c :: ·))

/-- The exponent after its mark: sign, digits, rest. -/
def scanExponent : List Char → Option ((Bool × List Char) × List Char)
  | '-' :: rest => digits true rest
  | '+' :: rest => digits false rest
  | rest => digits false rest
where
  digits (negative : Bool) (cs : List Char) : Option ((Bool × List Char) × List Char) :=
    match cs.takeWhile isDigit with
    | [] => none
    | ds => some ((negative, ds), cs.dropWhile isDigit)

/-- Fraction and exponent of a number whose whole digits are read. -/
def scanTail (negative : Bool) (whole : List Char) (cs : List Char) : Option (Number.Lexeme × List Char) :=
  match cs with
  | '.' :: rest =>
    match rest.takeWhile isDigit with
    | [] => none
    | fraction => exponent (some fraction) (rest.dropWhile isDigit)
  | _ => exponent none cs
where
  exponent (fraction : Option (List Char)) : List Char → Option (Number.Lexeme × List Char)
    | 'e' :: rest => (scanExponent rest).map fun (e, rest) => (⟨negative, whole, fraction, some e⟩, rest)
    | 'E' :: rest => (scanExponent rest).map fun (e, rest) => (⟨negative, whole, fraction, some e⟩, rest)
    | rest => some (⟨negative, whole, fraction, none⟩, rest)

/-- A number after its sign. Only zero itself starts with the digit zero. -/
def scanNumber (negative : Bool) (cs : List Char) : Option (Number.Lexeme × List Char) :=
  match cs.takeWhile isDigit with
  | [] => none
  | '0' :: _ :: _ => none
  | whole => scanTail negative whole (cs.dropWhile isDigit)

def ofLexeme? : Option (Number.Lexeme × List Char) → Option (Token × List Char)
  | none => none
  | some (lexeme, rest) => some (.number lexeme.read?, rest)

/-- The token at the start of a text that does not start with a blank. -/
def scan? : List Char → Option (Token × List Char)
  | '[' :: rest => some (.openArray, rest)
  | ']' :: rest => some (.closeArray, rest)
  | '\x7b' :: rest => some (.openObject, rest)
  | '\x7d' :: rest => some (.closeObject, rest)
  | ',' :: rest => some (.comma, rest)
  | ':' :: rest => some (.colon, rest)
  | '"' :: rest => (scanString rest none (some [])).map fun (s, rest) => (.string s, rest)
  | 'n' :: 'u' :: 'l' :: 'l' :: rest => some (.null, rest)
  | 't' :: 'r' :: 'u' :: 'e' :: rest => some (.bool true, rest)
  | 'f' :: 'a' :: 'l' :: 's' :: 'e' :: rest => some (.bool false, rest)
  | '-' :: rest => ofLexeme? (scanNumber true rest)
  | cs => ofLexeme? (scanNumber false cs)

/-- The tokens of a text, each with the text after it. The fuel is at least the number
of characters. -/
def lexFuel : Nat → List Char → List (Token × List Char)
  | 0, _ => []
  | fuel + 1, cs =>
    match cs with
    | [] => []
    | c :: rest =>
      if isBlank c then lexFuel fuel rest
      else
        match scan? (c :: rest) with
        | none => [(.junk, [])]
        | some (token, rest) => (token, rest) :: lexFuel fuel rest

def lexWithRests (cs : List Char) : List (Token × List Char) := lexFuel cs.length cs

def lex (cs : List Char) : List Token := (lexWithRests cs).map (·.1)

end Token

end DiagramEditor.Json
