import DiagramEditor.Json.Value

/-!
# Document text

Two forms are written: one without blanks, and one with every item and member
on a line of its own, two spaces deeper than its container.
-/

set_option autoImplicit false

namespace DiagramEditor.Json

/-- Quotes, backslashes and control characters are escaped, nothing else. -/
def escapeChar (c : Char) : List Char :=
  if c = '"' then ['\\', '"']
  else if c = '\\' then ['\\', '\\']
  else if c.toNat = 8 then ['\\', 'b']
  else if c.toNat = 12 then ['\\', 'f']
  else if c = '\n' then ['\\', 'n']
  else if c = '\r' then ['\\', 'r']
  else if c = '\t' then ['\\', 't']
  else if c.toNat < 32 then
    ['\\', 'u', '0', '0', Nat.digitChar (c.toNat / 16), Nat.digitChar (c.toNat % 16)]
  else [c]

def quoteChars (s : List Char) : List Char := '"' :: (s.flatMap escapeChar ++ ['"'])

def quote (s : String) : List Char := quoteChars s.toList

def newline (indent : Nat) : List Char := '\n' :: List.replicate indent ' '

namespace Value

mutual

/-- The text without blanks. -/
def compactChars : Value → List Char
  | .null => "null".toList
  | .bool true => "true".toList
  | .bool false => "false".toList
  | .number n => n.print.toList
  | .string s => quote s
  | .array items => '[' :: compactItems items
  | .object members => '\x7b' :: compactMembers members

def compactItems : List Value → List Char
  | [] => [']']
  | [v] => v.compactChars ++ [']']
  | v :: rest => v.compactChars ++ ',' :: compactItems rest

def compactMembers : Members → List Char
  | [] => ['\x7d']
  | [(k, v)] => quote k ++ ':' :: (v.compactChars ++ ['\x7d'])
  | (k, v) :: rest => quote k ++ ':' :: (v.compactChars ++ ',' :: compactMembers rest)

end

def compact (v : Value) : String := String.ofList v.compactChars

mutual

/-- The text over several lines; `indent` is the indentation of the value. -/
def prettyChars (indent : Nat) : Value → List Char
  | .null => "null".toList
  | .bool true => "true".toList
  | .bool false => "false".toList
  | .number n => n.print.toList
  | .string s => quote s
  | .array [] => ['[', ']']
  | .array items => '[' :: prettyItems (indent + 2) items
  | .object [] => ['\x7b', '\x7d']
  | .object members => '\x7b' :: prettyMembers (indent + 2) members

def prettyItems (indent : Nat) : List Value → List Char
  | [] => newline (indent - 2) ++ [']']
  | [v] => newline indent ++ v.prettyChars indent ++ newline (indent - 2) ++ [']']
  | v :: rest => newline indent ++ v.prettyChars indent ++ ',' :: prettyItems indent rest

def prettyMembers (indent : Nat) : Members → List Char
  | [] => newline (indent - 2) ++ ['\x7d']
  | [(k, v)] =>
    newline indent ++ quote k ++ ':' :: ' ' :: v.prettyChars indent ++ newline (indent - 2) ++ ['\x7d']
  | (k, v) :: rest =>
    newline indent ++ quote k ++ ':' :: ' ' :: v.prettyChars indent ++ ',' :: prettyMembers indent rest

end

def pretty (v : Value) : String := String.ofList (v.prettyChars 0)

end Value

end DiagramEditor.Json
