import DiagramEditor.Json.Value
import DiagramEditor.Text.Blank

/-!
# Paths into bound data

`a.b[0].c` names a place in a document: members by name, items by index. A path
is read once, when a language is compiled, and followed whenever an element is
rendered.
-/

set_option autoImplicit false

namespace DiagramEditor

open Json

inductive Segment where
  | field (name : String)
  | index (n : Nat)
deriving DecidableEq, Repr

abbrev Path := List Segment

inductive PathFault where
  | empty
  | emptySegment
  | unbalanced
  | unclosed
  | badIndex
  | textAfterIndex
deriving DecidableEq, Repr

def PathFault.message : PathFault → String
  | .empty => "empty path"
  | .emptySegment => "empty segment"
  | .unbalanced => "unbalanced ']'"
  | .unclosed => "unclosed '['"
  | .badIndex => "array index must be a non-negative integer"
  | .textAfterIndex => "unexpected text after ']'"

namespace Path

def root : Path := []

/-- An index is below this number. -/
def indexLimit : Nat := Nat.pow 2 64

/-- The text between the dots. -/
def pieces : List Char → List (List Char)
  | [] => [[]]
  | c :: rest =>
    if c = '.' then [] :: pieces rest
    else
      match pieces rest with
      | [] => [[c]]
      | piece :: more => (c :: piece) :: more

mutual

/-- The indices after a name, each in brackets. -/
def indices : List Char → Except PathFault Path
  | [] => .ok []
  | c :: rest => if c = '[' then bracket [] rest else .error .textAfterIndex

/-- An index whose bracket is open; `text` was read so far, last character first. -/
def bracket (text : List Char) : List Char → Except PathFault Path
  | [] => .error .unclosed
  | c :: rest =>
    if c = ']' then
      match Text.natBelow? indexLimit (Text.trim text.reverse) with
      | none => .error .badIndex
      | some n =>
        match indices rest with
        | .error e => .error e
        | .ok more => .ok (.index n :: more)
    else bracket (c :: text) rest

end

/-- One piece: a name and its indices. Only the first piece may lack the name. -/
def piece (first : Bool) (cs : List Char) : Except PathFault Path :=
  let name := cs.takeWhile (· != '[')
  let rest := cs.dropWhile (· != '[')
  if name.contains ']' then .error .unbalanced
  else if name.isEmpty && (!first || rest.isEmpty) then .error .emptySegment
  else
    match indices rest with
    | .error e => .error e
    | .ok more => .ok (if name.isEmpty then more else .field (String.ofList name) :: more)

def joinPieces (first : Bool) : List (List Char) → Except PathFault Path
  | [] => .ok []
  | cs :: rest =>
    match piece first cs with
    | .error e => .error e
    | .ok p =>
      match joinPieces false rest with
      | .error e => .error e
      | .ok q => .ok (p ++ q)

def parseChars (cs : List Char) : Except PathFault Path :=
  let trimmed := Text.trim cs
  if trimmed.isEmpty then .error .empty else joinPieces true (pieces trimmed)

/-- Reads a path. Blanks around it do not count. -/
def parse (text : String) : Except PathFault Path := parseChars text.toList

def segmentChars (first : Bool) : Segment → List Char
  | .field name => if first then name.toList else '.' :: name.toList
  | .index n => '[' :: ((toString n).toList ++ [']'])

def printChars (p : Path) : List Char :=
  match p with
  | [] => []
  | s :: rest => segmentChars true s ++ rest.flatMap (segmentChars false)

def print (p : Path) : String := String.ofList (printChars p)

def item (p : Path) (n : Nat) : Path := p ++ [.index n]

/-- The path with `concrete` in place of a first field `name`. -/
def substitute? (name : String) (concrete : Path) : Path → Option Path
  | .field head :: rest => if head = name then some (concrete ++ rest) else none
  | _ => none

def step? : Segment → Value → Option Value
  | .field name, .object members => Members.get? name members
  | .index n, .array items => items[n]?
  | _, _ => none

/-- The value at a path, if every step finds one. -/
def resolve? : Path → Value → Option Value
  | [], v => some v
  | s :: rest, v => (step? s v).bind (resolve? rest)

theorem resolve?_append (p q : Path) (v : Value) :
    resolve? (p ++ q) v = (resolve? p v).bind (resolve? q) := by
  induction p generalizing v with
  | nil => rfl
  | cons s p ih =>
    simp only [List.cons_append, resolve?]
    cases step? s v with
    | none => rfl
    | some w => exact ih w

end Path

end DiagramEditor
