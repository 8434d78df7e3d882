import DiagramEditor.Json.Tree
import DiagramEditor.Table
import DiagramEditor.Wire.Error

/-!
# Decoders

A decoder reads a tree in the order of the text and stops at the first problem.
The same decoder serves a text and a value: `ofText` also asks that nothing
follows the document.
-/

set_option autoImplicit false

namespace DiagramEditor

open Json

abbrev Decoder (α : Type) := Tree → Except WireError α

namespace Decoder

variable {α β : Type}

def ofText (d : Decoder α) (text : String) : Except WireError α :=
  let reading := Tree.ofText text
  match d reading.tree with
  | .error e => .error e.inText
  | .ok a => if reading.ends then .ok a else .error .notJson

def ofValue (d : Decoder α) (v : Value) : Except WireError α :=
  match d (Tree.ofValue v) with
  | .error e => .error e.inValue
  | .ok a => .ok a

/-- The error for a tree that is not of the wanted kind. A container is refused
by its first character, however deep it stands. -/
def mismatch : Tree → WireError
  | .fault .broken => .notJson
  | .fault .unreadable => .notJson
  | _ => .wrongType

/-- The error where an array is wanted. -/
def arrayMismatch : Tree → WireError
  | .fault (.deepArray _) => .notJson
  | t => mismatch t

/-- The error where an object is wanted. -/
def objectMismatch : Tree → WireError
  | .fault (.deepObject _) => .notJson
  | t => mismatch t

/-- The error where an array will do as well as an object. -/
def containerMismatch : Tree → WireError
  | .fault _ => .notJson
  | _ => .wrongType

def string : Decoder String
  | .string s => .ok s
  | t => .error (mismatch t)

def bool : Decoder Bool
  | .bool b => .ok b
  | t => .error (mismatch t)

def float : Decoder Float
  | .number n => .ok n.toFloat
  | t => .error (mismatch t)

/-- A whole number that fits 32 bits. -/
def word32 : Decoder Nat
  | .number (.int n _) => if 0 ≤ n ∧ n < Int.ofNat (Nat.pow 2 32) then .ok n.toNat else .error .wrongValue
  | t => .error (mismatch t)

def value : Decoder Value := fun t =>
  match t.toValue? with
  | some v => .ok v
  | none => .error .notJson

/-- No value is written as `null`. -/
def option (d : Decoder α) : Decoder (Option α)
  | .null => .ok none
  | t => (d t).map some

def items (d : Decoder α) : List Tree → Except WireError (List α)
  | [] => .ok []
  | t :: rest => do
    let a ← d t
    let more ← items d rest
    return a :: more

def list (d : Decoder α) : Decoder (List α)
  | .array trees => items d trees
  | t => .error (arrayMismatch t)

def members (d : Decoder α) : List (Option String × Tree) → Table String α → Except WireError (Table String α)
  | [], table => .ok table
  | (none, _) :: _, _ => .error .notJson
  | (some key, t) :: rest, table => do
    let a ← d t
    members d rest (Table.put key a table)

/-- A table in the order of the text. -/
def table (d : Decoder α) : Decoder (Table String α)
  | .object ms => members d ms []
  | t => .error (objectMismatch t)

/-- Refuses the first element whose id came before. -/
def distinct (id : α → String) : List String → List α → Except WireError Unit
  | _, [] => .ok ()
  | seen, a :: rest =>
    if seen.contains (id a) then .error (.duplicateElement (id a)) else distinct id (id a :: seen) rest

/-- A list of elements with an id each. -/
def elements (id : α → String) (d : Decoder α) : Decoder (List α) := fun t => do
  let as ← list d t
  distinct id [] as
  return as

end Decoder

end DiagramEditor
