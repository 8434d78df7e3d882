import DiagramEditor.Wire.Decoder

/-!
# Records

A record is written as an object or as an array of its fields in their order.
Members that are no field are skipped, a field given twice is refused, and a
field may have a second, older name.
-/

set_option autoImplicit false

namespace DiagramEditor

open Json

inductive Presence where
  | required
  /-- May be left out of an object. -/
  | optional
  /-- May be left out of an object, and off the end of an array. -/
  | defaulted
deriving DecidableEq, Repr

/-- A field of a record `α`: how it is found, and what reading it sets. -/
structure Field (α : Type) where
  name : String
  otherName : Option String
  presence : Presence
  read : Tree → Except WireError (α → α)

namespace Field

variable {α β : Type}

def make (name : String) (presence : Presence) (decode : Decoder β) (set : β → α → α) : Field α :=
  ⟨name, none, presence, fun t => (decode t).map set⟩

def required (name : String) (decode : Decoder β) (set : β → α → α) : Field α :=
  make name .required decode set

def optional (name : String) (decode : Decoder β) (set : β → α → α) : Field α :=
  make name .optional decode set

def defaulted (name : String) (decode : Decoder β) (set : β → α → α) : Field α :=
  make name .defaulted decode set

def orNamed (f : Field α) (other : String) : Field α := { f with otherName := some other }

def answersTo (f : Field α) (key : String) : Bool := f.name == key || f.otherName == some key

end Field

namespace Record

variable {α : Type}

/-- Reads the members in order. `seen` names the fields met so far. -/
def readMembers (fields : List (Field α)) :
    List (Option String × Tree) → List String → α → Except WireError (List String × α)
  | [], seen, a => .ok (seen, a)
  | (none, _) :: _, _, _ => .error .notJson
  | (some key, t) :: rest, seen, a =>
    match fields.find? (·.answersTo key) with
    | none => if t.isWhole then readMembers fields rest seen a else .error .notJson
    | some f =>
      if seen.contains f.name then .error (.duplicateField f.name)
      else
        match f.read t with
        | .error e => .error e
        | .ok set => readMembers fields rest (f.name :: seen) (set a)

/-- Reads the items of an array as the fields in their order. -/
def readItems : List (Field α) → List Tree → α → Except WireError α
  | [], [], a => .ok a
  | [], _ :: _, _ => .error .surplus
  | f :: fields, [], a =>
    if f.presence = .defaulted then readItems fields [] a else .error .wrongLength
  | f :: fields, t :: rest, a =>
    match f.read t with
    | .error e => .error e
    | .ok set => readItems fields rest (set a)

/-- The first required field that was not met. -/
def missing? (fields : List (Field α)) (seen : List String) : Option (Field α) :=
  fields.find? fun f => f.presence == .required && !seen.contains f.name

/-- Reads a record, starting from one that holds the defaults. -/
def decode (fields : List (Field α)) (start : α) : Decoder α
  | .object members =>
    match readMembers fields members [] start with
    | .error e => .error e
    | .ok (seen, a) =>
      match missing? fields seen with
      | some f => .error (.missingField f.name)
      | none => .ok a
  | .array items => readItems fields items start
  | t => .error (Decoder.containerMismatch t)

end Record

end DiagramEditor
