import DiagramEditor.Path.Basic

/-!
# Writing through a path

Members that are missing or null on the way become objects; items must exist.
The document is returned even where the value cannot be written: the objects made
on the way stay.
-/

set_option autoImplicit false

namespace DiagramEditor

open Json

/-- Why nothing can be written at a path. -/
inductive AssignFault where
  | emptyPath
  /-- The `length` is told where the item was only a step on the way. -/
  | indexOutOfRange (place : Path) (length : Option Nat) (index : Nat)
  | notContainer (place : Path) (found : String)
deriving DecidableEq, Repr

def AssignFault.message : AssignFault → String
  | .emptyPath => "cannot assign through an empty path"
  | .indexOutOfRange place length index =>
    let size := match length with
      | none => ""
      | some n => " (len " ++ toString n ++ ")"
    "index " ++ toString index ++ " out of range at '" ++ place.print ++ size ++ "'"
  | .notContainer place found => "'" ++ place.print ++ "' is " ++ found ++ ", not a container"

namespace Path

/-- What an assignment leaves behind, and why it failed if it did. -/
structure Assignment where
  data : Value
  fault : Option AssignFault

def startsWithIndex : Path → Bool
  | .index _ :: _ => true
  | _ => false

/-- What a step into a member starts from. -/
def memberSlot (members : Members) (name : String) (rest : Path) : Value :=
  match Members.get? name members with
  | some .null => if startsWithIndex rest then .null else .emptyObject
  | none => if startsWithIndex rest then .null else .emptyObject
  | some v => v

/-- Null counts as an object without members. -/
def asMembers? : Value → Option Members
  | .null => some []
  | .object members => some members
  | _ => none

/-- Writes below the place `before`. -/
def assignFrom (before : Path) (new : Value) : Path → Value → Assignment
  | [], data => ⟨data, some .emptyPath⟩
  | [.field name], data =>
    match asMembers? data with
    | some members => ⟨.object (Members.insert name new members), none⟩
    | none => ⟨data, some (.notContainer before data.describe)⟩
  | [.index n], data =>
    match data with
    | .array items =>
      if n < items.length then ⟨.array (items.set n new), none⟩
      else ⟨data, some (.indexOutOfRange before none n)⟩
    | _ => ⟨data, some (.notContainer before data.describe)⟩
  | .field name :: s :: rest, data =>
    match asMembers? data with
    | some members =>
      let inner := assignFrom (before ++ [.field name]) new (s :: rest) (memberSlot members name (s :: rest))
      ⟨.object (Members.insert name inner.data members), inner.fault⟩
    | none => ⟨data, some (.notContainer before data.describe)⟩
  | .index n :: s :: rest, data =>
    match data with
    | .array items =>
      match items[n]? with
      | some v =>
        let inner := assignFrom (before ++ [.index n]) new (s :: rest) v
        ⟨.array (items.set n inner.data), inner.fault⟩
      | none => ⟨data, some (.indexOutOfRange before (some items.length) n)⟩
    | _ => ⟨data, some (.notContainer before data.describe)⟩

/-- Writes `new` at a path of `data`. -/
def assign (p : Path) (new : Value) (data : Value) : Assignment := assignFrom [] new p data

end Path

end DiagramEditor
