import DiagramEditor.Path.Basic
import DiagramEditor.Json.Printer
import DiagramEditor.Text.Quoted

/-!
# Attribute schemas

A schema says what the bound data of an element should look like. Null fits
every schema and a member may be missing, since data is filled in step by step.
`check` lists the places that do not fit, outermost first.
-/

set_option autoImplicit false

namespace DiagramEditor

open Json

/-- One choice of a text, with the title it is offered under. -/
structure Choice where
  value : String
  title : Option String
deriving DecidableEq

/-- What every schema may carry for the editor. -/
structure Caption where
  label : Option String
  initial : Option Value

inductive Schema where
  | text (caption : Caption) (choices : Option (List String)) (oneOf : Option (List Choice))
  | enumeration (caption : Caption) (choices : List String)
  | number (caption : Caption)
  | integer (caption : Caption)
  | boolean (caption : Caption)
  | array (caption : Caption) (items : Schema)
  | object (caption : Caption) (properties : List (String × Schema))

inductive Mismatch where
  | expected (what : String) (found : Value)
  | notAChoice (found : String) (choices : List String)

def Mismatch.message : Mismatch → String
  | .expected what found => "expected " ++ what ++ ", found " ++ found.compact
  | .notAChoice found choices => "'" ++ found ++ "' is not one of " ++ Text.quotedList choices

/-- A place in the data that does not fit. -/
structure Issue where
  place : Path
  mismatch : Mismatch

def Issue.message (i : Issue) : String :=
  "$" ++ String.ofList (i.place.flatMap (Path.segmentChars false)) ++ ": " ++ i.mismatch.message

namespace Schema

def caption : Schema → Caption
  | text c _ _ => c
  | enumeration c _ => c
  | number c => c
  | integer c => c
  | boolean c => c
  | array c _ => c
  | object c _ => c

def label (s : Schema) : Option String := s.caption.label

/-- The texts allowed; the plain choices count before the titled ones. -/
def allowed? (choices : Option (List String)) (oneOf : Option (List Choice)) : Option (List String) :=
  match choices, oneOf with
  | some cs, _ => some cs
  | none, some cs => some (cs.map (·.value))
  | none, none => none

def checkChoice (place : Path) (found : String) : Option (List String) → List Issue
  | none => []
  | some choices => if choices.contains found then [] else [⟨place, .notAChoice found choices⟩]

/-- Checks the items of an array one by one. -/
def checkItems (check : Path → Value → List Issue) (place : Path) : Nat → List Value → List Issue
  | _, [] => []
  | n, v :: rest => check (Path.item place n) v ++ checkItems check place (n + 1) rest

mutual

/-- The issues of a value that stands at `place`. -/
def checkAt (s : Schema) (place : Path) (v : Value) : List Issue :=
  if v.isNull then []
  else
    match s with
    | .text _ choices oneOf =>
      match v with
      | .string found => checkChoice place found (allowed? choices oneOf)
      | _ => [⟨place, .expected "a string" v⟩]
    | .enumeration _ choices =>
      match v with
      | .string found => checkChoice place found (some choices)
      | _ => [⟨place, .expected "a string" v⟩]
    | .number _ =>
      match v with
      | .number _ => []
      | _ => [⟨place, .expected "a number" v⟩]
    | .integer _ =>
      match v with
      | .number n => if n.isWhole then [] else [⟨place, .expected "an integer" v⟩]
      | _ => [⟨place, .expected "an integer" v⟩]
    | .boolean _ =>
      match v with
      | .bool _ => []
      | _ => [⟨place, .expected "a boolean" v⟩]
    | .array _ items =>
      match v with
      | .array vs => checkItems (checkAt items) place 0 vs
      | _ => [⟨place, .expected "an array" v⟩]
    | .object _ properties =>
      match v with
      | .object members => checkProperties properties place members
      | _ => [⟨place, .expected "an object" v⟩]

/-- Checks the members that are declared and present. -/
def checkProperties (properties : List (String × Schema)) (place : Path) (members : Members) : List Issue :=
  match properties with
  | [] => []
  | (name, s) :: rest =>
    let here := match members.get? name with
      | some v => checkAt s (place ++ [.field name]) v
      | none => []
    here ++ checkProperties rest place members

end

/-- The issues of a value. -/
def check (s : Schema) (v : Value) : List Issue := s.checkAt [] v

end Schema

/-- Whether new bound data is checked against the schema of its type. -/
inductive DataPolicy where
  | permissive
  | validate
deriving DecidableEq, Repr

end DiagramEditor
