import DiagramEditor.BoundText
import DiagramEditor.Json.Printer

/-!
# Scopes

Inside an iteration a name stands for one item of an array of the bound data. A
scope keeps, for each such name, the path of that item, innermost first; a path
that starts with the name is rewritten before it is followed.
-/

set_option autoImplicit false

namespace DiagramEditor

open Json

structure Scope where
  data : Value
  frames : List (String × Path)

namespace Scope

def ofData (data : Value) : Scope := ⟨data, []⟩

/-- The scope with `name` standing for the item at `item`. -/
def bind (s : Scope) (name : String) (item : Path) : Scope := { s with frames := (name, item) :: s.frames }

def rewrite : List (String × Path) → Path → Path
  | [], p => p
  | (name, item) :: rest, p =>
    match Path.substitute? name item p with
    | some q => q
    | none => rewrite rest p

/-- The path from the root of the bound data. -/
def concrete (s : Scope) (p : Path) : Path := rewrite s.frames p

def lookup? (s : Scope) (p : Path) : Option Value := Path.resolve? (s.concrete p) s.data

/-- A found value as part of a text; nothing is shown for null or a miss. -/
def shown : Option Value → String
  | none => ""
  | some .null => ""
  | some (.string text) => text
  | some v => v.compact

def showPart (s : Scope) : TextPart → String
  | .literal text => text
  | .binding p => shown (s.lookup? p)

/-- What a text stands for. Only a single placeholder can miss. -/
def render? (s : Scope) : BoundText → Option Value
  | .single p => s.lookup? p
  | .interpolated parts _ => some (.string (String.join (parts.map s.showPart)))

end Scope

end DiagramEditor
