import DiagramEditor.BoundText
import DiagramEditor.Json.Printer
import DiagramEditor.Wire.Error

/-!
# Why a template cannot be used
-/

set_option autoImplicit false

namespace DiagramEditor

open Json

inductive TemplateFault where
  | placeholder (fault : PlaceholderFault)
  | notObject (found : Value)
  | noType
  | argsNotObject (found : Value)
  | childrenNotArray (found : Value)
  | iterationWithout (field : String)
  | notSingleBinding (source : String)
  | badIterand (name : String)
  | decisionWithout (field : String)
  | iterationRoot
  | decisionRoot
  /-- The fault of the template of a type. -/
  | inType (tag : String) (fault : TemplateFault)
  | document (error : WireError)
  /-- Met while rendering: an iteration over something that is no array. -/
  | notIterable

def TemplateFault.message : TemplateFault → String
  | .placeholder fault => fault.message
  | .notObject found => "template must be an object, got " ++ found.compact
  | .noType => "template is missing a string 'type'"
  | .argsNotObject found => "'args' must be an object, got " ++ found.compact
  | .childrenNotArray found => "'children' must be an array, got " ++ found.compact
  | .iterationWithout field => "iteration is missing '" ++ field ++ "'"
  | .notSingleBinding source => "iteration iterable '" ++ source ++ "' must be a single binding"
  | .badIterand name => "invalid iterand name '" ++ name ++ "'"
  | .decisionWithout field => "decision is missing '" ++ field ++ "'"
  | .iterationRoot => "template root cannot be an iteration"
  | .decisionRoot => "template root cannot be a decision"
  | .inType tag fault => "type '" ++ tag ++ "': " ++ fault.message
  | .document error => "invalid language document: " ++ error.message
  | .notIterable => "iteration iterable must be an array"

end DiagramEditor
