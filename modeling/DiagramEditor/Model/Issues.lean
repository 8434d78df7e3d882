import DiagramEditor.Model.Basic

/-!
# What is wrong with a model under a language

The ids and edges of the model come first, then its elements in order: a type that
the language does not have for that kind of element, or data that does not fit the
schema of the type.
-/

set_option autoImplicit false

namespace DiagramEditor

inductive ModelIssue where
  | graph (error : EditError)
  | unknownType (id : ElementId) (tag : TypeTag)
  | data (id : ElementId) (issue : Issue)

namespace ModelIssue

def message : ModelIssue → String
  | graph e => e.message
  | unknownType id tag => "'" ++ id ++ "': unknown type '" ++ tag ++ "'"
  | data id issue => "'" ++ id ++ "': " ++ issue.message

end ModelIssue

namespace Language

/-- The issues of one element. One without a type has none. -/
def elementIssues (l : Language) (e : Element) : List ModelIssue :=
  if e.tag.isEmpty then []
  else
    match l.find? e.kind e.tag with
    | none => [.unknownType e.id e.tag]
    | some t =>
      match t.schema with
      | none => []
      | some s => (s.check e.data).map (.data e.id)

def graphIssues (m : Model) : List ModelIssue :=
  match m.check with
  | .error e => [.graph e]
  | .ok () => []

def modelIssues (l : Language) (m : Model) : List ModelIssue :=
  graphIssues m ++ (m.nodes.map Element.node ++ m.edges.map Element.edge).flatMap l.elementIssues

end Language

end DiagramEditor
