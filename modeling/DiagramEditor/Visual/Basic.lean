import DiagramEditor.Model.Basic

/-!
# Rendered trees

What a client draws: one tree per node and edge of the model. Trees are made anew
by every rendering and never stored.
-/

set_option autoImplicit false

namespace DiagramEditor

open Json

structure VisualElement where
  id : String
  kind : String
  properties : Members
  args : Members
  children : List VisualElement

/-- Something a rendering had to make up for. -/
structure Diagnostic where
  element : ElementId
  /-- The visual element that would have been made. -/
  template : String
  reason : String
deriving DecidableEq

structure VisualGraph where
  id : String
  kind : String
  children : List VisualElement

structure Rendering where
  graph : VisualGraph
  diagnostics : List Diagnostic

namespace VisualElement

mutual

/-- The elements of a tree, each before its children, with the id of its parent. -/
def walk (parent : Option String) : VisualElement → List (VisualElement × Option String)
  | ⟨id, kind, properties, args, children⟩ =>
    (⟨id, kind, properties, args, children⟩, parent) :: walkAll (some id) children

def walkAll (parent : Option String) : List VisualElement → List (VisualElement × Option String)
  | [] => []
  | v :: rest => walk parent v ++ walkAll parent rest

end

mutual

/-- The first element of that id. -/
def find? (id : String) : VisualElement → Option VisualElement
  | ⟨own, kind, properties, args, children⟩ =>
    if own = id then some ⟨own, kind, properties, args, children⟩ else findAmong? id children

def findAmong? (id : String) : List VisualElement → Option VisualElement
  | [] => none
  | v :: rest =>
    match find? id v with
    | some found => some found
    | none => findAmong? id rest

end

theorem walkAll_append (parent : Option String) (as bs : List VisualElement) :
    walkAll parent (as ++ bs) = walkAll parent as ++ walkAll parent bs := by
  induction as with
  | nil => simp [walkAll]
  | cons a as ih => simp [walkAll, ih]

end VisualElement

def VisualGraph.find? (g : VisualGraph) (id : String) : Option VisualElement :=
  VisualElement.findAmong? id g.children

end DiagramEditor
