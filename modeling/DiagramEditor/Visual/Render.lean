import DiagramEditor.Visual.Basic
import DiagramEditor.Model.Wire

/-!
# Rendering

A template is followed with the bound data of an element. Iterations and decisions
leave no element of their own: what they make goes among the children of the
element around them. The id of a child is the id of its parent and its slot; an
iteration adds its name and the number of the item to the slot, a decision nothing.

A binding that finds nothing leaves its property out, and a condition that fails
counts as false and is reported. Only an iteration over something other than an
array stops a rendering.
-/

set_option autoImplicit false

namespace DiagramEditor

open Json

/-- The elements made so far and what had to be reported. -/
structure Rendered where
  elements : List VisualElement
  diagnostics : List Diagnostic

namespace Rendered

def nothing : Rendered := ⟨[], []⟩

def append (a b : Rendered) : Rendered := ⟨a.elements ++ b.elements, a.diagnostics ++ b.diagnostics⟩

/-- One rendering after the other, up to the first that fails. -/
def andThen (a b : Except TemplateFault Rendered) : Except TemplateFault Rendered :=
  match a with
  | .error e => .error e
  | .ok a =>
    match b with
    | .error e => .error e
    | .ok b => .ok (a.append b)

def overItems (item : Nat → Except TemplateFault Rendered) (n : Nat) : Nat → Except TemplateFault Rendered
  | 0 => .ok nothing
  | count + 1 => andThen (item n) (overItems item (n + 1) count)

end Rendered

namespace Shape

def bindingName (property : String) : String := property ++ "Bind"

/-- Properties and arguments of an element while its template is followed. -/
structure Parts where
  properties : Members
  args : Members

def addProperty (s : Scope) (parts : Parts) : String × Property → Parts
  | (name, .literal v) => { parts with properties := parts.properties.insert name v }
  | (name, .bound text) =>
    { properties := match s.render? text with
        | some v => parts.properties.insert name v
        | none => parts.properties
      args := parts.args.insert (bindingName name) (.string (s.concrete text.primary).print) }

def render (s : Scope) (shape : Shape) : Parts := shape.properties.foldl (addProperty s) ⟨[], shape.args⟩

def element (s : Scope) (shape : Shape) (id : String) (children : List VisualElement) : VisualElement :=
  let parts := shape.render s
  ⟨id, shape.kind, parts.properties, parts.args, children⟩

end Shape

namespace Template

/-- How many items to render. Nothing and null count as no items. -/
def itemCount : Option Value → Except TemplateFault Nat
  | none => .ok 0
  | some .null => .ok 0
  | some (.array items) => .ok items.length
  | some _ => .error .notIterable

/-- The report on a condition that failed. -/
def failureReport (owner : ElementId) (id : String) : Option EvalFault → List Diagnostic
  | none => []
  | some e => [⟨owner, id, e.message⟩]

mutual

/-- What a template makes below `parent`, in the given slot. -/
def expand (owner : ElementId) (parent slot : String) (s : Scope) :
    Template → Except TemplateFault Rendered
  | .element shape children =>
    let id := parent ++ "_" ++ slot
    match expandChildren owner id s 0 children with
    | .error e => .error e
    | .ok inner => .ok ⟨[shape.element s id inner.elements], inner.diagnostics⟩
  | .iteration iterable iterand body =>
    let path := s.concrete iterable
    match itemCount (Path.resolve? path s.data) with
    | .error e => .error e
    | .ok count =>
      Rendered.overItems
        (fun n => expand owner parent (slot ++ "_" ++ iterand ++ toString n) (s.bind iterand (Path.item path n)) body)
        0 count
  | .decision condition yes no =>
    let (holds, fault) := condition.verdict s
    let report : Rendered := ⟨[], failureReport owner (parent ++ "_" ++ slot) fault⟩
    if holds then Rendered.andThen (.ok report) (expand owner parent slot s yes)
    else
      match no with
      | none => .ok report
      | some no => Rendered.andThen (.ok report) (expand owner parent slot s no)

/-- What the children of an element make, from slot `n` on. -/
def expandChildren (owner : ElementId) (parent : String) (s : Scope) (n : Nat) :
    List Template → Except TemplateFault Rendered
  | [] => .ok .nothing
  | t :: rest =>
    Rendered.andThen (expand owner parent ("child" ++ toString n) s t)
      (expandChildren owner parent s (n + 1) rest)

end

end Template

/-- Renders an element with its data; its visual element carries its id. -/
def RootTemplate.render (t : RootTemplate) (id : ElementId) (data : Value) :
    Except TemplateFault (VisualElement × List Diagnostic) :=
  let s := Scope.ofData data
  match Template.expandChildren id id s 0 t.children with
  | .error e => .error e
  | .ok inner => .ok (t.shape.element s id inner.elements, inner.diagnostics)

/-- Writes properties that come from the model over those of the template. -/
def VisualElement.withProperties (v : VisualElement) (more : Members) : VisualElement :=
  { v with properties := v.properties.insertAll more }

namespace Element

/-- Properties that always show the model. -/
def ownProperties : Element → Members
  | .node n => [("position", n.position.toValue), ("size", n.shownSize.toValue.sorted)]
  | .edge e =>
    [("sourceId", .string e.source), ("targetId", .string e.target),
     ("routingPoints", .array (e.routing.map Point.toValue))]

end Element

namespace Language

/-- The template of an element. Without a type it is drawn bare, with an unknown
type under the name of that type. -/
def templateFor (l : Language) (e : Element) : RootTemplate × List Diagnostic :=
  if e.tag.isEmpty then (.bare e.kind.name, [])
  else
    match l.find? e.kind e.tag with
    | some t => (t.template, [])
    | none => (.labelled e.kind.name e.tag, [⟨e.id, e.id, "unknown type: '" ++ e.tag ++ "'"⟩])

def renderElement (l : Language) (e : Element) : Except TemplateFault Rendered :=
  let (template, reports) := l.templateFor e
  match template.render e.id e.data with
  | .error fault => .error fault
  | .ok (v, diagnostics) => .ok ⟨[v.withProperties e.ownProperties], reports ++ diagnostics⟩

def renderAll (l : Language) : List Element → Except TemplateFault Rendered
  | [] => .ok .nothing
  | e :: rest => Rendered.andThen (l.renderElement e) (renderAll l rest)

/-- Renders every node and then every edge of a model. -/
def render (l : Language) (m : Model) : Except TemplateFault Rendering :=
  match l.renderAll (m.nodes.map .node ++ m.edges.map .edge) with
  | .error e => .error e
  | .ok all => .ok ⟨⟨m.id, "graph", all.elements⟩, all.diagnostics⟩

end Language

end DiagramEditor
