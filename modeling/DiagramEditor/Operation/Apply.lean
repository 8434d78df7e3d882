import DiagramEditor.Operation.Basic
import DiagramEditor.Path.Assign

/-!
# Applying operations

An operation runs in steps on a workspace, the diagram and the ids not yet handed
out. Whatever can go wrong is looked for before the first step, so a refused
operation has changed nothing; the workspace is returned in either case.
-/

set_option autoImplicit false

namespace DiagramEditor

open Json

structure Workspace where
  diagram : Diagram
  ids : IdSupply

abbrev Edit := ExceptT EditError (StateM Workspace)

namespace Edit

def diagram : Edit Diagram := do return (← get).diagram

/-- Makes a change, or stops where it is refused. -/
def change (f : Diagram → Except EditError Diagram) : Edit Unit := do
  let w ← get
  match f w.diagram with
  | .error e => throw e
  | .ok d => set { w with diagram := d }

/-- Makes a change that says itself which diagram it leaves where it is refused. -/
def attempt (f : Diagram → Except EditError Unit × Diagram) : Edit Unit := do
  let w ← get
  let (result, d) := f w.diagram
  set { w with diagram := d }
  ofExcept result

def freshId : Edit ElementId := do
  let w ← get
  let (id, ids) := w.ids.takeId
  set { w with ids := ids }
  return id

/-- Stops with `notFound` at the first id that is not there. -/
def require (found : ElementId → Bool) (ids : List ElementId) : Edit Unit :=
  match ids.find? (!found ·) with
  | some id => throw (.notFound id)
  | none => pure ()

/-- Makes a change for each of a list, up to the first that is refused. -/
def changeEach {α : Type} (f : α → Diagram → Except EditError Diagram) : List α → Edit Unit
  | [] => return
  | a :: rest => do
    change (f a)
    changeEach f rest

end Edit

/-- What an operation may look up besides the diagram. -/
structure EditContext where
  language : Language
  policy : DataPolicy

namespace Operation

open Edit

def showcaseId : ElementId := "showcase_element"

/-- The arguments of a label that may tell where its text comes from. -/
def labelBindings : List String := ["textBind", "nameBind"]

def typeOf (l : Language) (kind : ElementKind) (tag : TypeTag) : Except EditError ElementType :=
  match l.find? kind tag with
  | some t => .ok t
  | none => .error (.unknownType tag)

/-- Makes a node; its data starts from the defaults of its type. -/
def runCreateNode (l : Language) (tag : TypeTag) (location : Option Point) : Edit Outcome := do
  let type ← ofExcept (typeOf l .node tag)
  let id ← freshId
  let d ← diagram
  let data := type.instantiate (d.model.count .node tag + 1)
  change (Diagram.insertNode ⟨id, tag, location.getD .origin, some .standard, data⟩)
  return { Outcome.nothing with created := [id] }

def runCreateEdge (l : Language) (tag : TypeTag) (source target : ElementId) : Edit Outcome := do
  let type ← ofExcept (typeOf l .edge tag)
  let id ← freshId
  let d ← diagram
  let data := type.instantiate (d.model.count .edge tag + 1)
  change (Diagram.insertEdge ⟨id, tag, source, target, [], data⟩)
  return { Outcome.nothing with created := [id] }

def removeOne (id : ElementId) : Edit (List ElementId) := do
  let w ← get
  match w.diagram.remove id with
  | .error e => throw e
  | .ok (d, removed) =>
    set { w with diagram := d }
    return removed

/-- Removes elements one by one. An edge may be gone with a node before it. -/
def removeEach : List ElementId → Edit (List ElementId)
  | [] => return []
  | id :: rest => do
    let d ← diagram
    let removed ← if (d.element? id).isSome then removeOne id else pure []
    let more ← removeEach rest
    return removed ++ more

def runDelete (ids : List ElementId) : Edit Outcome := do
  let d ← diagram
  require (fun id => (d.element? id).isSome) ids
  let removed ← removeEach ids
  return { Outcome.nothing with removed := removed }

/-- Makes a change for each of a list, when the element of every one is there. -/
def runEach {α : Type} (found : Model → ElementId → Bool) (element : α → ElementId)
    (f : α → Diagram → Except EditError Diagram) (changes : List α) : Edit Outcome := do
  let d ← diagram
  require (found d.model) (changes.map element)
  changeEach f changes
  return .nothing

def runChangeBounds (bounds : List Bounds) : Edit Outcome :=
  runEach Model.hasNode (·.element) (fun b => Diagram.setBounds b.element b.position b.size) bounds

def runChangeRouting (routings : List Routing) : Edit Outcome :=
  runEach Model.hasEdge (·.element) (fun r => Diagram.setRouting r.element r.points) routings

/-- The path recorded on a label: that of its text, else that of its name. -/
def bindingOf? (entry : VisualEntry) : Option String :=
  labelBindings.findSome? fun name => (entry.args.get? name).bind Value.asString?

/-- Where the text of a label is kept: an element and a path into its data. -/
def labelTarget? (d : Diagram) (label : String) : Option (Element × Path) := do
  let entry ← d.index.visual? label
  let binding ← bindingOf? entry
  let path ← (Path.parse binding).toOption
  let owner ← d.index.nearest? label
  let element ← d.element? owner
  return (element, path)

/-- Writes the text of a label to the place it was rendered from. -/
def runEditLabel (label text : String) : Edit Outcome := do
  let d ← diagram
  match labelTarget? d label with
  | none => throw (.bindingNotFound label)
  | some (element, path) =>
    let assignment := Path.assign path (.string text) element.data
    match assignment.fault with
    | some _ => throw (.bindingNotFound label)
    | none =>
      change (Diagram.setData element.id assignment.data)
      return .nothing

def combine (mode : ChangeMode) (old new : Value) : Value :=
  match mode, old, new with
  | .merge, .object current, .object patch => .object (Members.insertAll current patch)
  | _, _, new => new

/-- The issues that keep data from being written under a policy. -/
def dataIssues (c : EditContext) (element : Element) (data : Value) : List Issue :=
  match c.policy with
  | .permissive => []
  | .validate =>
    match (c.language.find? element.kind element.tag).bind (·.schema) with
    | some schema => schema.check data
    | none => []

def runChangeData (c : EditContext) (id : ElementId) (data : Value) (mode : ChangeMode) : Edit Outcome := do
  let d ← diagram
  match d.element? id with
  | none => throw (.notFound id)
  | some element =>
    let next := combine mode element.data data
    match dataIssues c element next with
    | [] =>
      change (Diagram.setData id next)
      return .nothing
    | issues => throw (.schemaViolation id issues)

def runCut (ids : List ElementId) : Edit Outcome := do
  let d ← diagram
  let fragment ← ofExcept (Fragment.ofSelection d ids)
  let outcome ← runDelete ids
  return { outcome with clipboard := some fragment.encode }

/-- New ids for the elements of a fragment, taken from the supply. -/
def instantiate (f : Fragment) (location : Option Point) : Edit Fragment := do
  let w ← get
  let (fresh, ids) := f.instantiate w.diagram.model.hasNode location w.ids
  set { w with ids := ids }
  return fresh

def runPaste (clipboard : Clipboard) (location : Option Point) : Edit Outcome := do
  let fragment ← ofExcept (Fragment.ofClipboard clipboard)
  let fresh ← instantiate fragment location
  changeEach Diagram.insertNode fresh.nodes
  changeEach Diagram.insertEdge fresh.edges
  return { Outcome.nothing with created := fresh.ids }

/-- Gives the element on show the default data of its type again. -/
def runRefreshShowcase (l : Language) : Edit Outcome := do
  let d ← diagram
  match d.element? showcaseId with
  | none => throw (.notFound showcaseId)
  | some element =>
    let type ← ofExcept (typeOf l element.kind element.tag)
    let number := max (d.model.count element.kind element.tag) 1
    change (Diagram.setData showcaseId (type.instantiate number))
    return .nothing

def run (c : EditContext) : Operation → Edit Outcome
  | createNode tag location => runCreateNode c.language tag location
  | createEdge tag source target => runCreateEdge c.language tag source target
  | deleteElements ids => runDelete ids
  | changeBounds bounds => runChangeBounds bounds
  | changeRouting routings => runChangeRouting routings
  | reconnectEdge edge source target => do
    attempt (Diagram.relink edge source target)
    return .nothing
  | editLabel label text => runEditLabel label text
  | changeData element data mode => runChangeData c element data mode
  | cut ids => runCut ids
  | paste clipboard location => runPaste clipboard location
  | refreshShowcase => runRefreshShowcase c.language

/-- Applies an operation: what it reports or why it is refused, and the workspace
afterwards. -/
def apply (op : Operation) (c : EditContext) (w : Workspace) : Except EditError Outcome × Workspace :=
  (op.run c).run.run w

end Operation

namespace Diagram

/-- A diagram that shows one type: a node, or an edge between two plain nodes. -/
def showcase (l : Language) (tag : TypeTag) (modelId : String) : Except EditError Diagram :=
  let start := empty modelId
  match l.find? .node tag, l.find? .edge tag with
  | some t, _ =>
    start.insertNode ⟨Operation.showcaseId, tag, .origin, some .standard, t.instantiate 1⟩
  | none, some t => do
    let d ← start.insertNode ⟨"showcase_source", "", .origin, none, .emptyObject⟩
    let d ← d.insertNode ⟨"showcase_target", "", ⟨200, 0⟩, none, .emptyObject⟩
    d.insertEdge ⟨Operation.showcaseId, tag, "showcase_source", "showcase_target", [], t.instantiate 1⟩
  | none, none => .error (.unknownType tag)

end Diagram

end DiagramEditor
