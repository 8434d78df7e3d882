import DiagramEditor.Keyed.Diagram
import DiagramEditor.Operation.Apply

/-!
# Operations over maps

The operations step by step as they run where the model is held as maps: the same lookups in
the same order, by key wherever the model is asked, and the same changes.
-/

set_option autoImplicit false

namespace DiagramEditor

open Json

structure KeyedWorkspace where
  diagram : KeyedDiagram
  ids : IdSupply

abbrev KeyedEdit := ExceptT EditError (StateM KeyedWorkspace)

namespace KeyedEdit

open Operation (typeOf showcaseId bindingOf? combine dataIssues)

def diagram : KeyedEdit KeyedDiagram := do return (← get).diagram

/-- Makes a change, or stops where it is refused. -/
def change (f : KeyedDiagram → Except EditError KeyedDiagram) : KeyedEdit Unit := do
  let w ← get
  match f w.diagram with
  | .error e => throw e
  | .ok d => set { w with diagram := d }

/-- Makes a change that says itself which diagram it leaves where it is refused. -/
def attempt (f : KeyedDiagram → Except EditError Unit × KeyedDiagram) : KeyedEdit Unit := do
  let w ← get
  let (result, d) := f w.diagram
  set { w with diagram := d }
  ofExcept result

def freshId : KeyedEdit ElementId := do
  let w ← get
  let (id, ids) := w.ids.takeId
  set { w with ids := ids }
  return id

def require (found : ElementId → Bool) (ids : List ElementId) : KeyedEdit Unit :=
  match ids.find? (!found ·) with
  | some id => throw (.notFound id)
  | none => pure ()

def changeEach {α : Type} (f : α → KeyedDiagram → Except EditError KeyedDiagram) : List α → KeyedEdit Unit
  | [] => return
  | a :: rest => do
    change (f a)
    changeEach f rest

def createNode (l : Language) (tag : TypeTag) (location : Option Point) : KeyedEdit Outcome := do
  let type ← ofExcept (typeOf l .node tag)
  let id ← freshId
  let d ← diagram
  let data := type.instantiate (d.model.plain.count .node tag + 1)
  change (KeyedDiagram.insertNode ⟨id, tag, location.getD .origin, some .standard, data⟩)
  return { Outcome.nothing with created := [id] }

def createEdge (l : Language) (tag : TypeTag) (source target : ElementId) : KeyedEdit Outcome := do
  let type ← ofExcept (typeOf l .edge tag)
  let id ← freshId
  let d ← diagram
  let data := type.instantiate (d.model.plain.count .edge tag + 1)
  change (KeyedDiagram.insertEdge ⟨id, tag, source, target, [], data⟩)
  return { Outcome.nothing with created := [id] }

def removeOne (id : ElementId) : KeyedEdit (List ElementId) := do
  let w ← get
  match w.diagram.remove id with
  | .error e => throw e
  | .ok (d, removed) =>
    set { w with diagram := d }
    return removed

def removeEach : List ElementId → KeyedEdit (List ElementId)
  | [] => return []
  | id :: rest => do
    let d ← diagram
    let removed ← if (d.element? id).isSome then removeOne id else pure []
    let more ← removeEach rest
    return removed ++ more

def delete (ids : List ElementId) : KeyedEdit Outcome := do
  let d ← diagram
  require (fun id => (d.element? id).isSome) ids
  let removed ← removeEach ids
  return { Outcome.nothing with removed := removed }

def each {α : Type} (found : KeyedModel → ElementId → Bool) (element : α → ElementId)
    (f : α → KeyedDiagram → Except EditError KeyedDiagram) (changes : List α) : KeyedEdit Outcome := do
  let d ← diagram
  require (found d.model) (changes.map element)
  changeEach f changes
  return .nothing

def changeBounds (bounds : List Bounds) : KeyedEdit Outcome :=
  each KeyedModel.hasNode (·.element) (fun b => KeyedDiagram.setBounds b.element b.position b.size) bounds

def changeRouting (routings : List Routing) : KeyedEdit Outcome :=
  each KeyedModel.hasEdge (·.element) (fun r => KeyedDiagram.setRouting r.element r.points) routings

/-- Where the text of a label is kept: an element, the id it was found by and a path into its data. -/
def labelTarget? (d : KeyedDiagram) (label : String) : Option (ElementId × Element × Path) := do
  let entry ← d.index.visual? label
  let binding ← bindingOf? entry
  let path ← (Path.parse binding).toOption
  let owner ← d.index.nearest? label
  let element ← d.element? owner
  return (owner, element, path)

def editLabel (label text : String) : KeyedEdit Outcome := do
  let d ← diagram
  match labelTarget? d label with
  | none => throw (.bindingNotFound label)
  | some (owner, element, path) =>
    let assignment := Path.assign path (.string text) element.data
    match assignment.fault with
    | some _ => throw (.bindingNotFound label)
    | none =>
      change (KeyedDiagram.setData owner assignment.data)
      return .nothing

def changeData (c : EditContext) (id : ElementId) (data : Value) (mode : ChangeMode) : KeyedEdit Outcome := do
  let d ← diagram
  match d.element? id with
  | none => throw (.notFound id)
  | some element =>
    let next := combine mode element.data data
    match dataIssues c element next with
    | [] =>
      change (KeyedDiagram.setData id next)
      return .nothing
    | issues => throw (.schemaViolation id issues)

def cut (ids : List ElementId) : KeyedEdit Outcome := do
  let d ← diagram
  let fragment ← ofExcept (Fragment.ofSelection d.plain ids)
  let outcome ← delete ids
  return { outcome with clipboard := some fragment.encode }

def instantiate (f : Fragment) (location : Option Point) : KeyedEdit Fragment := do
  let w ← get
  let (fresh, ids) := f.instantiate w.diagram.model.hasNode location w.ids
  set { w with ids := ids }
  return fresh

def paste (clipboard : Clipboard) (location : Option Point) : KeyedEdit Outcome := do
  let fragment ← ofExcept (Fragment.ofClipboard clipboard)
  let fresh ← instantiate fragment location
  changeEach KeyedDiagram.insertNode fresh.nodes
  changeEach KeyedDiagram.insertEdge fresh.edges
  return { Outcome.nothing with created := fresh.ids }

def refreshShowcase (l : Language) : KeyedEdit Outcome := do
  let d ← diagram
  match d.element? showcaseId with
  | none => throw (.notFound showcaseId)
  | some element =>
    let type ← ofExcept (typeOf l element.kind element.tag)
    let number := max (d.model.plain.count element.kind element.tag) 1
    change (KeyedDiagram.setData showcaseId (type.instantiate number))
    return .nothing

end KeyedEdit

namespace Operation

def runKeyed (c : EditContext) : Operation → KeyedEdit Outcome
  | createNode tag location => KeyedEdit.createNode c.language tag location
  | createEdge tag source target => KeyedEdit.createEdge c.language tag source target
  | deleteElements ids => KeyedEdit.delete ids
  | changeBounds bounds => KeyedEdit.changeBounds bounds
  | changeRouting routings => KeyedEdit.changeRouting routings
  | reconnectEdge edge source target => do
    KeyedEdit.attempt (KeyedDiagram.relink edge source target)
    return .nothing
  | editLabel label text => KeyedEdit.editLabel label text
  | changeData element data mode => KeyedEdit.changeData c element data mode
  | cut ids => KeyedEdit.cut ids
  | paste clipboard location => KeyedEdit.paste clipboard location
  | refreshShowcase => KeyedEdit.refreshShowcase c.language

/-- Applies an operation where the model is held as maps. -/
def applyKeyed (op : Operation) (c : EditContext) (w : KeyedWorkspace) :
    Except EditError Outcome × KeyedWorkspace :=
  (op.runKeyed c).run.run w

end Operation

end DiagramEditor
