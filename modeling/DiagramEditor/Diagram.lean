import DiagramEditor.Index
import DiagramEditor.Visual.Render

/-!
# Diagrams

A diagram is a model together with its index. Every change of the model changes
the index in the same step, and a change that is refused is refused before
anything is touched.
-/

set_option autoImplicit false

namespace DiagramEditor

open Json

structure Diagram where
  model : Model
  index : Index

namespace Diagram

/-- A diagram of a model whose ids are distinct and whose edges have their ends. -/
def ofModel (m : Model) : Except EditError Diagram :=
  match m.check with
  | .error e => .error e
  | .ok () =>
    match Index.build m with
    | .error e => .error e
    | .ok x => .ok ⟨m, x⟩

def empty (id : String) : Diagram := ⟨.empty id, .empty⟩

def element? (d : Diagram) (id : ElementId) : Option Element :=
  match d.index.kind? id with
  | some .node => (d.model.node? id).map .node
  | some .edge => (d.model.edge? id).map .edge
  | none => none

def insertNode (n : Node) (d : Diagram) : Except EditError Diagram :=
  if d.model.contains n.id then .error (.duplicateId n.id)
  else
    match d.index.insertNode n with
    | .error e => .error e
    | .ok x => .ok ⟨d.model.addNode n, x⟩

def insertEdge (e : Edge) (d : Diagram) : Except EditError Diagram :=
  if d.model.contains e.id then .error (.duplicateId e.id)
  else
    match d.index.insertEdge e with
    | .error e => .error e
    | .ok x => .ok ⟨d.model.addEdge e, x⟩

/-- Removes an element, a node with all its edges, and tells the ids removed. -/
def remove (id : ElementId) (d : Diagram) : Except EditError (Diagram × List ElementId) :=
  match d.index.kind? id with
  | some .node =>
    let (x, incident) := d.index.removeNode id
    .ok (⟨incident.foldl Model.eraseEdge (d.model.eraseNode id), x⟩, id :: incident)
  | some .edge => .ok (⟨d.model.eraseEdge id, (d.index.removeEdge id).1⟩, [id])
  | none => .error (.notFound id)

def Node.withBounds (n : Node) (position : Option Point) (size : Option Size) : Node :=
  { n with position := position.getD n.position, size := size.orElse fun _ => n.size }

def setBounds (id : ElementId) (position : Option Point) (size : Option Size) (d : Diagram) :
    Except EditError Diagram :=
  if d.model.hasNode id then
    .ok { d with model := d.model.updateNode id (Node.withBounds · position size) }
  else .error (.notFound id)

def setRouting (id : ElementId) (points : List Point) (d : Diagram) : Except EditError Diagram :=
  if d.model.hasEdge id then
    .ok { d with model := d.model.updateEdge id fun e => { e with routing := points } }
  else .error (.notFound id)

/-- Gives an edge new ends, both of which must be nodes. The model is changed before
the index is asked, so the diagram that is left comes with the answer. -/
def relink (id source target : ElementId) (d : Diagram) : Except EditError Unit × Diagram :=
  match d.model.edge? id with
  | none => (.error (.notFound id), d)
  | some e =>
    match [source, target].find? (d.index.kind? · != some .node) with
    | some node => (.error (.danglingReference id node), d)
    | none =>
      let m := d.model.updateEdge id fun e => { e with source := source, target := target }
      match d.index.reconnect { e with source := source, target := target } with
      | .error fault => (.error fault, ⟨m, d.index⟩)
      | .ok x => (.ok (), ⟨m, x⟩)

/-- The diagram in which an edge has new ends. -/
def reconnect (id source target : ElementId) (d : Diagram) : Except EditError Diagram :=
  match d.relink id source target with
  | (.error fault, _) => .error fault
  | (.ok (), d) => .ok d

/-- Replaces the bound data of an element. -/
def setData (id : ElementId) (data : Value) (d : Diagram) : Except EditError Diagram :=
  match d.element? id with
  | some (.node _) => .ok { d with model := d.model.updateNode id fun n => { n with data := data } }
  | some (.edge _) => .ok { d with model := d.model.updateEdge id fun e => { e with data := data } }
  | none => .error (.notFound id)

/-- Renders the model and indexes what was rendered. -/
def render (l : Language) (d : Diagram) : Except EditError (Diagram × Rendering) :=
  match l.render d.model with
  | .error e => .error (.template e)
  | .ok r => .ok ({ d with index := d.index.indexVisuals r.graph }, r)

/-- The index fits the model. -/
def isConsistent (d : Diagram) : Bool := (d.index.mismatch? d.model).isNone

end Diagram

end DiagramEditor
