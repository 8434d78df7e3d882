import DiagramEditor.Diagram
import DiagramEditor.Keyed.Model

/-!
# Diagrams over maps

A diagram whose model is held as maps. The index is built from the elements as they are
listed and knows them by their ids, while the model is changed under keys.
-/

set_option autoImplicit false

namespace DiagramEditor

open Json

structure KeyedDiagram where
  model : KeyedModel
  index : Index

namespace KeyedDiagram

def empty (id : String) : KeyedDiagram := ⟨.empty id, .empty⟩

/-- The diagram without the keys. -/
def plain (d : KeyedDiagram) : Diagram := ⟨d.model.plain, d.index⟩

/-- A diagram of a model that passes its check. -/
def ofModel (m : KeyedModel) : Except EditError KeyedDiagram :=
  match m.check with
  | .error e => .error e
  | .ok () =>
    match Index.build m.plain with
    | .error e => .error e
    | .ok x => .ok ⟨m, x⟩

def element? (d : KeyedDiagram) (id : ElementId) : Option Element :=
  match d.index.kind? id with
  | some .node => (d.model.node? id).map .node
  | some .edge => (d.model.edge? id).map .edge
  | none => none

def insertNode (n : Node) (d : KeyedDiagram) : Except EditError KeyedDiagram :=
  if d.model.contains n.id then .error (.duplicateId n.id)
  else
    match d.index.insertNode n with
    | .error e => .error e
    | .ok x => .ok ⟨d.model.addNode n, x⟩

def insertEdge (e : Edge) (d : KeyedDiagram) : Except EditError KeyedDiagram :=
  if d.model.contains e.id then .error (.duplicateId e.id)
  else
    match d.index.insertEdge e with
    | .error e => .error e
    | .ok x => .ok ⟨d.model.addEdge e, x⟩

/-- Removes an element, a node with all its edges, and tells the ids removed. -/
def remove (id : ElementId) (d : KeyedDiagram) : Except EditError (KeyedDiagram × List ElementId) :=
  match d.index.kind? id with
  | some .node =>
    let (x, incident) := d.index.removeNode id
    .ok (⟨incident.foldl KeyedModel.eraseEdge (d.model.eraseNode id), x⟩, id :: incident)
  | some .edge => .ok (⟨d.model.eraseEdge id, (d.index.removeEdge id).1⟩, [id])
  | none => .error (.notFound id)

def setBounds (id : ElementId) (position : Option Point) (size : Option Size) (d : KeyedDiagram) :
    Except EditError KeyedDiagram :=
  if d.model.hasNode id then
    .ok { d with model := d.model.updateNode id (Diagram.Node.withBounds · position size) }
  else .error (.notFound id)

def setRouting (id : ElementId) (points : List Point) (d : KeyedDiagram) : Except EditError KeyedDiagram :=
  if d.model.hasEdge id then
    .ok { d with model := d.model.updateEdge id fun e => { e with routing := points } }
  else .error (.notFound id)

/-- Gives an edge new ends, both of which must be nodes. The edge is linked under its own id. -/
def relink (id source target : ElementId) (d : KeyedDiagram) : Except EditError Unit × KeyedDiagram :=
  match d.model.edge? id with
  | none => (.error (.notFound id), d)
  | some e =>
    match [source, target].find? (d.index.kind? · != some .node) with
    | some node => (.error (.danglingReference id node), d)
    | none =>
      let m := d.model.updateEdge id fun e => { e with source := source, target := target }
      match d.index.reconnect { e with source := source, target := target } with
      | .error fault => (.error fault, ⟨m, d.index⟩)
      | .ok x => (.ok (), ⟨m, x⟩)

/-- Replaces the bound data of an element. -/
def setData (id : ElementId) (data : Value) (d : KeyedDiagram) : Except EditError KeyedDiagram :=
  match d.element? id with
  | some (.node _) => .ok { d with model := d.model.updateNode id fun n => { n with data := data } }
  | some (.edge _) => .ok { d with model := d.model.updateEdge id fun e => { e with data := data } }
  | none => .error (.notFound id)

/-- Renders the elements and indexes what was rendered. -/
def render (l : Language) (d : KeyedDiagram) : Except EditError (KeyedDiagram × Rendering) :=
  match l.render d.model.plain with
  | .error e => .error (.template e)
  | .ok r => .ok ({ d with index := d.index.indexVisuals r.graph }, r)

def checkEdges (x : Index) : Table ElementId Edge → Option IndexMismatch
  | [] => none
  | (key, e) :: rest =>
    match x.edgeSlot? key with
    | none => some (.edgeNotIndexed key)
    | some slot =>
      match x.topology.arc? slot with
      | none => some (.edgeNotLinked key)
      | some a =>
        if x.topology.node? a.source = some e.source ∧ x.topology.node? a.target = some e.target then
          checkEdges x rest
        else some (.endpoints key)

/-- The first thing in which the index differs from the model, whose elements go by their keys. -/
def mismatch? (d : KeyedDiagram) : Option IndexMismatch :=
  if d.index.size ≠ d.model.size then some (.sizes d.index.size d.model.size)
  else
    match d.model.nodes.entries.find? (!d.index.isNode ·.1) with
    | some (key, _) => some (.nodeNotIndexed key)
    | none =>
      match checkEdges d.index d.model.edges.entries with
      | some difference => some difference
      | none =>
        if d.index.topology.nodes.length ≠ d.model.nodes.size ∨
            d.index.topology.arcs.length ≠ d.model.edges.size then
          some .topology
        else
          match d.index.visuals.find? (!d.model.contains ·.2.owner) with
          | some (visual, entry) => some (.strayVisual visual entry.owner)
          | none => none

end KeyedDiagram

end DiagramEditor
