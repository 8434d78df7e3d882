import DiagramEditor.Visual.Basic

/-!
# The index of a diagram

The index knows which ids exist and of which kind, which nodes an edge links, and
for every rendered element its parent and the model element it was made for. What
links what is kept in a topology, whose nodes and edges go by slots of their own;
two tables lead from ids to slots. The edge linked last stands first, which is the
order in which the edges of a node are listed. `mismatch?` compares an index with a
model.
-/

set_option autoImplicit false

namespace DiagramEditor

open Json

structure Arc where
  slot : Nat
  source : Nat
  target : Nat
  id : ElementId
deriving DecidableEq, Repr

/-- A directed graph. The slot of a node or edge stays the same while others come
and go, and is not given out again. Whether it is cannot be seen by who holds no slot of
what is gone. -/
structure Topology where
  nodes : Table Nat ElementId
  /-- The edge linked last comes first. -/
  arcs : List Arc
  nextNode : Nat
  nextArc : Nat

namespace Topology

def empty : Topology := ⟨[], [], 0, 0⟩

def node? (t : Topology) (slot : Nat) : Option ElementId := Table.get? slot t.nodes

def arc? (t : Topology) (slot : Nat) : Option Arc := t.arcs.find? (·.slot == slot)

/-- The slot of the new node comes first. -/
def addNode (id : ElementId) (t : Topology) : Nat × Topology :=
  (t.nextNode, { t with nodes := t.nodes ++ [(t.nextNode, id)], nextNode := t.nextNode + 1 })

/-- The slot of the new edge comes first. -/
def addArc (source target : Nat) (id : ElementId) (t : Topology) : Nat × Topology :=
  (t.nextArc, { t with arcs := ⟨t.nextArc, source, target, id⟩ :: t.arcs, nextArc := t.nextArc + 1 })

def removeArc (slot : Nat) (t : Topology) : Topology := { t with arcs := t.arcs.filter (·.slot != slot) }

/-- A node goes with the edges at it. -/
def removeNode (slot : Nat) (t : Topology) : Topology :=
  { t with
    nodes := Table.erase slot t.nodes
    arcs := t.arcs.filter fun a => a.source != slot && a.target != slot }

def arcsFrom (t : Topology) (slot : Nat) : List Arc := t.arcs.filter (·.source == slot)

def arcsTo (t : Topology) (slot : Nat) : List Arc := t.arcs.filter (·.target == slot)

end Topology

structure VisualEntry where
  kind : String
  parent : Option String
  /-- The node or edge it was made for. -/
  owner : ElementId
  args : Members

structure Index where
  kinds : Table ElementId ElementKind
  topology : Topology
  nodeSlots : Table ElementId Nat
  edgeSlots : Table ElementId Nat
  visuals : Table String VisualEntry

inductive IndexMismatch where
  | sizes (indexed held : Nat)
  | nodeNotIndexed (id : ElementId)
  | edgeNotIndexed (id : ElementId)
  | edgeNotLinked (id : ElementId)
  | endpoints (id : ElementId)
  | topology
  | strayVisual (visual : String) (owner : ElementId)
deriving DecidableEq, Repr

def IndexMismatch.message : IndexMismatch → String
  | .sizes indexed held =>
    "index holds " ++ toString indexed ++ " ids, model holds " ++ toString held ++ " elements"
  | .nodeNotIndexed id => "node '" ++ id ++ "' is not indexed as a node"
  | .edgeNotIndexed id => "edge '" ++ id ++ "' is not indexed as an edge"
  | .edgeNotLinked id => "edge '" ++ id ++ "' has no topology entry"
  | .endpoints id => "edge '" ++ id ++ "' endpoints differ from the model"
  | .topology => "topology size differs from the model"
  | .strayVisual visual owner =>
    "visual '" ++ visual ++ "' refers to absent element '" ++ owner ++ "'"

namespace Index

def empty : Index := ⟨[], .empty, [], [], []⟩

def kind? (x : Index) (id : ElementId) : Option ElementKind := Table.get? id x.kinds

def nodeSlot? (x : Index) (id : ElementId) : Option Nat := Table.get? id x.nodeSlots

def edgeSlot? (x : Index) (id : ElementId) : Option Nat := Table.get? id x.edgeSlots

def contains (x : Index) (id : ElementId) : Bool := (x.kind? id).isSome

def size (x : Index) : Nat := x.kinds.length

def isEmpty (x : Index) : Bool := x.kinds.isEmpty

def insertNode (n : Node) (x : Index) : Except EditError Index :=
  if x.contains n.id then .error (.duplicateId n.id)
  else
    let (slot, topology) := x.topology.addNode n.id
    .ok
      { x with
        topology := topology
        nodeSlots := Table.put n.id slot x.nodeSlots
        kinds := Table.put n.id .node x.kinds }

/-- The slots of the two ends of an edge. -/
def ends (x : Index) (e : Edge) : Except EditError (Nat × Nat) :=
  match x.nodeSlot? e.source, x.nodeSlot? e.target with
  | none, _ => .error (.danglingReference e.id e.source)
  | some _, none => .error (.danglingReference e.id e.target)
  | some source, some target => .ok (source, target)

def insertEdge (e : Edge) (x : Index) : Except EditError Index :=
  if x.contains e.id then .error (.duplicateId e.id)
  else
    match x.ends e with
    | .error fault => .error fault
    | .ok (source, target) =>
      let (slot, topology) := x.topology.addArc source target e.id
      .ok
        { x with
          topology := topology
          edgeSlots := Table.put e.id slot x.edgeSlots
          kinds := Table.put e.id .edge x.kinds }

/-- Unlinks an edge and links it again between its present ends. -/
def reconnect (e : Edge) (x : Index) : Except EditError Index :=
  match x.ends e with
  | .error fault => .error fault
  | .ok (source, target) =>
    match x.edgeSlot? e.id with
    | none => .error (.notFound e.id)
    | some old =>
      let (slot, topology) := (x.topology.removeArc old).addArc source target e.id
      .ok { x with topology := topology, edgeSlots := Table.put e.id slot x.edgeSlots }

def forgetVisualsOf (owner : ElementId) (x : Index) : Index :=
  { x with visuals := x.visuals.filter (·.2.owner != owner) }

def dropEdge (id : ElementId) (slot : Nat) (x : Index) : Index :=
  forgetVisualsOf id
    { x with
      edgeSlots := Table.erase id x.edgeSlots
      topology := x.topology.removeArc slot
      kinds := Table.erase id x.kinds }

/-- Removes an edge, and tells whether it was there. -/
def removeEdge (id : ElementId) (x : Index) : Index × Bool :=
  match x.edgeSlot? id with
  | none => (x, false)
  | some slot => (x.dropEdge id slot, true)

/-- The edges of a node, each once: those that leave it, then those that only
reach it, the edge linked last first. -/
def incident (x : Index) (node : ElementId) : List ElementId :=
  match x.nodeSlot? node with
  | none => []
  | some slot => ((x.topology.arcsFrom slot ++ x.topology.arcsTo slot).map (·.id)).eraseDups

def removeEdges (ids : List ElementId) (x : Index) : Index :=
  ids.foldl (fun x id => (x.removeEdge id).1) x

def dropNode (id : ElementId) (slot : Nat) (x : Index) : Index :=
  forgetVisualsOf id
    { x with
      nodeSlots := Table.erase id x.nodeSlots
      topology := x.topology.removeNode slot
      kinds := Table.erase id x.kinds }

/-- Removes a node with its edges, and tells which edges these were. -/
def removeNode (id : ElementId) (x : Index) : Index × List ElementId :=
  let incident := x.incident id
  let x := x.removeEdges incident
  match x.nodeSlot? id with
  | none => (x, incident)
  | some slot => (x.dropNode id slot, incident)

def insertNodes : List Node → Index → Except EditError Index
  | [], x => .ok x
  | n :: rest, x =>
    match x.insertNode n with
    | .error e => .error e
    | .ok x => insertNodes rest x

def insertEdges : List Edge → Index → Except EditError Index
  | [], x => .ok x
  | e :: rest, x =>
    match x.insertEdge e with
    | .error e => .error e
    | .ok x => insertEdges rest x

def build (m : Model) : Except EditError Index :=
  match insertNodes m.nodes empty with
  | .error e => .error e
  | .ok x => insertEdges m.edges x

/-- The entry for an element, which replaces an earlier one of its id. -/
def recordVisual (owner : ElementId) (visuals : Table String VisualEntry) :
    VisualElement × Option String → Table String VisualEntry
  | (v, parent) => Table.put v.id ⟨v.kind, parent, owner, v.args⟩ visuals

def recordRoot (visuals : Table String VisualEntry) (root : VisualElement) : Table String VisualEntry :=
  (root.walk none).foldl (recordVisual root.id) visuals

/-- Indexes a rendered graph in place of the one before. -/
def indexVisuals (g : VisualGraph) (x : Index) : Index :=
  { x with visuals := g.children.foldl recordRoot [] }

def visual? (x : Index) (id : String) : Option VisualEntry := Table.get? id x.visuals

/-- The model element a rendered one was made for. An id that was not rendered
counts only if it is an element itself. -/
def nearest? (x : Index) (id : String) : Option ElementId :=
  let owner := match x.visual? id with
    | some entry => entry.owner
    | none => id
  if x.contains owner then some owner else none

def isNode (x : Index) (id : ElementId) : Bool := x.kind? id == some .node && (x.nodeSlot? id).isSome

def checkEdges (x : Index) : List Edge → Option IndexMismatch
  | [] => none
  | e :: rest =>
    match x.edgeSlot? e.id with
    | none => some (.edgeNotIndexed e.id)
    | some slot =>
      match x.topology.arc? slot with
      | none => some (.edgeNotLinked e.id)
      | some a =>
        if x.topology.node? a.source = some e.source ∧ x.topology.node? a.target = some e.target then
          checkEdges x rest
        else some (.endpoints e.id)

def mismatch? (x : Index) (m : Model) : Option IndexMismatch :=
  if x.size ≠ m.size then some (.sizes x.size m.size)
  else
    match m.nodes.find? (!x.isNode ·.id) with
    | some n => some (.nodeNotIndexed n.id)
    | none =>
      match x.checkEdges m.edges with
      | some difference => some difference
      | none =>
        if x.topology.nodes.length ≠ m.nodes.length ∨ x.topology.arcs.length ≠ m.edges.length then
          some .topology
        else
          match x.visuals.find? (!m.contains ·.2.owner) with
          | some (visual, entry) => some (.strayVisual visual entry.owner)
          | none => none

end Index

end DiagramEditor
