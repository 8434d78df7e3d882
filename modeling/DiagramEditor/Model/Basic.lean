import DiagramEditor.EditError

/-!
# Graph models

A model lists the nodes and edges of one diagram in the order in which they were
made, each found by its own id. The maps that hold the elements, under keys that need not be
these ids, are left to `KeyedModel`. `check` asks that no id is shared by a node and an edge
and that both ends of every edge are nodes of the model.
-/

set_option autoImplicit false

namespace DiagramEditor

open Json

structure Point where
  x : Float
  y : Float
deriving DecidableEq

structure Size where
  width : Float
  height : Float
deriving DecidableEq

namespace Point

def origin : Point := ⟨0, 0⟩

def translate (p : Point) (dx dy : Float) : Point := ⟨p.x + dx, p.y + dy⟩

end Point

/-- The size of a node that has none of its own. -/
def Size.standard : Size := ⟨50, 25⟩

structure Node where
  id : ElementId
  tag : TypeTag
  position : Point
  size : Option Size
  data : Value

structure Edge where
  id : ElementId
  tag : TypeTag
  source : ElementId
  target : ElementId
  routing : List Point
  data : Value

def Node.shownSize (n : Node) : Size := n.size.getD .standard

/-- A node or an edge. -/
inductive Element where
  | node (n : Node)
  | edge (e : Edge)

namespace Element

def id : Element → ElementId
  | node n => n.id
  | edge e => e.id

def tag : Element → TypeTag
  | node n => n.tag
  | edge e => e.tag

def kind : Element → ElementKind
  | node _ => .node
  | edge _ => .edge

def data : Element → Value
  | node n => n.data
  | edge e => e.data

end Element

structure Model where
  id : String
  nodes : List Node
  edges : List Edge

namespace Model

def empty (id : String) : Model := ⟨id, [], []⟩

def node? (m : Model) (id : ElementId) : Option Node := m.nodes.find? (·.id == id)

def edge? (m : Model) (id : ElementId) : Option Edge := m.edges.find? (·.id == id)

def hasNode (m : Model) (id : ElementId) : Bool := m.nodes.any (·.id == id)

def hasEdge (m : Model) (id : ElementId) : Bool := m.edges.any (·.id == id)

def contains (m : Model) (id : ElementId) : Bool := m.hasNode id || m.hasEdge id

/-- The element of that id, nodes before edges. -/
def element? (m : Model) (id : ElementId) : Option Element :=
  match m.node? id with
  | some n => some (.node n)
  | none => (m.edge? id).map .edge

/-- How many elements of a kind carry the tag. -/
def count (m : Model) (kind : ElementKind) (tag : TypeTag) : Nat :=
  match kind with
  | .node => m.nodes.countP (·.tag == tag)
  | .edge => m.edges.countP (·.tag == tag)

def size (m : Model) : Nat := m.nodes.length + m.edges.length

def isEmpty (m : Model) : Bool := m.nodes.isEmpty && m.edges.isEmpty

/-- The first end of an edge that is no node. -/
def danglingEnd? (m : Model) (e : Edge) : Option ElementId := [e.source, e.target].find? (!m.hasNode ·)

def checkEnds (m : Model) : List Edge → Except EditError Unit
  | [] => .ok ()
  | e :: rest =>
    match m.danglingEnd? e with
    | some node => .error (.danglingReference e.id node)
    | none => checkEnds m rest

def check (m : Model) : Except EditError Unit :=
  match m.edges.find? (m.hasNode ·.id) with
  | some e => .error (.duplicateId e.id)
  | none => checkEnds m m.edges

/-- The first id that comes a second time. -/
def repeated? : List ElementId → List ElementId → Option ElementId
  | _, [] => none
  | seen, id :: rest => if seen.contains id then some id else repeated? (id :: seen) rest

/-- A checked model of the given elements. -/
def ofParts (id : String) (nodes : List Node) (edges : List Edge) : Except EditError Model :=
  match repeated? [] (nodes.map (·.id)) with
  | some id => .error (.duplicateId id)
  | none =>
    match repeated? [] (edges.map (·.id)) with
    | some id => .error (.duplicateId id)
    | none =>
      let m : Model := ⟨id, nodes, edges⟩
      match m.check with
      | .error e => .error e
      | .ok () => .ok m

def addNode (m : Model) (n : Node) : Model := { m with nodes := m.nodes ++ [n] }

def addEdge (m : Model) (e : Edge) : Model := { m with edges := m.edges ++ [e] }

def eraseNode (m : Model) (id : ElementId) : Model := { m with nodes := m.nodes.filter (·.id != id) }

def eraseEdge (m : Model) (id : ElementId) : Model := { m with edges := m.edges.filter (·.id != id) }

/-- Changes the nodes of that id. -/
def updateNode (m : Model) (id : ElementId) (f : Node → Node) : Model :=
  { m with nodes := m.nodes.map fun n => if n.id == id then f n else n }

/-- Changes the edges of that id. -/
def updateEdge (m : Model) (id : ElementId) (f : Edge → Edge) : Model :=
  { m with edges := m.edges.map fun e => if e.id == id then f e else e }

@[simp] theorem size_addNode (m : Model) (n : Node) : (m.addNode n).size = m.size + 1 := by
  simp [size, addNode]
  omega

@[simp] theorem size_addEdge (m : Model) (e : Edge) : (m.addEdge e).size = m.size + 1 := by
  simp [size, addEdge]
  omega

end Model

end DiagramEditor
