import DiagramEditor.Model.Basic
import DiagramEditor.Table

/-!
# Models as maps

A model is held as two maps, in which every element stands under a key. The key is meant to
be the id of the element, and what is read or made here has it so, but a model may be given
with other keys. What is looked up is looked up by key; what is listed is listed without the
keys, and `plain` is all that is left then.
-/

set_option autoImplicit false

namespace DiagramEditor

/-- What is kept under its own id. -/
class Keyed (α : Type) where
  key : α → ElementId

instance : Keyed Node := ⟨Node.id⟩

instance : Keyed Edge := ⟨Edge.id⟩

/-- A map that keeps its entries in the order in which their keys came. -/
structure KeyedMap (α : Type) where
  entries : Table ElementId α
  distinct : (entries.map Prod.fst).Nodup

namespace KeyedMap

variable {α : Type}

def empty : KeyedMap α := ⟨[], List.nodup_nil⟩

def get? (key : ElementId) (m : KeyedMap α) : Option α := Table.get? key m.entries

def has (m : KeyedMap α) (key : ElementId) : Bool := (m.get? key).isSome

def values (m : KeyedMap α) : List α := m.entries.map Prod.snd

def size (m : KeyedMap α) : Nat := m.entries.length

def put (key : ElementId) (a : α) (m : KeyedMap α) : KeyedMap α :=
  ⟨Table.put key a m.entries, Table.nodup_put key a m.distinct⟩

def erase (key : ElementId) (m : KeyedMap α) : KeyedMap α :=
  ⟨Table.erase key m.entries, Table.nodup_erase key m.distinct⟩

/-- Changes what stands under a key, which stays the key. -/
def adjust (key : ElementId) (f : α → α) (m : KeyedMap α) : KeyedMap α where
  entries := m.entries.map fun p => (p.1, if p.1 == key then f p.2 else p.2)
  distinct := by
    rw [List.map_map]
    exact m.distinct

/-- Every entry stands under its own id. -/
def Own [Keyed α] (m : KeyedMap α) : Prop := ∀ p ∈ m.entries, p.1 = Keyed.key p.2

instance [Keyed α] (m : KeyedMap α) : Decidable m.Own :=
  inferInstanceAs (Decidable (∀ p ∈ m.entries, p.1 = Keyed.key p.2))

end KeyedMap

structure KeyedModel where
  id : String
  nodes : KeyedMap Node
  edges : KeyedMap Edge

namespace KeyedModel

def empty (id : String) : KeyedModel := ⟨id, .empty, .empty⟩

/-- The elements without their keys. -/
def plain (m : KeyedModel) : Model := ⟨m.id, m.nodes.values, m.edges.values⟩

def node? (m : KeyedModel) (key : ElementId) : Option Node := m.nodes.get? key

def edge? (m : KeyedModel) (key : ElementId) : Option Edge := m.edges.get? key

def hasNode (m : KeyedModel) (key : ElementId) : Bool := m.nodes.has key

def hasEdge (m : KeyedModel) (key : ElementId) : Bool := m.edges.has key

def contains (m : KeyedModel) (key : ElementId) : Bool := m.hasNode key || m.hasEdge key

def size (m : KeyedModel) : Nat := m.nodes.size + m.edges.size

def danglingEnd? (m : KeyedModel) (e : Edge) : Option ElementId := [e.source, e.target].find? (!m.hasNode ·)

def checkEnds (m : KeyedModel) : List Edge → Except EditError Unit
  | [] => .ok ()
  | e :: rest =>
    match m.danglingEnd? e with
    | some node => .error (.danglingReference e.id node)
    | none => checkEnds m rest

/-- Asks that no key is shared by a node and an edge and that the ends of every edge are keys of
nodes. It does not ask whose keys they are. -/
def check (m : KeyedModel) : Except EditError Unit :=
  match m.edges.entries.find? (m.hasNode ·.1) with
  | some (key, _) => .error (.duplicateId key)
  | none => m.checkEnds m.edges.values

/-- Puts a node under its own id. -/
def addNode (m : KeyedModel) (n : Node) : KeyedModel := { m with nodes := m.nodes.put n.id n }

/-- Puts an edge under its own id. -/
def addEdge (m : KeyedModel) (e : Edge) : KeyedModel := { m with edges := m.edges.put e.id e }

def eraseNode (m : KeyedModel) (key : ElementId) : KeyedModel := { m with nodes := m.nodes.erase key }

def eraseEdge (m : KeyedModel) (key : ElementId) : KeyedModel := { m with edges := m.edges.erase key }

def updateNode (m : KeyedModel) (key : ElementId) (f : Node → Node) : KeyedModel :=
  { m with nodes := m.nodes.adjust key f }

def updateEdge (m : KeyedModel) (key : ElementId) (f : Edge → Edge) : KeyedModel :=
  { m with edges := m.edges.adjust key f }

/-- All elements stand under their own ids. -/
structure Own (m : KeyedModel) : Prop where
  nodes : m.nodes.Own
  edges : m.edges.Own

end KeyedModel

end DiagramEditor
