import DiagramEditor.Diagram

/-!
# Clipboards

A selection is copied as a fragment: the selected nodes and edges and every edge of
a selected node, in model order. A fragment travels as text. Pasting gives every
element a new id, moves all of them by one offset, and leaves out the edges whose
ends are neither in the fragment nor nodes of the model.
-/

set_option autoImplicit false

namespace DiagramEditor

open Json

/-- What is exchanged with a client. -/
structure Clipboard where
  format : String
  payload : String
deriving DecidableEq, Repr

structure Fragment where
  nodes : List Node
  edges : List Edge

namespace Clipboard

/-- The only format understood. -/
def jsonFormat : String := "application/json"

def fields : List (Field Clipboard) :=
  [.required "format" Decoder.string fun v c => { c with format := v },
   .required "payload" Decoder.string fun v c => { c with payload := v }]

def decode : Decoder Clipboard := Record.decode fields ⟨"", ""⟩

def toValue (c : Clipboard) : Value := .object [("format", .string c.format), ("payload", .string c.payload)]

end Clipboard

namespace Fragment

def fields : List (Field Fragment) :=
  [.defaulted "nodes" (Decoder.list Node.decode) fun v f => { f with nodes := v },
   .defaulted "edges" (Decoder.list Edge.decode) fun v f => { f with edges := v }]

def decode : Decoder Fragment := Record.decode fields ⟨[], []⟩

def toValue (f : Fragment) : Value :=
  .object [("nodes", .array (f.nodes.map Node.toValue)), ("edges", .array (f.edges.map Edge.toValue))]

def ids (f : Fragment) : List ElementId := f.nodes.map (·.id) ++ f.edges.map (·.id)

/-- Writes a fragment for exchange. -/
def encode (f : Fragment) : Clipboard := ⟨Clipboard.jsonFormat, f.toValue.pretty⟩

/-- Reads a fragment. No id may come twice in it. -/
def ofClipboard (c : Clipboard) : Except EditError Fragment :=
  if c.format ≠ Clipboard.jsonFormat then .error (.malformedClipboard (.foreignFormat c.format))
  else
    match decode.ofText c.payload with
    | .error e => .error (.malformedClipboard (.document e))
    | .ok f =>
      match Model.repeated? [] f.ids with
      | some id => .error (.malformedClipboard (.duplicateElement id))
      | none => .ok f

/-- The part of a diagram spanned by a selection. -/
def ofSelection (d : Diagram) (selection : List ElementId) : Except EditError Fragment :=
  match selection.find? (!d.index.contains ·) with
  | some id => .error (.notFound id)
  | none =>
    let nodes := selection.filter (d.index.kind? · == some .node)
    let edges := selection.filter (d.index.kind? · == some .edge) ++ nodes.flatMap d.index.incident
    .ok
      { nodes := d.model.nodes.filter (nodes.contains ·.id)
        edges := d.model.edges.filter (edges.contains ·.id) }

/-- How far elements are moved when no place is given. -/
def pasteOffset : Float := 20

def least (a b : Float) : Float := if b < a then b else a

/-- The top left corner of the nodes. -/
def corner? : List Node → Option Point
  | [] => none
  | n :: rest =>
    some (rest.foldl (fun p n => ⟨least p.x n.position.x, least p.y n.position.y⟩) n.position)

def offset (f : Fragment) (location : Option Point) : Float × Float :=
  match location, corner? f.nodes with
  | some target, some origin => (target.x - origin.x, target.y - origin.y)
  | _, _ => (pasteOffset, pasteOffset)

/-- A new id for each of the given ids. -/
def rename : List ElementId → IdSupply → Table ElementId ElementId × IdSupply
  | [], ids => ([], ids)
  | id :: rest, ids =>
    let (fresh, ids) := ids.takeId
    let (names, ids) := rename rest ids
    ((id, fresh) :: names, ids)

/-- The new end of an edge: a pasted node, or a node that is there. -/
def newEnd? (names : Table ElementId ElementId) (hasNode : ElementId → Bool) (id : ElementId) : Option ElementId :=
  match Table.get? id names with
  | some fresh => some fresh
  | none => if hasNode id then some id else none

def pasteNode (names : Table ElementId ElementId) (dx dy : Float) (n : Node) : Node :=
  { n with id := (Table.get? n.id names).getD n.id, position := n.position.translate dx dy }

def pasteEdges (names : Table ElementId ElementId) (hasNode : ElementId → Bool) (dx dy : Float) :
    List Edge → IdSupply → List Edge × IdSupply
  | [], ids => ([], ids)
  | e :: rest, ids =>
    match newEnd? names hasNode e.source, newEnd? names hasNode e.target with
    | some source, some target =>
      let (fresh, ids) := ids.takeId
      let (more, ids) := pasteEdges names hasNode dx dy rest ids
      ({ e with id := fresh, source := source, target := target, routing := e.routing.map (·.translate dx dy) } ::
        more, ids)
    | _, _ => pasteEdges names hasNode dx dy rest ids

/-- The elements to insert into a diagram with the given nodes. -/
def instantiate (f : Fragment) (hasNode : ElementId → Bool) (location : Option Point) (ids : IdSupply) :
    Fragment × IdSupply :=
  let (dx, dy) := f.offset location
  let (names, ids) := rename (f.nodes.map (·.id)) ids
  let (edges, ids) := pasteEdges names hasNode dx dy f.edges ids
  (⟨f.nodes.map (pasteNode names dx dy), edges⟩, ids)

end Fragment

end DiagramEditor
