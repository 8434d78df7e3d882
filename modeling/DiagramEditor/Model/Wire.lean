import DiagramEditor.Model.Basic

/-!
# Models as documents

Nodes and edges are written as arrays; an id that comes twice among the nodes, or
among the edges, is refused while reading.
-/

set_option autoImplicit false

namespace DiagramEditor

open Json

namespace Point

def fields : List (Field Point) :=
  [.required "x" Decoder.float fun v p => { p with x := v },
   .required "y" Decoder.float fun v p => { p with y := v }]

def decode : Decoder Point := Record.decode fields origin

def toValue (p : Point) : Value := .object [("x", Value.ofFloat p.x), ("y", Value.ofFloat p.y)]

end Point

namespace Size

def fields : List (Field Size) :=
  [.required "width" Decoder.float fun v s => { s with width := v },
   .required "height" Decoder.float fun v s => { s with height := v }]

def decode : Decoder Size := Record.decode fields standard

def toValue (s : Size) : Value :=
  .object [("width", Value.ofFloat s.width), ("height", Value.ofFloat s.height)]

end Size

namespace Node

def fields : List (Field Node) :=
  [.required "id" Decoder.string fun v n => { n with id := v },
   .defaulted "type" Decoder.string fun v n => { n with tag := v },
   .defaulted "position" Point.decode fun v n => { n with position := v },
   .defaulted "size" (Decoder.option Size.decode) fun v n => { n with size := v },
   (Field.defaulted "boundData" Decoder.value fun v n => { n with data := v }).orNamed "model"]

def decode : Decoder Node := Record.decode fields ⟨"", "", .origin, none, .emptyObject⟩

def toValue (n : Node) : Value :=
  .object ([("id", .string n.id), ("type", .string n.tag), ("position", n.position.toValue)] ++
    (Members.whenSome "size" Size.toValue n.size ++ [("boundData", n.data)]))

end Node

namespace Edge

def fields : List (Field Edge) :=
  [.required "id" Decoder.string fun v e => { e with id := v },
   .defaulted "type" Decoder.string fun v e => { e with tag := v },
   .required "sourceId" Decoder.string fun v e => { e with source := v },
   .required "targetId" Decoder.string fun v e => { e with target := v },
   .defaulted "routingPoints" (Decoder.list Point.decode) fun v e => { e with routing := v },
   (Field.defaulted "boundData" Decoder.value fun v e => { e with data := v }).orNamed "model"]

def decode : Decoder Edge := Record.decode fields ⟨"", "", "", "", [], .emptyObject⟩

def toValue (e : Edge) : Value :=
  .object
    [("id", .string e.id), ("type", .string e.tag), ("sourceId", .string e.source),
     ("targetId", .string e.target), ("routingPoints", .array (e.routing.map Point.toValue)),
     ("boundData", e.data)]

end Edge

namespace Model

def fields : List (Field Model) :=
  [.required "id" Decoder.string fun v m => { m with id := v },
   .defaulted "nodes" (Decoder.elements (·.id) Node.decode) fun v m => { m with nodes := v },
   .defaulted "edges" (Decoder.elements (·.id) Edge.decode) fun v m => { m with edges := v }]

def decode : Decoder Model := Record.decode fields (empty "")

def toValue (m : Model) : Value :=
  .object
    [("id", .string m.id), ("nodes", .array (m.nodes.map Node.toValue)),
     ("edges", .array (m.edges.map Edge.toValue))]

end Model

end DiagramEditor
