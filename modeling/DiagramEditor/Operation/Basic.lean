import DiagramEditor.Clipboard

/-!
# Operations

The fixed set of edits a client may ask for, and what a successful one reports.
An operation is written as an object whose member `kind` names it.
-/

set_option autoImplicit false

namespace DiagramEditor

open Json

/-- New bounds of one node; what is absent stays. -/
structure Bounds where
  element : ElementId
  position : Option Point
  size : Option Size

structure Routing where
  element : ElementId
  points : List Point

/-- How new bound data meets the old. -/
inductive ChangeMode where
  | replace
  /-- Members of an object are put over those of the old one. -/
  | merge
deriving DecidableEq, Repr

inductive Operation where
  | createNode (tag : TypeTag) (location : Option Point)
  | createEdge (tag : TypeTag) (source target : ElementId)
  | deleteElements (ids : List ElementId)
  | changeBounds (bounds : List Bounds)
  | changeRouting (routings : List Routing)
  | reconnectEdge (edge source target : ElementId)
  | editLabel (label text : String)
  | changeData (element : ElementId) (data : Value) (mode : ChangeMode)
  | cut (ids : List ElementId)
  | paste (clipboard : Clipboard) (location : Option Point)
  | refreshShowcase

structure Outcome where
  created : List ElementId
  removed : List ElementId
  clipboard : Option Clipboard

def Outcome.nothing : Outcome := ⟨[], [], none⟩

def Outcome.toValue (o : Outcome) : Value :=
  .object
    ((if o.created.isEmpty then [] else [("created", Value.ofStrings o.created)]) ++
     (if o.removed.isEmpty then [] else [("removed", Value.ofStrings o.removed)]) ++
     Members.whenSome "clipboard" Clipboard.toValue o.clipboard)

namespace Bounds

def fields : List (Field Bounds) :=
  [.required "elementId" Decoder.string fun v b => { b with element := v },
   .defaulted "newPosition" (Decoder.option Point.decode) fun v b => { b with position := v },
   .defaulted "newSize" (Decoder.option Size.decode) fun v b => { b with size := v }]

def decode : Decoder Bounds := Record.decode fields ⟨"", none, none⟩

def toValue (b : Bounds) : Value :=
  .object
    [("elementId", .string b.element), ("newPosition", Value.ofOption (b.position.map Point.toValue)),
     ("newSize", Value.ofOption (b.size.map Size.toValue))]

end Bounds

namespace Routing

def fields : List (Field Routing) :=
  [.required "elementId" Decoder.string fun v r => { r with element := v },
   .defaulted "newRoutingPoints" (Decoder.list Point.decode) fun v r => { r with points := v }]

def decode : Decoder Routing := Record.decode fields ⟨"", []⟩

def toValue (r : Routing) : Value :=
  .object
    [("elementId", .string r.element), ("newRoutingPoints", .array (r.points.map Point.toValue))]

end Routing

namespace ChangeMode

def variants : Table String ChangeMode := [("replace", replace), ("merge", merge)]

def decode : Decoder ChangeMode := Tagged.plain variants

def name : ChangeMode → String
  | replace => "replace"
  | merge => "merge"

end ChangeMode

namespace Operation

inductive Kind where
  | createNode
  | createEdge
  | deleteElements
  | changeBounds
  | changeRouting
  | reconnectEdge
  | editLabel
  | changeData
  | cut
  | paste
  | refreshShowcase
deriving DecidableEq, Repr

/-- The names of the kinds; changing bound data has an older one too. -/
def kinds : Table String Kind :=
  [("createNode", .createNode), ("createEdge", .createEdge), ("deleteElement", .deleteElements),
   ("changeBounds", .changeBounds), ("changeRoutingPoints", .changeRouting),
   ("reconnectEdge", .reconnectEdge), ("applyLabelEdit", .editLabel),
   ("changeBoundData", .changeData), ("modelChange", .changeData), ("cut", .cut), ("paste", .paste),
   ("refreshShowcase", .refreshShowcase)]

/-- The name under which operations of a kind are written: the first they are known by. -/
def Kind.name (k : Kind) : String := (kinds.find? (·.2 == k)).elim "" Prod.fst

def variant : Operation → Kind
  | createNode _ _ => .createNode
  | createEdge _ _ _ => .createEdge
  | deleteElements _ => .deleteElements
  | changeBounds _ => .changeBounds
  | changeRouting _ => .changeRouting
  | reconnectEdge _ _ _ => .reconnectEdge
  | editLabel _ _ => .editLabel
  | changeData _ _ _ => .changeData
  | cut _ => .cut
  | paste _ _ => .paste
  | refreshShowcase => .refreshShowcase

/-- What an operation is called where it is reported. -/
def kind : Operation → String
  | createNode _ _ => "createNode"
  | createEdge _ _ _ => "createEdge"
  | deleteElements _ => "deleteElement"
  | changeBounds _ => "changeBounds"
  | changeRouting _ => "changeRoutingPoints"
  | reconnectEdge _ _ _ => "reconnectEdge"
  | editLabel _ _ => "applyLabelEdit"
  | changeData _ _ _ => "changeBoundData"
  | cut _ => "cut"
  | paste _ _ => "paste"
  | refreshShowcase => "refreshShowcase"

/-- The parts of any operation. -/
structure Draft where
  tag : TypeTag
  source : ElementId
  target : ElementId
  /-- The one element, edge or label that is meant. -/
  element : ElementId
  ids : List ElementId
  location : Option Point
  bounds : List Bounds
  routings : List Routing
  text : String
  data : Value
  mode : ChangeMode
  clipboard : Clipboard

def Draft.empty : Draft := ⟨"", "", "", "", [], none, [], [], "", .null, .replace, ⟨"", ""⟩⟩

def tagField : Field Draft := .required "elementTypeId" Decoder.string fun v d => { d with tag := v }

def sourceField : Field Draft := .required "sourceElementId" Decoder.string fun v d => { d with source := v }

def targetField : Field Draft := .required "targetElementId" Decoder.string fun v d => { d with target := v }

def elementField (name : String) : Field Draft :=
  .required name Decoder.string fun v d => { d with element := v }

def idsField (name : String) : Field Draft :=
  .required name (Decoder.list Decoder.string) fun v d => { d with ids := v }

def locationField : Field Draft :=
  .defaulted "location" (Decoder.option Point.decode) fun v d => { d with location := v }

/-- The fields of each kind, in the order in which an array gives them. -/
def fieldsOf : Kind → List (Field Draft)
  | .createNode => [tagField, locationField]
  | .createEdge => [tagField, sourceField, targetField]
  | .deleteElements => [idsField "elementIds"]
  | .changeBounds => [.required "newBounds" (Decoder.list Bounds.decode) fun v d => { d with bounds := v }]
  | .changeRouting =>
    [.required "newRoutingPoints" (Decoder.list Routing.decode) fun v d => { d with routings := v }]
  | .reconnectEdge => [elementField "edgeElementId", sourceField, targetField]
  | .editLabel =>
    [elementField "labelId", .required "text" Decoder.string fun v d => { d with text := v }]
  | .changeData =>
    [elementField "elementId",
     (Field.required "boundData" Decoder.value fun v d => { d with data := v }).orNamed "newModel",
     .defaulted "mode" ChangeMode.decode fun v d => { d with mode := v }]
  | .cut => [idsField "selectedElementIds"]
  | .paste =>
    [.required "clipboard" Clipboard.decode fun v d => { d with clipboard := v }, locationField]
  | .refreshShowcase => []

def ofDraft (d : Draft) : Kind → Operation
  | .createNode => createNode d.tag d.location
  | .createEdge => createEdge d.tag d.source d.target
  | .deleteElements => deleteElements d.ids
  | .changeBounds => changeBounds d.bounds
  | .changeRouting => changeRouting d.routings
  | .reconnectEdge => reconnectEdge d.element d.source d.target
  | .editLabel => editLabel d.element d.text
  | .changeData => changeData d.element d.data d.mode
  | .cut => cut d.ids
  | .paste => paste d.clipboard d.location
  | .refreshShowcase => refreshShowcase

def decode : Decoder Operation := fun t => do
  let (kind, content) ← Tagged.split "kind" (Tagged.byName kinds) t
  let d ← Tagged.fields (Record.decode (fieldsOf kind) .empty) content
  return ofDraft d kind

def pointOrNull (p : Option Point) : Value := Value.ofOption (p.map Point.toValue)

/-- The fields besides the kind. -/
def content : Operation → Members
  | createNode tag location => [("elementTypeId", .string tag), ("location", pointOrNull location)]
  | createEdge tag source target =>
    [("elementTypeId", .string tag), ("sourceElementId", .string source), ("targetElementId", .string target)]
  | deleteElements ids => [("elementIds", Value.ofStrings ids)]
  | changeBounds bounds => [("newBounds", .array (bounds.map Bounds.toValue))]
  | changeRouting routings => [("newRoutingPoints", .array (routings.map Routing.toValue))]
  | reconnectEdge edge source target =>
    [("edgeElementId", .string edge), ("sourceElementId", .string source), ("targetElementId", .string target)]
  | editLabel label text => [("labelId", .string label), ("text", .string text)]
  | changeData element data mode =>
    [("elementId", .string element), ("boundData", data), ("mode", .string mode.name)]
  | cut ids => [("selectedElementIds", Value.ofStrings ids)]
  | paste clipboard location => [("clipboard", clipboard.toValue), ("location", pointOrNull location)]
  | refreshShowcase => []

def toValue (op : Operation) : Value := .object (("kind", .string op.variant.name) :: op.content)

end Operation

end DiagramEditor
