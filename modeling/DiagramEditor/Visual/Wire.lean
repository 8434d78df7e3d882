import DiagramEditor.Visual.Basic

/-!
# Rendered trees as documents

The properties of an element stand beside its id and type in one object; every
member that is not part of the structure is a property.
-/

set_option autoImplicit false

namespace DiagramEditor

open Json

namespace VisualElement

/-- The parts read so far. -/
structure Draft where
  id : Option String
  kind : Option String
  properties : Members
  args : Option Members
  children : Option (List VisualElement)

def decodeArgs : Decoder Members
  | .object members =>
    match (Tree.object members).toValue? with
    | some (.object ms) => .ok ms
    | _ => .error .notJson
  | t => .error (Decoder.objectMismatch t)

/-- Reads the members of an element; `child` reads an element inside it. -/
def readMembers (child : Decoder VisualElement) :
    List (Option String × Tree) → Draft → Except WireError Draft
  | [], d => .ok d
  | (none, _) :: _, _ => .error .notJson
  | (some key, t) :: rest, d =>
    match key with
    | "id" =>
      if d.id.isSome then .error (.duplicateField "id")
      else do readMembers child rest { d with id := some (← Decoder.string t) }
    | "type" =>
      if d.kind.isSome then .error (.duplicateField "type")
      else do readMembers child rest { d with kind := some (← Decoder.string t) }
    | "args" =>
      if d.args.isSome then .error (.duplicateField "args")
      else do readMembers child rest { d with args := some (← decodeArgs t) }
    | "children" =>
      if d.children.isSome then .error (.duplicateField "children")
      else do readMembers child rest { d with children := some (← Decoder.list child t) }
    | _ =>
      match t.toValue? with
      | none => .error .notJson
      | some v => readMembers child rest { d with properties := d.properties.insert key v }

/-- Reads an element; the fuel is more than the depth of the tree. -/
def decodeFuel : Nat → Decoder VisualElement
  | 0, _ => .error .notJson
  | fuel + 1, .object members => do
    let d ← readMembers (decodeFuel fuel) members ⟨none, none, [], none, none⟩
    match d.id, d.kind with
    | none, _ => .error (.missingField "id")
    | _, none => .error (.missingField "type")
    | some id, some kind => return ⟨id, kind, d.properties, d.args.getD [], d.children.getD []⟩
  | _, t => .error (Decoder.objectMismatch t)

def decode : Decoder VisualElement := fun t => decodeFuel (t.depth + 1) t

mutual

def toValue : VisualElement → Value
  | ⟨id, kind, properties, args, children⟩ =>
    .object (("id", .string id) :: ("type", .string kind) :: (properties ++
      (if args.isEmpty then [] else [("args", .object args)]) ++
      (match children with
        | [] => []
        | v :: rest => [("children", .array (v.toValue :: toValues rest))])))

def toValues : List VisualElement → List Value
  | [] => []
  | v :: rest => v.toValue :: toValues rest

end

end VisualElement

namespace VisualGraph

def fields : List (Field VisualGraph) :=
  [.required "id" Decoder.string fun v g => { g with id := v },
   .required "type" Decoder.string fun v g => { g with kind := v },
   .required "children" (Decoder.list VisualElement.decode) fun v g => { g with children := v }]

def decode : Decoder VisualGraph := Record.decode fields ⟨"", "", []⟩

def toValue (g : VisualGraph) : Value :=
  .object
    [("id", .string g.id), ("type", .string g.kind), ("children", .array (VisualElement.toValues g.children))]

end VisualGraph

namespace Diagnostic

def fields : List (Field Diagnostic) :=
  [.required "elementId" Decoder.string fun v d => { d with element := v },
   .required "templateId" Decoder.string fun v d => { d with template := v },
   .required "reason" Decoder.string fun v d => { d with reason := v }]

def decode : Decoder Diagnostic := Record.decode fields ⟨"", "", ""⟩

def toValue (d : Diagnostic) : Value :=
  .object
    [("elementId", .string d.element), ("templateId", .string d.template), ("reason", .string d.reason)]

end Diagnostic

namespace Rendering

def fields : List (Field Rendering) :=
  [.required "graph" VisualGraph.decode fun v r => { r with graph := v },
   .defaulted "diagnostics" (Decoder.list Diagnostic.decode) fun v r => { r with diagnostics := v }]

def decode : Decoder Rendering := Record.decode fields ⟨⟨"", "", []⟩, []⟩

def toValue (r : Rendering) : Value :=
  .object (("graph", r.graph.toValue) ::
    (if r.diagnostics.isEmpty then [] else [("diagnostics", .array (r.diagnostics.map Diagnostic.toValue))]))

end Rendering

end DiagramEditor
