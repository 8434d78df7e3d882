import DiagramEditor.Session
import DiagramEditor.Visual.Wire

/-!
# Answers of the service

What a request that succeeds is answered with, and how that is written.
-/

set_option autoImplicit false

namespace DiagramEditor

open Json

inductive Answer where
  | health (sessions languages : Nat)
  | opened (id : Uuid) (sourceId : String)
  | closed
  | languageLoaded (language : Language) (rendering : Option Rendering)
  | modelLoaded (model : Model) (rendering : Option Rendering)
  | saved (sourceId modelId : String)
  | rendered (rendering : Rendering)
  | applied (op : Operation) (report : EditReport)
  | copied (clipboard : Clipboard)

namespace Answer

def typeValue (t : ElementType) : Value := .object [("type", .string t.tag), ("label", .string t.label)]

/-- The types a language offers. -/
def languageValue (l : Language) : Value :=
  .object
    [("id", .string l.id), ("name", .string l.document.name), ("version", Value.ofNat l.version),
     ("nodeTypes", .array (l.nodes.map typeValue)), ("edgeTypes", .array (l.edges.map typeValue))]

/-- The members of a value, if it has any. -/
def members : Value → Members
  | .object ms => ms
  | _ => []

def toValue : Answer → Value
  | health sessions languages =>
    .object [("status", .string "ok"), ("sessions", Value.ofNat sessions), ("languages", Value.ofNat languages)]
  | opened id sourceId => .object [("sessionId", .string id.print), ("sourceId", .string sourceId)]
  | closed => .object [("success", .bool true)]
  | languageLoaded l r =>
    .object (("language", languageValue l) :: Members.whenSome "render" Rendering.toValue r)
  | modelLoaded m r =>
    .object
      ([("modelId", .string m.id), ("nodes", Value.ofNat m.nodes.length), ("edges", Value.ofNat m.edges.length)] ++
       Members.whenSome "render" Rendering.toValue r)
  | saved sourceId modelId =>
    .object [("success", .bool true), ("sourceId", .string sourceId), ("modelId", .string modelId)]
  | rendered r => r.toValue
  | applied op report =>
    .object (("kind", .string op.kind) :: (members report.outcome.toValue ++ members report.rendering.toValue))
  | copied c => c.toValue

end Answer

end DiagramEditor
