import DiagramEditor.Credentials
import DiagramEditor.Operation.Apply

/-!
# Editing sessions

A session is one client's work on one diagram under one language. A change is made
on a copy, the copy is rendered, and only when both succeed does the copy take the
place of the diagram; the rendering is kept for as long as it is current.
-/

set_option autoImplicit false

namespace DiagramEditor

inductive SessionMode where
  /-- The model of the session's source. -/
  | editing
  /-- One element, made to look at its type. -/
  | showcase (tag : TypeTag)
deriving DecidableEq

structure Session where
  /-- The name under which the model is loaded and saved. -/
  sourceId : String
  credentials : Credentials
  policy : DataPolicy
  language : Option Language
  diagram : Option Diagram
  mode : SessionMode
  /-- The rendering of the diagram, where there is a diagram and a language. -/
  rendering : Option Rendering

/-- What an operation did and what the diagram looks like after it. -/
structure EditReport where
  outcome : Outcome
  rendering : Rendering

namespace Session

/-- A session as it is opened, without language and model. -/
def start (sourceId : String) (c : Credentials) (policy : DataPolicy) : Session :=
  ⟨sourceId, c, policy, none, none, .editing, none⟩

def adopt (c : Credentials) (s : Session) : Session := { s with credentials := c }

def model (s : Session) : Except EditError Model :=
  match s.diagram with
  | some d => .ok d.model
  | none => .error .noModelLoaded

/-- Takes up a language. With a diagram there is something to render under it. -/
def installLanguage (l : Language) (s : Session) : Except EditError (Option Rendering) × Session :=
  match s.diagram with
  | none => (.ok none, { s with language := some l, rendering := none })
  | some d =>
    match d.render l with
    | .error e => (.error e, s)
    | .ok (d, r) => (.ok (some r), { s with language := some l, diagram := some d, rendering := some r })

/-- Renders a diagram where there is a language for it. -/
def renderUnder (language : Option Language) (d : Diagram) : Except EditError (Diagram × Option Rendering) :=
  match language with
  | none => .ok (d, none)
  | some l =>
    match d.render l with
    | .error e => .error e
    | .ok (d, r) => .ok (d, some r)

def installModel (m : Model) (s : Session) : Except EditError (Option Rendering) × Session :=
  match Diagram.ofModel m with
  | .error e => (.error e, s)
  | .ok d =>
    match renderUnder s.language d with
    | .error e => (.error e, s)
    | .ok (d, r) => (.ok r, { s with diagram := some d, mode := .editing, rendering := r })

/-- Puts a single element of a type in place of the diagram. -/
def showType (tag : TypeTag) (modelId : String) (s : Session) : Except EditError Rendering × Session :=
  match s.language with
  | none => (.error .noLanguageLoaded, s)
  | some l =>
    match Diagram.showcase l tag modelId with
    | .error e => (.error e, s)
    | .ok d =>
      match d.render l with
      | .error e => (.error e, s)
      | .ok (d, r) => (.ok r, { s with diagram := some d, mode := .showcase tag, rendering := some r })

/-- Applies an operation and renders the result. New ids come from the supply, which
is handed on in any case. -/
def apply (op : Operation) (ids : IdSupply) (s : Session) : Except EditError EditReport × Session × IdSupply :=
  match s.language, s.diagram with
  | none, _ => (.error .noLanguageLoaded, s, ids)
  | some _, none => (.error .noModelLoaded, s, ids)
  | some l, some d =>
    let (result, w) := op.apply ⟨l, s.policy⟩ ⟨d, ids⟩
    match result with
    | .error e => (.error e, s, w.ids)
    | .ok outcome =>
      match w.diagram.render l with
      | .error e => (.error e, s, w.ids)
      | .ok (d, r) => (.ok ⟨outcome, r⟩, { s with diagram := some d, rendering := some r }, w.ids)

def render (s : Session) : Except EditError Rendering × Session :=
  match s.rendering with
  | some r => (.ok r, s)
  | none =>
    match s.language, s.diagram with
    | none, _ => (.error .noLanguageLoaded, s)
    | some _, none => (.error .noModelLoaded, s)
    | some l, some d =>
      match d.render l with
      | .error e => (.error e, s)
      | .ok (d, r) => (.ok r, { s with diagram := some d, rendering := some r })

/-- Copies a selection; nothing is removed. -/
def copy (selection : List ElementId) (s : Session) : Except EditError Clipboard :=
  match s.diagram with
  | none => .error .noModelLoaded
  | some d => (Fragment.ofSelection d selection).map Fragment.encode

end Session

end DiagramEditor
