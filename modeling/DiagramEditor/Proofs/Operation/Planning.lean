import DiagramEditor.Proofs.Operation.EditLabel

/-!
# Edits that are decided first

An edit of elements that are there is decided before anything is written, and what it then
writes are parts of single elements, to which nothing stands in the way. So all that is to
be said of such edits is what they decide, and what a patch does to an element.
-/

set_option autoImplicit false

namespace DiagramEditor

open Json

/-- A part of an element that an operation may be about. -/
inductive Part where
  | bounds
  | routing
  | ends
  | data
deriving DecidableEq

/-- What is written to one part of one element. -/
inductive Patch where
  | bounds (id : ElementId) (position : Option Point) (size : Option Size)
  | routing (id : ElementId) (points : List Point)
  | nodeData (id : ElementId) (data : Value)
  | edgeData (id : ElementId) (data : Value)

namespace Patch

def place : Patch → ElementId × Part
  | bounds id _ _ => (id, .bounds)
  | routing id _ => (id, .routing)
  | nodeData id _ => (id, .data)
  | edgeData id _ => (id, .data)

/-- New data for an element. -/
def data : Element → Value → Patch
  | .node n, v => nodeData n.id v
  | .edge e, v => edgeData e.id v

def onNode : Patch → Node → Node
  | bounds id position size, n => if n.id == id then Diagram.Node.withBounds n position size else n
  | routing _ _, n => n
  | nodeData id v, n => if n.id == id then { n with data := v } else n
  | edgeData _ _, n => n

def onEdge : Patch → Edge → Edge
  | bounds _ _ _, e => e
  | routing id points, e => if e.id == id then { e with routing := points } else e
  | nodeData _ _, e => e
  | edgeData id v, e => if e.id == id then { e with data := v } else e

def onElement (p : Patch) : Element → Element
  | .node n => .node (p.onNode n)
  | .edge e => .edge (p.onEdge e)

def on (p : Patch) (m : Model) : Model := { m with nodes := m.nodes.map p.onNode, edges := m.edges.map p.onEdge }

variable {p q : Patch}

@[simp] theorem place_data (e : Element) (v : Value) : (data e v).place = (e.id, .data) := by
  cases e <;> rfl

/-! ### One element -/

@[simp] theorem id_onNode (p : Patch) (n : Node) : (p.onNode n).id = n.id := by
  cases p <;> simp only [onNode] <;> split <;> rfl

@[simp] theorem id_onEdge (p : Patch) (e : Edge) : (p.onEdge e).id = e.id := by
  cases p <;> simp only [onEdge] <;> split <;> rfl

@[simp] theorem tag_onNode (p : Patch) (n : Node) : (p.onNode n).tag = n.tag := by
  cases p <;> simp only [onNode] <;> split <;> rfl

@[simp] theorem tag_onEdge (p : Patch) (e : Edge) : (p.onEdge e).tag = e.tag := by
  cases p <;> simp only [onEdge] <;> split <;> rfl

theorem onElement_data (e : Element) (v : Value) : (data e v).onElement e = e.withData v := by
  cases e <;> simp [data, onElement, onNode, onEdge, Element.withData]

/-! ### Models -/

theorem hasNode_on (p : Patch) (m : Model) (id : ElementId) : (p.on m).hasNode id = m.hasNode id := by
  simp [Model.hasNode, on, List.any_map, Function.comp_def]

theorem hasEdge_on (p : Patch) (m : Model) (id : ElementId) : (p.on m).hasEdge id = m.hasEdge id := by
  simp [Model.hasEdge, on, List.any_map, Function.comp_def]

theorem node?_on (p : Patch) (m : Model) (id : ElementId) : (p.on m).node? id = (m.node? id).map p.onNode := by
  rw [Model.node?, Model.node?, on, List.find?_map]
  simp only [Function.comp_def, id_onNode]

theorem edge?_on (p : Patch) (m : Model) (id : ElementId) : (p.on m).edge? id = (m.edge? id).map p.onEdge := by
  rw [Model.edge?, Model.edge?, on, List.find?_map]
  simp only [Function.comp_def, id_onEdge]

end Patch

namespace Diagram

variable {d : Diagram} {id : ElementId}

def patch (d : Diagram) (p : Patch) : Diagram := { d with model := p.on d.model }

/-- The diagram after patches, made one after the other. -/
def patchAll (d : Diagram) (ps : List Patch) : Diagram := ps.foldl patch d

theorem element?_patch (d : Diagram) (p : Patch) (id : ElementId) :
    (d.patch p).element? id = (d.element? id).map p.onElement := by
  have hkind : (d.patch p).index.kind? id = d.index.kind? id := rfl
  have hnode : (d.patch p).model.node? id = (d.model.node? id).map p.onNode := Patch.node?_on p d.model id
  have hedge : (d.patch p).model.edge? id = (d.model.edge? id).map p.onEdge := Patch.edge?_on p d.model id
  rw [element?, element?, hkind, hnode, hedge]
  cases d.index.kind? id with
  | none => rfl
  | some kind =>
    cases kind with
    | node => cases d.model.node? id <;> rfl
    | edge => cases d.model.edge? id <;> rfl

theorem setBounds_eq_patch {position : Option Point} {size : Option Size} (h : d.model.hasNode id = true) :
    d.setBounds id position size = .ok (d.patch (.bounds id position size)) := by
  have hedges : d.model.edges.map (Patch.bounds id position size).onEdge = d.model.edges := List.map_id' _
  rw [setBounds, if_pos h, patch, Patch.on, hedges]
  rfl

theorem setRouting_eq_patch {points : List Point} (h : d.model.hasEdge id = true) :
    d.setRouting id points = .ok (d.patch (.routing id points)) := by
  have hnodes : d.model.nodes.map (Patch.routing id points).onNode = d.model.nodes := List.map_id' _
  rw [setRouting, if_pos h, patch, Patch.on, hnodes]
  rfl

theorem setData_eq_patch {e : Element} {data : Value} (h : d.element? id = some e) :
    d.setData id data = .ok (d.patch (.data e data)) := by
  have hid := id_of_element? h
  subst hid
  rw [setData, h]
  cases e with
  | node n =>
    have hedges : d.model.edges.map (Patch.nodeData n.id data).onEdge = d.model.edges := List.map_id' _
    show Except.ok _ = Except.ok _
    rw [patch, Patch.data, Patch.on, hedges]
    rfl
  | edge e =>
    have hnodes : d.model.nodes.map (Patch.edgeData e.id data).onNode = d.model.nodes := List.map_id' _
    show Except.ok _ = Except.ok _
    rw [patch, Patch.data, Patch.on, hnodes]
    rfl

end Diagram

namespace Operation

open Edit Diagram

variable {op : Operation} {c : EditContext} {d : Diagram} {w : Workspace}

/-- The operations that only write to elements that are there. -/
def isEdit : Operation → Bool
  | changeBounds _ => true
  | changeRouting _ => true
  | editLabel _ _ => true
  | changeData _ _ _ => true
  | _ => false

/-! ### What an edit decides -/

def planEach {α : Type} (found : Model → ElementId → Bool) (element : α → ElementId) (patch : α → Patch)
    (changes : List α) (d : Diagram) : Except EditError (List Patch) :=
  match (changes.map element).find? (!found d.model ·) with
  | some id => .error (.notFound id)
  | none => .ok (changes.map patch)

def planLabel (label text : String) : Option (Element × Path) → Except EditError (List Patch)
  | none => .error (.bindingNotFound label)
  | some (element, path) =>
    let assignment := Path.assign path (.string text) element.data
    match assignment.fault with
    | some _ => .error (.bindingNotFound label)
    | none => .ok [.data element assignment.data]

def planData (c : EditContext) (id : ElementId) (data : Value) (mode : ChangeMode) :
    Option Element → Except EditError (List Patch)
  | none => .error (.notFound id)
  | some element =>
    match dataIssues c element (combine mode element.data data) with
    | [] => .ok [.data element (combine mode element.data data)]
    | issue :: issues => .error (.schemaViolation id (issue :: issues))

/-- What an edit writes, or why it is refused. -/
def plan (c : EditContext) (d : Diagram) : Operation → Except EditError (List Patch)
  | changeBounds bounds => planEach Model.hasNode (·.element) (fun b => .bounds b.element b.position b.size) bounds d
  | changeRouting routings => planEach Model.hasEdge (·.element) (fun r => .routing r.element r.points) routings d
  | editLabel label text => planLabel label text (labelTarget? d label)
  | changeData element data mode => planData c element data mode (d.element? element)
  | _ => .ok []

/-- A refused edit writes nothing. -/
def written : Except EditError (List Patch) → List Patch
  | .error _ => []
  | .ok ps => ps

/-- What is answered, and what becomes of a workspace, by what was decided. -/
def carryOut (w : Workspace) (decided : Except EditError (List Patch)) : Except EditError Outcome × Workspace :=
  (decided.map fun _ => .nothing, { w with diagram := w.diagram.patchAll (written decided) })

section

variable {α : Type} {found : Model → ElementId → Bool} {element : α → ElementId} {patch : α → Patch}
  {f : α → Diagram → Except EditError Diagram}

theorem on_changeEach_patch (hfound : ∀ (p : Patch) m id, found (p.on m) id = found m id)
    (hf : ∀ a d, found d.model (element a) = true → f a d = .ok (d.patch (patch a))) {changes : List α}
    (hall : ∀ a ∈ changes, found w.diagram.model (element a) = true) :
    (changeEach f changes).on w = (.ok (), { w with diagram := w.diagram.patchAll (changes.map patch) }) := by
  induction changes generalizing w with
  | nil => rfl
  | cons a rest ih =>
    have hrest : ∀ b ∈ rest, found (w.diagram.patch (patch a)).model (element b) = true := fun b hb =>
      (hfound _ _ _).trans (hall b (List.mem_cons_of_mem _ hb))
    rw [changeEach, on_bind_ok (on_change_ok (hf a _ (hall a List.mem_cons_self))),
      ih (w := { w with diagram := w.diagram.patch (patch a) }) hrest]
    rfl

theorem on_runEach_eq (hfound : ∀ (p : Patch) m id, found (p.on m) id = found m id)
    (hf : ∀ a d, found d.model (element a) = true → f a d = .ok (d.patch (patch a))) (changes : List α)
    (w : Workspace) :
    (runEach found element f changes).on w = carryOut w (planEach found element patch changes w.diagram) := by
  rw [runEach, on_bind_ok (on_diagram w), planEach]
  cases hmissing : (changes.map element).find? (!found w.diagram.model ·) with
  | some id =>
    have hrequire : (require (found w.diagram.model) (changes.map element)).on w = (.error (.notFound id), w) := by
      rw [on_require, hmissing]
    rw [on_bind_error hrequire]
    rfl
  | none =>
    have hrequire : (require (found w.diagram.model) (changes.map element)).on w = (.ok (), w) := by
      rw [on_require, hmissing]
    have hall : ∀ a ∈ changes, found w.diagram.model (element a) = true := fun a ha =>
      of_on_require hrequire _ (List.mem_map_of_mem ha)
    rw [on_bind_ok hrequire, on_bind_ok (on_changeEach_patch hfound hf hall)]
    rfl

end

theorem on_setData_eq {e : Element} {id : ElementId} {data : Value} (he : w.diagram.element? id = some e) :
    (change (setData id data) >>= fun _ => pure Outcome.nothing : Edit Outcome).on w =
      carryOut w (.ok [.data e data]) := by
  rw [on_bind_ok (on_change_ok (setData_eq_patch he))]
  rfl

theorem on_runEditLabel_eq (label text : String) (w : Workspace) :
    (runEditLabel label text).on w = carryOut w (planLabel label text (labelTarget? w.diagram label)) := by
  rw [runEditLabel, on_bind_ok (on_diagram w)]
  cases htarget : labelTarget? w.diagram label with
  | none => rfl
  | some target =>
    obtain ⟨e, path⟩ := target
    simp only [planLabel]
    cases (Path.assign path (.string text) e.data).fault with
    | some fault => rfl
    | none => exact on_setData_eq (owner_of_labelTarget? htarget).2

theorem on_runChangeData_eq (c : EditContext) (id : ElementId) (data : Value) (mode : ChangeMode) (w : Workspace) :
    (runChangeData c id data mode).on w = carryOut w (planData c id data mode (w.diagram.element? id)) := by
  rw [runChangeData, on_bind_ok (on_diagram w)]
  cases he : w.diagram.element? id with
  | none => rfl
  | some e =>
    simp only [planData]
    cases dataIssues c e (combine mode e.data data) with
    | nil => exact on_setData_eq he
    | cons issue issues => rfl

theorem on_runChangeBounds_eq (bounds : List Bounds) (w : Workspace) :
    (runChangeBounds bounds).on w = carryOut w (planEach Model.hasNode (·.element)
      (fun b => Patch.bounds b.element b.position b.size) bounds w.diagram) := by
  have hset : ∀ (b : Bounds) (d : Diagram), d.model.hasNode b.element = true →
      d.setBounds b.element b.position b.size = .ok (d.patch (.bounds b.element b.position b.size)) := fun _ _ h =>
    setBounds_eq_patch h
  exact on_runEach_eq Patch.hasNode_on hset bounds w

theorem on_runChangeRouting_eq (routings : List Routing) (w : Workspace) :
    (runChangeRouting routings).on w = carryOut w (planEach Model.hasEdge (·.element)
      (fun r => Patch.routing r.element r.points) routings w.diagram) := by
  have hset : ∀ (r : Routing) (d : Diagram), d.model.hasEdge r.element = true →
      d.setRouting r.element r.points = .ok (d.patch (.routing r.element r.points)) := fun _ _ h =>
    setRouting_eq_patch h
  exact on_runEach_eq Patch.hasEdge_on hset routings w

/-- An edit writes what it has decided. -/
theorem apply_eq_carryOut (hop : op.isEdit = true) (c : EditContext) (w : Workspace) :
    op.apply c w = carryOut w (op.plan c w.diagram) := by
  cases op with
  | changeBounds bounds => exact on_runChangeBounds_eq bounds w
  | changeRouting routings => exact on_runChangeRouting_eq routings w
  | editLabel label text => exact on_runEditLabel_eq label text w
  | changeData id data mode => exact on_runChangeData_eq c id data mode w
  | _ => cases hop

/-! ### What is written -/

theorem of_planEach {α : Type} {found : Model → ElementId → Bool} {element : α → ElementId} {patch : α → Patch}
    {changes : List α} {ps : List Patch} (h : planEach found element patch changes d = .ok ps) :
    ps = changes.map patch := by
  rw [planEach] at h
  split at h
  · cases h
  · exact (Except.ok.inj h).symm

theorem of_planLabel {label text : String} {target : Option (Element × Path)} {ps : List Patch}
    (h : planLabel label text target = .ok ps) : ∃ e path v, target = some (e, path) ∧ ps = [.data e v] := by
  cases target with
  | none => cases h
  | some target =>
    simp only [planLabel] at h
    split at h
    · cases h
    · exact ⟨_, _, _, rfl, (Except.ok.inj h).symm⟩

theorem of_planData {id : ElementId} {data : Value} {mode : ChangeMode} {found : Option Element} {ps : List Patch}
    (h : planData c id data mode found = .ok ps) : ∃ e v, found = some e ∧ ps = [.data e v] := by
  cases found with
  | none => cases h
  | some e =>
    simp only [planData] at h
    split at h
    · exact ⟨_, _, rfl, (Except.ok.inj h).symm⟩
    · cases h

end Operation

end DiagramEditor
