import DiagramEditor.Proofs.Operation.Steps

/-!
# Runs of calls

A diagram comes from nothing or from a checked model and lives on through calls:
operations, renderings and single changes, in any order, each of which may be
refused. Whatever the calls, the diagram they leave is coherent.
-/

set_option autoImplicit false

namespace DiagramEditor

namespace Diagram

variable {d : Diagram}

/-- A call that may change a diagram. -/
inductive Call where
  | apply (op : Operation) (context : EditContext) (ids : IdSupply)
  | render (language : Language)
  | insertNode (n : Node)
  | insertEdge (e : Edge)
  | remove (id : ElementId)
  | setBounds (id : ElementId) (position : Option Point) (size : Option Size)
  | setRouting (id : ElementId) (points : List Point)
  | relink (id source target : ElementId)
  | setData (id : ElementId) (data : Json.Value)

/-- What is made of a diagram, or the diagram itself where that is refused. -/
def orElse (d : Diagram) : Except EditError Diagram → Diagram
  | .ok made => made
  | .error _ => d

theorem of_map_fst_ok {α : Type} {made : Except EditError (Diagram × α)} {d : Diagram}
    (h : made.map Prod.fst = .ok d) : ∃ a, made = .ok (d, a) := by
  cases made with
  | error e => cases h
  | ok made => exact ⟨made.2, congrArg Except.ok (Prod.ext (Except.ok.inj h) rfl)⟩

/-- The diagram a call leaves. -/
def call (d : Diagram) : Call → Diagram
  | .apply op context ids => (op.apply context ⟨d, ids⟩).2.diagram
  | .render language => d.orElse ((d.render language).map Prod.fst)
  | .insertNode n => d.orElse (d.insertNode n)
  | .insertEdge e => d.orElse (d.insertEdge e)
  | .remove id => d.orElse ((d.remove id).map Prod.fst)
  | .setBounds id position size => d.orElse (d.setBounds id position size)
  | .setRouting id points => d.orElse (d.setRouting id points)
  | .relink id source target => (d.relink id source target).2
  | .setData id data => d.orElse (d.setData id data)

def after (d : Diagram) : List Call → Diagram
  | [] => d
  | c :: rest => (d.call c).after rest

/-- A diagram to begin with. -/
inductive Start : Diagram → Prop where
  | empty (id : String) : Start (.empty id)
  | ofModel {m : Model} {d : Diagram} (accepted : Diagram.ofModel m = .ok d) : Start d

def Reachable (d : Diagram) : Prop := ∃ start calls, Start start ∧ start.after calls = d

/-- Everything the model and the five tables of the index must agree on. -/
structure Coherent (d : Diagram) : Prop where
  checked : d.index.mismatch? d.model = none
  node_keys : ∀ id n, d.model.node? id = some n ↔ n ∈ d.model.nodes ∧ n.id = id
  edge_keys : ∀ id e, d.model.edge? id = some e ↔ e ∈ d.model.edges ∧ e.id = id
  distinct : (d.model.nodes.map Node.id ++ d.model.edges.map Edge.id).Nodup
  ends : ∀ e ∈ d.model.edges,
    (∃ n ∈ d.model.nodes, n.id = e.source) ∧ ∃ n ∈ d.model.nodes, n.id = e.target
  kinds : ∀ id, d.index.kind? id = (d.model.element? id).map Element.kind
  node_slots : ∀ id slot, d.index.nodeSlot? id = some slot ↔ d.index.topology.node? slot = some id
  nodes : ∀ id, (∃ slot, d.index.nodeSlot? id = some slot) ↔ ∃ n ∈ d.model.nodes, n.id = id
  edges : ∀ id source target, d.index.Joins id source target ↔
    ∃ e ∈ d.model.edges, e.id = id ∧ e.source = source ∧ e.target = target
  arcs : ∀ a ∈ d.index.topology.arcs, d.index.edgeSlot? a.id = some a.slot
  incident : ∀ id, ∀ e ∈ d.model.edges, e.id ∈ d.index.incident id ↔ e.source = id ∨ e.target = id
  owners : ∀ p ∈ d.index.visuals, ∃ element, d.model.element? p.2.owner = some element

theorem after_append (d : Diagram) (calls more : List Call) :
    d.after (calls ++ more) = (d.after calls).after more := by
  induction calls generalizing d with
  | nil => rfl
  | cons c rest ih => exact ih (d.call c)

theorem Reachable.call (h : d.Reachable) (c : Call) : (d.call c).Reachable := by
  obtain ⟨start, calls, hs, rfl⟩ := h
  exact ⟨start, calls ++ [c], hs, after_append start calls [c]⟩

namespace InStep

theorem of_start (h : Start d) : d.InStep := by
  cases h with
  | empty id => exact InStep.empty id
  | ofModel accepted => exact of_ofModel accepted

theorem orElse (h : d.InStep) {made : Except EditError Diagram} (hm : ∀ d', made = .ok d' → d'.InStep) :
    (d.orElse made).InStep := by
  cases made with
  | error e => exact h
  | ok d' => exact hm d' rfl

theorem call (h : d.InStep) (c : Call) : (d.call c).InStep := by
  cases c with
  | apply op context ids => exact Operation.keeps_run context op ⟨d, ids⟩ h
  | render language =>
    apply h.orElse
    intro d' hd
    obtain ⟨rendering, hr⟩ := of_map_fst_ok hd
    exact h.render hr
  | insertNode n => exact h.orElse fun _ hd => h.of_insertNode hd
  | insertEdge e => exact h.orElse fun _ hd => h.of_insertEdge hd
  | remove id =>
    apply h.orElse
    intro d' hd
    obtain ⟨removed, hr⟩ := of_map_fst_ok hd
    exact h.of_remove hr
  | setBounds id position size => exact h.orElse fun _ hd => h.setBounds hd
  | setRouting id points => exact h.orElse fun _ hd => h.setRouting hd
  | relink id source target => exact (h.relink id source target).1
  | setData id data => exact h.orElse fun _ hd => h.setData hd

theorem after (h : d.InStep) (calls : List Call) : (d.after calls).InStep := by
  induction calls generalizing d with
  | nil => exact h
  | cons c rest ih => exact ih (h.call c)

theorem of_reachable (h : d.Reachable) : d.InStep := by
  obtain ⟨start, calls, hs, rfl⟩ := h
  exact (of_start hs).after calls

theorem coherent (h : d.InStep) : d.Coherent where
  checked := h.mismatch?_eq_none
  node_keys := fun _ _ => h.closed.node?_eq_some_iff
  edge_keys := fun _ _ => h.closed.edge?_eq_some_iff
  distinct := h.closed.ids
  ends := by
    intro e he
    obtain ⟨hs, ht⟩ := h.closed.ends e he
    exact ⟨List.mem_map.mp hs, List.mem_map.mp ht⟩
  kinds := h.kind?_eq
  node_slots := fun _ _ => h.index.nodeSlot?_eq_some_iff
  nodes := by
    intro id
    rw [← Option.isSome_iff_exists, h.index.isSome_nodeSlot?_iff, h.nodes]
    exact List.mem_map
  edges := fun _ _ _ => h.joins_iff
  arcs := fun a ha => h.index.edgeSlot?_eq_some_iff.mpr ⟨a, ha, rfl, rfl⟩
  incident := fun _ _ he => h.mem_incident_iff he
  owners := by
    intro p hp
    rw [← Option.isSome_iff_exists, ← h.element?_eq, h.isSome_element?_iff]
    exact h.owners p hp

end InStep

/-- Whatever a diagram goes through, model and index fit, ids are distinct, every edge
has its ends and no rendered element outlives the one it was made for. -/
theorem coherent_after (h : Start d) (calls : List Call) : (d.after calls).Coherent :=
  ((InStep.of_start h).after calls).coherent

/-- Two nodes, an edge between them and one from the first to itself. -/
def sample : Diagram where
  model :=
    { id := "sample"
      nodes :=
        [⟨"a", "", ⟨10, 20⟩, some .standard, .emptyObject⟩, ⟨"b", "", ⟨110, 20⟩, none, .emptyObject⟩]
      edges := [⟨"ab", "", "a", "b", [⟨60, 40⟩], .emptyObject⟩, ⟨"aa", "", "a", "a", [], .emptyObject⟩] }
  index :=
    { kinds := [("a", .node), ("b", .node), ("ab", .edge), ("aa", .edge)]
      topology :=
        { nodes := [(0, "a"), (1, "b")], arcs := [⟨1, 0, 0, "aa"⟩, ⟨0, 0, 1, "ab"⟩], nextNode := 2, nextArc := 2 }
      nodeSlots := [("a", 0), ("b", 1)]
      edgeSlots := [("ab", 0), ("aa", 1)]
      visuals := [] }

theorem start_sample : Start sample := .ofModel (m := sample.model) rfl

/-- A language without types, in which elements are drawn bare. -/
def plain : EditContext where
  language := ⟨⟨"plain", "", 1, [], []⟩, [], []⟩
  policy := .validate

end Diagram

end DiagramEditor
