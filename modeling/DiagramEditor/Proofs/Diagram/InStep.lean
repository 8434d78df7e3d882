import DiagramEditor.Proofs.Diagram.Visuals
import DiagramEditor.Proofs.Index.Check

/-!
# Model and index in step

A diagram is in step when its index is in order, lists the nodes and links of the
model and holds no visual of an element that is gone. Every change of a diagram keeps
it in step. While it is in step the check of the index finds nothing, look-ups in
the index and in the model agree, and what is removed is just what the model loses.
-/

set_option autoImplicit false

namespace DiagramEditor

theorem Edge.touches_link {e : Edge} {id : ElementId} : e.link.touches id ↔ e.source = id ∨ e.target = id := by
  simp [Link.touches, Edge.link]

namespace Diagram

variable {d : Diagram}

structure InStep (d : Diagram) : Prop where
  index : d.index.Sound
  nodes : d.index.nodeIds = d.model.nodeIds
  links : d.index.links.Perm (d.model.edges.map Edge.link)
  owners : ∀ p ∈ d.index.visuals, p.2.owner ∈ d.model.ids

namespace InStep

theorem edges (h : d.InStep) : d.index.edgeIds.Perm d.model.edgeIds := by
  have hp := h.links.map Link.id
  rw [Index.links_ids, List.map_map] at hp
  exact hp

theorem ids (h : d.InStep) : (d.index.nodeIds ++ d.index.edgeIds).Perm d.model.ids := by
  rw [h.nodes]
  exact h.edges.append_left _

theorem link_mem (h : d.InStep) {e : Edge} (he : e ∈ d.model.edges) : e.link ∈ d.index.links :=
  h.links.mem_iff.mpr (List.mem_map_of_mem he)

theorem closed (h : d.InStep) : d.model.Closed where
  ids := h.ids.nodup_iff.mp h.index.ids
  ends := by
    intro e he
    obtain ⟨s, hs, t, ht, hsource, htarget⟩ := h.index.link_ends (h.link_mem he)
    rw [h.nodes] at hs ht
    exact ⟨Option.some.inj hsource ▸ hs, Option.some.inj htarget ▸ ht⟩

theorem contains_eq (h : d.InStep) (id : ElementId) : d.index.contains id = d.model.contains id := by
  rw [Bool.eq_iff_iff, h.index.contains_iff, Model.contains_iff, h.ids.mem_iff]

theorem kind?_eq_node_iff (h : d.InStep) {id : ElementId} :
    d.index.kind? id = some .node ↔ id ∈ d.model.nodeIds := by
  rw [h.index.kind?_eq_node_iff, h.nodes]

theorem kind?_eq_edge_iff (h : d.InStep) {id : ElementId} :
    d.index.kind? id = some .edge ↔ id ∈ d.model.edgeIds := by
  rw [h.index.kind?_eq_edge_iff, h.edges.mem_iff]

theorem kind?_eq_none_iff (h : d.InStep) {id : ElementId} :
    d.index.kind? id = none ↔ id ∉ d.model.ids := by
  rw [h.index.kind?_eq_none_iff, h.ids.mem_iff]

/-- Index and model find the same element. -/
theorem element?_eq (h : d.InStep) (id : ElementId) : d.element? id = d.model.element? id := by
  rw [element?, Model.element?]
  cases hk : d.index.kind? id with
  | none =>
    have hid := h.kind?_eq_none_iff.mp hk
    rw [Model.ids, List.mem_append, not_or] at hid
    simp [Model.node?_eq_none_iff.mpr hid.1, Model.edge?_eq_none_iff.mpr hid.2]
  | some k =>
    cases k with
    | node =>
      have hn := h.kind?_eq_node_iff.mp hk
      cases hf : d.model.node? id with
      | none => exact absurd hn (Model.node?_eq_none_iff.mp hf)
      | some n => rfl
    | edge =>
      have he := h.kind?_eq_edge_iff.mp hk
      have hn : id ∉ d.model.nodeIds := fun hn => h.closed.not_edge_of_node hn he
      simp [Model.node?_eq_none_iff.mpr hn]

theorem isSome_element?_iff (h : d.InStep) {id : ElementId} :
    (d.element? id).isSome = true ↔ id ∈ d.model.ids := by
  rw [h.element?_eq, Model.element?, Model.ids, List.mem_append]
  cases hn : d.model.node? id with
  | none =>
    have hnot := Model.node?_eq_none_iff.mp hn
    cases he : d.model.edge? id with
    | none => simp [hnot, Model.edge?_eq_none_iff.mp he]
    | some e =>
      have hm := (Model.id_of_edge? he).2 ▸ List.mem_map_of_mem (f := Edge.id) (Model.id_of_edge? he).1
      simp [Model.edgeIds, hm]
  | some n =>
    have hm := (Model.id_of_node? hn).2 ▸ List.mem_map_of_mem (f := Node.id) (Model.id_of_node? hn).1
    simp [Model.nodeIds, hm]

theorem kind?_eq (h : d.InStep) (id : ElementId) :
    d.index.kind? id = (d.model.element? id).map Element.kind := by
  rw [← h.element?_eq, element?]
  cases hk : d.index.kind? id with
  | none => rfl
  | some k =>
    cases k with
    | node =>
      cases hf : d.model.node? id with
      | none => exact absurd (h.kind?_eq_node_iff.mp hk) (Model.node?_eq_none_iff.mp hf)
      | some n => rfl
    | edge =>
      cases hf : d.model.edge? id with
      | none => exact absurd (h.kind?_eq_edge_iff.mp hk) (Model.edge?_eq_none_iff.mp hf)
      | some e => rfl

/-- The slot of an edge leads to its two ends, and only the slots of edges do. -/
theorem joins_iff (h : d.InStep) {id source target : ElementId} :
    d.index.Joins id source target ↔
      ∃ e ∈ d.model.edges, e.id = id ∧ e.source = source ∧ e.target = target := by
  rw [h.index.joins_iff, h.links.mem_iff]
  constructor
  · intro hl
    obtain ⟨e, he, heq⟩ := List.mem_map.mp hl
    obtain ⟨hid, hs, ht⟩ := Link.mk.inj heq
    exact ⟨e, he, hid, Option.some.inj hs, Option.some.inj ht⟩
  · rintro ⟨e, he, rfl, rfl, rfl⟩
    exact List.mem_map_of_mem he

theorem mirrors (h : d.InStep) : d.index.Mirrors d.model where
  nodes := fun _ => h.kind?_eq_node_iff
  edges := fun _ => h.kind?_eq_edge_iff
  ends := fun e he => h.joins_iff.mpr ⟨e, he, rfl, rfl, rfl⟩
  owners := h.owners

/-- The check of an index in step with its model finds nothing. -/
theorem mismatch?_eq_none (h : d.InStep) : d.index.mismatch? d.model = none :=
  h.index.mismatch?_of_mirrors h.closed.nodup_nodes h.closed.nodup_edges h.mirrors

/-- Changes that keep all ids and ends need no change of the index. -/
theorem of_same_shape (h : d.InStep) {m : Model} (hn : m.nodeIds = d.model.nodeIds)
    (he : m.edges.map Edge.link = d.model.edges.map Edge.link) : InStep ⟨m, d.index⟩ where
  index := h.index
  nodes := h.nodes.trans hn.symm
  links := by
    show d.index.links.Perm (m.edges.map Edge.link)
    rw [he]
    exact h.links
  owners := by
    have hids : m.ids = d.model.ids := by
      have hedges := congrArg (List.map Link.id) he
      rw [List.map_map, List.map_map] at hedges
      rw [Model.ids, Model.ids, hn]
      exact congrArg _ hedges
    intro p hp
    rw [hids]
    exact h.owners p hp

theorem updateNode (h : d.InStep) {f : Node → Node} (hf : ∀ n, (f n).id = n.id) (id : ElementId) :
    InStep ⟨d.model.updateNode id f, d.index⟩ :=
  h.of_same_shape (Model.nodeIds_updateNode hf id) rfl

theorem updateEdge (h : d.InStep) {f : Edge → Edge} (hf : ∀ e, (f e).link = e.link) (id : ElementId) :
    InStep ⟨d.model.updateEdge id f, d.index⟩ := by
  refine h.of_same_shape rfl ?_
  rw [Model.updateEdge, List.map_map]
  apply List.map_congr_left
  intro e _
  by_cases he : e.id = id <;> simp [he, hf]

end InStep

end Diagram

end DiagramEditor
