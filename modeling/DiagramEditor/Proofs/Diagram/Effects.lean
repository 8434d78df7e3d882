import DiagramEditor.Proofs.Diagram.Changes
import DiagramEditor.Proofs.Index.Without

/-!
# What a change that is carried out does

From the diagram that is left, what became of the model, and of the edges in the order in
which the index keeps them. Only putting in an edge and giving it new ends change that
order, and both put the edge first.
-/

set_option autoImplicit false

namespace DiagramEditor

namespace Diagram

variable {d d' : Diagram} {id : ElementId}

theorem of_setBounds {position : Option Point} {size : Option Size} (hd : d.setBounds id position size = .ok d') :
    d' = { d with model := d.model.updateNode id (Node.withBounds · position size) } := by
  rw [setBounds] at hd
  split at hd
  · exact (Except.ok.inj hd).symm
  · cases hd

theorem of_setRouting {points : List Point} (hd : d.setRouting id points = .ok d') :
    d' = { d with model := d.model.updateEdge id fun e => { e with routing := points } } := by
  rw [setRouting] at hd
  split at hd
  · exact (Except.ok.inj hd).symm
  · cases hd

theorem index_setData {data : Json.Value} (hd : d.setData id data = .ok d') : d'.index = d.index := by
  rw [setData] at hd
  split at hd <;> cases hd <;> rfl

theorem model_of_render {l : Language} {r : Rendering} (h : d.render l = .ok (d', r)) : d'.model = d.model := by
  rw [Diagram.render] at h
  split at h
  · cases h
  · obtain ⟨rfl, _⟩ := Prod.mk.inj (Except.ok.inj h)
    rfl

theorem edgeIds_of_render {l : Language} {r : Rendering} (hd : d.render l = .ok (d', r)) :
    d'.index.edgeIds = d.index.edgeIds := by
  rw [Diagram.render] at hd
  cases hr : l.render d.model with
  | error e => simp [hr] at hd
  | ok made =>
    simp only [hr, Except.ok.injEq, Prod.mk.injEq] at hd
    obtain ⟨rfl, _⟩ := hd
    rfl

/-- To begin with the index has the edges of the model, the last one first. -/
theorem edgeIds_of_ofModel {m : Model} (hd : ofModel m = .ok d) : d.index.edgeIds = d.model.edgeIds.reverse := by
  obtain ⟨_, hb, rfl⟩ := of_ofModel_ok hd
  rw [(Index.of_build hb).1.edgeIds, List.map_reverse]
  rfl

namespace InStep

theorem inserted_node (h : d.InStep) {n : Node} (hd : d.insertNode n = .ok d') :
    d'.model = d.model.addNode n ∧ d'.index.edgeIds = d.index.edgeIds := by
  rw [Diagram.insertNode] at hd
  split at hd
  · cases hd
  · cases hx : d.index.insertNode n with
    | error fault => simp [hx] at hd
    | ok x =>
      obtain rfl : (⟨d.model.addNode n, x⟩ : Diagram) = d' := by simpa [hx] using hd
      exact ⟨rfl, (h.index.of_insertNode hx).2.edgeIds.trans (Index.links_ids _)⟩

theorem inserted_edge (h : d.InStep) {e : Edge} (hd : d.insertEdge e = .ok d') :
    d'.model = d.model.addEdge e ∧ d'.index.edgeIds = e.id :: d.index.edgeIds := by
  rw [Diagram.insertEdge] at hd
  split at hd
  · cases hd
  · cases hx : d.index.insertEdge e with
    | error fault => simp [hx] at hd
    | ok x =>
      obtain rfl : (⟨d.model.addEdge e, x⟩ : Diagram) = d' := by simpa [hx] using hd
      obtain ⟨_, _, _, hb⟩ := h.index.of_insertEdge hx
      refine ⟨rfl, ?_⟩
      rw [hb.edgeIds, List.map_cons, Index.links_ids]
      rfl

/-- Of the index, too, just the removed ids are lost. -/
theorem index_of_remove (h : d.InStep) {gone : List ElementId} (hd : d.remove id = .ok (d', gone)) :
    d'.index = d.index.without gone := by
  by_cases hid : id ∈ d.model.ids
  · rcases List.mem_append.mp hid with hn | he
    · have hnode : id ∈ d.index.nodeIds := h.nodes.symm ▸ hn
      simp only [Diagram.remove, h.kind?_eq_node_iff.mpr hn, (h.index.removeNode hnode).1, Except.ok.injEq,
        Prod.mk.injEq] at hd
      obtain ⟨rfl, rfl⟩ := hd
      exact h.index.removeNode_eq hnode
    · simp only [Diagram.remove, h.kind?_eq_edge_iff.mpr he, Except.ok.injEq, Prod.mk.injEq] at hd
      obtain ⟨rfl, rfl⟩ := hd
      exact h.index.removeEdge_eq (h.edges.mem_iff.mpr he)
  · rw [h.remove_absent hid] at hd
    cases hd

theorem removed (h : d.InStep) {gone : List ElementId} (hd : d.remove id = .ok (d', gone)) :
    d'.model = d.model.without [id] ∧ gone = id :: d.index.incident id ∧
      d'.index.edgeIds.Sublist d.index.edgeIds := by
  by_cases hid : id ∈ d.model.ids
  · have hindex := h.index_of_remove hd
    obtain ⟨made, hmade, _, hmodel⟩ := h.remove hid
    obtain ⟨rfl, rfl⟩ := Prod.mk.inj (Except.ok.inj (hmade.symm.trans hd))
    refine ⟨hmodel, rfl, ?_⟩
    rw [hindex, Index.edgeIds_without]
    exact List.filter_sublist
  · rw [h.remove_absent hid] at hd
    cases hd

/-- New ends for an edge: it stays where it stands in the model and comes first in the index. -/
theorem relinked (h : d.InStep) {source target : ElementId} (hd : (d.relink id source target).1 = .ok ()) :
    (d.relink id source target).2.model =
        d.model.updateEdge id (fun e => { e with source := source, target := target }) ∧
      (d.relink id source target).2.index.edgeIds = id :: d.index.edgeIds.filter (· ≠ id) := by
  rw [Diagram.relink] at hd ⊢
  cases he : d.model.edge? id with
  | none => simp [he] at hd
  | some e =>
    obtain ⟨_, rfl⟩ := Model.id_of_edge? he
    cases hf : [source, target].find? (d.index.kind? · != some .node) with
    | some node => simp [he, hf] at hd
    | none =>
      cases hx : d.index.reconnect { e with source := source, target := target } with
      | error fault => simp [he, hf, hx] at hd
      | ok x =>
        obtain ⟨_, hb⟩ := h.index.of_reconnect hx
        simp only [hx, true_and]
        show x.edgeIds = _
        rw [hb.edgeIds, List.map_cons, ← Index.links_ids, List.filter_map]
        rfl

end InStep

end Diagram

end DiagramEditor
