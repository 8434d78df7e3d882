import DiagramEditor.Proofs.Clipboard
import DiagramEditor.Proofs.Operation.Steps

/-!
# Pasting a fragment

A fragment that fits is put in whole: its nodes first, so that its edges find them,
and nothing that has been put in stands in the way of what follows.
-/

set_option autoImplicit false

namespace DiagramEditor

namespace Operation

open Edit Diagram

variable {w : Workspace} {m : Model}

/-- Nodes that can be added one after the other, and the model this ends in. -/
structure NodesLead (m : Model) (nodes : List Node) (d : Diagram) : Prop where
  inStep : d.InStep
  nodup : (nodes.map Node.id).Nodup
  new : ∀ n ∈ nodes, n.id ∉ d.model.ids
  leads : { d.model with nodes := d.model.nodes ++ nodes } = m

theorem NodesLead.step {n : Node} {rest : List Node} {d : Diagram} (h : NodesLead m (n :: rest) d) :
    ∃ d', d.insertNode n = .ok d' ∧ NodesLead m rest d' := by
  obtain ⟨hn, hrest⟩ := List.nodup_cons.mp h.nodup
  obtain ⟨d', hd', hstep, hmodel⟩ := h.inStep.insertNode (h.new n (by simp))
  refine ⟨d', hd', hstep, hrest, ?_, ?_⟩
  · intro n' hn' hm
    have hne : n'.id ≠ n.id := fun he => hn (he ▸ List.mem_map_of_mem hn')
    have hold := h.new n' (List.mem_cons_of_mem _ hn')
    rw [hmodel, Model.ids, Model.nodeIds_addNode, List.append_assoc, List.mem_append, List.mem_append,
      List.mem_singleton] at hm
    rcases hm with hm | hm | hm
    · exact hold (List.mem_append.mpr (Or.inl hm))
    · exact hne hm
    · exact hold (List.mem_append.mpr (Or.inr hm))
  · rw [← h.leads, hmodel, Model.addNode]
    simp

theorem on_insertNodes (h : w.diagram.InStep) {nodes : List Node} (hn : (nodes.map Node.id).Nodup)
    (hnew : ∀ n ∈ nodes, n.id ∉ w.diagram.model.ids) :
    ∃ d, (changeEach insertNode nodes).on w = (.ok (), { w with diagram := d }) ∧ d.InStep ∧
      d.model = { w.diagram.model with nodes := w.diagram.model.nodes ++ nodes } := by
  obtain ⟨d, hd, hend⟩ := on_changeEach_ok (fun _ _ _ => NodesLead.step) nodes w ⟨h, hn, hnew, rfl⟩
  refine ⟨d, hd, hend.inStep, ?_⟩
  rw [← hend.leads, List.append_nil]

/-- Edges that can be added one after the other, and the model this ends in. -/
structure EdgesLead (m : Model) (edges : List Edge) (d : Diagram) : Prop where
  inStep : d.InStep
  nodup : (edges.map Edge.id).Nodup
  new : ∀ e ∈ edges, e.id ∉ d.model.ids
  ends : ∀ e ∈ edges, e.source ∈ d.model.nodeIds ∧ e.target ∈ d.model.nodeIds
  leads : { d.model with edges := d.model.edges ++ edges } = m

theorem EdgesLead.step {e : Edge} {rest : List Edge} {d : Diagram} (h : EdgesLead m (e :: rest) d) :
    ∃ d', d.insertEdge e = .ok d' ∧ EdgesLead m rest d' := by
  obtain ⟨hn, hrest⟩ := List.nodup_cons.mp h.nodup
  obtain ⟨hs, ht⟩ := h.ends e (by simp)
  obtain ⟨d', hd', hstep, hmodel⟩ := h.inStep.insertEdge (h.new e (by simp)) hs ht
  refine ⟨d', hd', hstep, hrest, ?_, ?_, ?_⟩
  · intro e' he' hm
    have hne : e'.id ≠ e.id := fun heq => hn (heq ▸ List.mem_map_of_mem he')
    have hold := h.new e' (List.mem_cons_of_mem _ he')
    rw [hmodel, Model.ids, Model.edgeIds_addEdge, List.mem_append, List.mem_append, List.mem_singleton] at hm
    rcases hm with hm | hm | hm
    · exact hold (List.mem_append.mpr (Or.inl hm))
    · exact hold (List.mem_append.mpr (Or.inr hm))
    · exact hne hm
  · intro e' he'
    rw [hmodel]
    exact h.ends e' (List.mem_cons_of_mem _ he')
  · rw [← h.leads, hmodel, Model.addEdge]
    simp

theorem on_insertEdges (h : w.diagram.InStep) {edges : List Edge} (hn : (edges.map Edge.id).Nodup)
    (hnew : ∀ e ∈ edges, e.id ∉ w.diagram.model.ids)
    (hends : ∀ e ∈ edges, e.source ∈ w.diagram.model.nodeIds ∧ e.target ∈ w.diagram.model.nodeIds) :
    ∃ d, (changeEach insertEdge edges).on w = (.ok (), { w with diagram := d }) ∧ d.InStep ∧
      d.model = { w.diagram.model with edges := w.diagram.model.edges ++ edges } := by
  obtain ⟨d, hd, hend⟩ := on_changeEach_ok (fun _ _ _ => EdgesLead.step) edges w ⟨h, hn, hnew, hends, rfl⟩
  refine ⟨d, hd, hend.inStep, ?_⟩
  rw [← hend.leads, List.append_nil]

/-- A clipboard that can be read can be pasted while the supply is fresh. -/
theorem on_runPaste (h : w.diagram.InStep) (hs : w.ids.Fresh w.diagram.model.ids) {clipboard : Clipboard}
    {f : Fragment} (hf : Fragment.ofClipboard clipboard = .ok f) (location : Option Point) :
    ∃ d, (runPaste clipboard location).on w =
        (.ok { Outcome.nothing with created := (f.instantiate w.diagram.model.hasNode location w.ids).1.ids },
          ⟨d, (f.instantiate w.diagram.model.hasNode location w.ids).2⟩) ∧
      d.InStep ∧
      d.model =
        { w.diagram.model with
          nodes := w.diagram.model.nodes ++ (f.instantiate w.diagram.model.hasNode location w.ids).1.nodes
          edges := w.diagram.model.edges ++ (f.instantiate w.diagram.model.hasNode location w.ids).1.edges } := by
  have hfits := Fragment.instantiate_fits hs (Fragment.nodup_of_ofClipboard hf) location
  obtain ⟨p, ids', hp⟩ : ∃ p ids', f.instantiate w.diagram.model.hasNode location w.ids = (p, ids') := ⟨_, _, rfl⟩
  rw [hp] at hfits ⊢
  obtain ⟨hnodes, hedges, hapart⟩ := List.nodup_append.mp hfits.nodup
  have hinst : (instantiate f location).on w = (.ok p, { w with ids := ids' }) := by
    rw [on_instantiate, hp]
  obtain ⟨d, hd, hstep, hmodel⟩ := on_insertNodes (w := { w with ids := ids' }) h hnodes
    fun n hn => hfits.new n.id (List.mem_append.mpr (Or.inl (List.mem_map_of_mem hn)))
  have hids : d.model.nodeIds = w.diagram.model.nodeIds ++ p.nodes.map Node.id := by
    rw [hmodel, Model.nodeIds, List.map_append]
    rfl
  -- the new nodes are in the model now, so both kinds of ends are found there
  obtain ⟨d', hd', hstep', hmodel'⟩ := on_insertEdges (w := ⟨d, ids'⟩) hstep hedges
    (by
      intro e he hm
      have hid : e.id ∈ p.edges.map Edge.id := List.mem_map_of_mem he
      rcases List.mem_append.mp hm with hm | hm
      · rcases List.mem_append.mp (hids ▸ hm) with hm | hm
        · exact hfits.new e.id (List.mem_append.mpr (Or.inr hid)) (List.mem_append.mpr (Or.inl hm))
        · exact hapart e.id hm e.id hid rfl
      · rw [hmodel] at hm
        exact hfits.new e.id (List.mem_append.mpr (Or.inr hid)) (List.mem_append.mpr (Or.inr hm)))
    (by
      intro e he
      rw [hids]
      exact hfits.ends e he)
  refine ⟨d', ?_, hstep', ?_⟩
  · rw [runPaste, hf, on_bind_ok (on_ofExcept _ _), on_bind_ok hinst, on_bind_ok hd, on_bind_ok hd', on_pure]
  · rw [hmodel', hmodel]

end Operation

end DiagramEditor
