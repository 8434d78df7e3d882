import DiagramEditor.Proofs.Clipboard
import DiagramEditor.Proofs.Operation.Removal
import DiagramEditor.Proofs.Runs

/-!
# Cutting

What a cut copies is found in the index before anything is removed, what it removes
is found element by element. Both are the part of the model that the listed ids span,
so a cut loses nothing.
-/

set_option autoImplicit false

namespace DiagramEditor

namespace Model

variable {m : Model} {ids removed : List ElementId}

theorem Closed.nodup_spanned (h : m.Closed) (ids : List ElementId) : (Fragment.spanned m ids).ids.Nodup :=
  h.ids.sublist ((List.filter_sublist.map _).append (List.filter_sublist.map _))

theorem mem_nodes_spanned {n : Node} : n ∈ (Fragment.spanned m ids).nodes ↔ n ∈ m.nodes ∧ n.id ∈ ids := by
  simp [Fragment.spanned, List.mem_filter]

theorem mem_edges_spanned {e : Edge} :
    e ∈ (Fragment.spanned m ids).edges ↔ e ∈ m.edges ∧ (e.id ∈ ids ∨ e.source ∈ ids ∨ e.target ∈ ids) := by
  simp [Fragment.spanned, List.mem_filter]

namespace Loses

theorem node_id_mem_iff (h : m.Loses ids removed) {n : Node} (hn : n ∈ m.nodes) :
    n.id ∈ removed ↔ n.id ∈ ids := by
  have hid : n.id ∈ m.ids := List.mem_append.mpr (Or.inl (List.mem_map_of_mem hn))
  rw [h.lost, node_id_mem_without_iff hn, and_iff_right hid, Classical.not_not]

theorem edge_id_mem_iff (h : m.Loses ids removed) (hm : m.Closed) {e : Edge} (he : e ∈ m.edges) :
    e.id ∈ removed ↔ e.id ∈ ids ∨ e.source ∈ ids ∨ e.target ∈ ids := by
  have hid : e.id ∈ m.ids := List.mem_append.mpr (Or.inr (List.mem_map_of_mem he))
  rw [h.lost, hm.edge_id_mem_without_iff he, and_iff_right hid]
  tauto

/-- Every listed element is lost. -/
theorem listed (h : m.Loses ids removed) (hm : m.Closed) {id : ElementId} (hid : id ∈ ids) (hin : id ∈ m.ids) :
    id ∈ removed := by
  rcases List.mem_append.mp hin with hn | he
  · obtain ⟨n, hmem, rfl⟩ := List.mem_map.mp hn
    exact (h.node_id_mem_iff hmem).mpr hid
  · obtain ⟨e, hmem, rfl⟩ := List.mem_map.mp he
    exact (h.edge_id_mem_iff hm hmem).mpr (Or.inl hid)

/-- What is lost is the spanned part. -/
theorem mem_iff_spanned (h : m.Loses ids removed) (hm : m.Closed) {id : ElementId} :
    id ∈ removed ↔ id ∈ (Fragment.spanned m ids).ids := by
  rw [Fragment.ids, List.mem_append, List.mem_map, List.mem_map]
  constructor
  · intro hr
    rcases List.mem_append.mp ((h.lost id).mp hr).1 with hn | he
    · obtain ⟨n, hm', rfl⟩ := List.mem_map.mp hn
      exact Or.inl ⟨n, mem_nodes_spanned.mpr ⟨hm', (h.node_id_mem_iff hm').mp hr⟩, rfl⟩
    · obtain ⟨e, hm', rfl⟩ := List.mem_map.mp he
      exact Or.inr ⟨e, mem_edges_spanned.mpr ⟨hm', (h.edge_id_mem_iff hm hm').mp hr⟩, rfl⟩
  · rintro (⟨n, hn, rfl⟩ | ⟨e, he, rfl⟩)
    · obtain ⟨hn, hid⟩ := mem_nodes_spanned.mp hn
      exact (h.node_id_mem_iff hn).mpr hid
    · obtain ⟨he, hid⟩ := mem_edges_spanned.mp he
      exact (h.edge_id_mem_iff hm he).mpr hid

theorem spanned_perm (h : m.Loses ids removed) (hm : m.Closed) : (Fragment.spanned m ids).ids.Perm removed :=
  (List.perm_ext_iff_of_nodup (hm.nodup_spanned ids) h.nodup).mpr fun _ => (h.mem_iff_spanned hm).symm

/-- What is left, told by the ids that are lost. -/
theorem without_eq (h : m.Loses ids removed) (hm : m.Closed) :
    m.without ids =
      { m with nodes := m.nodes.filter (·.id ∉ removed), edges := m.edges.filter (·.id ∉ removed) } := by
  rw [without]
  congr 1
  · apply List.filter_congr
    intro n hn
    exact decide_eq_decide.mpr (not_congr (h.node_id_mem_iff hn).symm)
  · apply List.filter_congr
    intro e he
    refine decide_eq_decide.mpr ?_
    rw [h.edge_id_mem_iff hm he]
    tauto

end Loses

end Model

namespace Operation

open Edit Diagram

variable {w : Workspace}

/-- A cut of elements that are there copies the part they span and deletes them. -/
theorem on_runCut (h : w.diagram.InStep) {ids : List ElementId} (hids : ∀ id ∈ ids, id ∈ w.diagram.model.ids) :
    ∃ d removed,
      (runCut ids).on w =
        (.ok ⟨[], removed, some (Fragment.spanned w.diagram.model ids).encode⟩, { w with diagram := d }) ∧
      Deletes w ids removed d := by
  obtain ⟨d, removed, hd, hdeletes⟩ := on_runDelete h hids
  refine ⟨d, removed, ?_, hdeletes⟩
  rw [runCut, on_bind_ok (on_diagram w), Fragment.ofSelection_eq h hids, on_bind_ok (on_ofExcept _ _),
    on_bind_ok hd, on_pure]
  rfl

/-- A fragment holds just the elements that a model lost, as they were in it, and the
others are left in their order. -/
structure TakenFrom (m rest : Model) (f : Fragment) (removed : List ElementId) : Prop where
  once : removed.Nodup
  listed : f.ids.Perm removed
  lost : ∀ id, id ∈ removed ↔ id ∈ m.ids ∧ id ∉ rest.ids
  nodes : ∀ n ∈ f.nodes, m.node? n.id = some n
  edges : ∀ e ∈ f.edges, m.edge? e.id = some e
  left : rest = { m with nodes := m.nodes.filter (·.id ∉ removed), edges := m.edges.filter (·.id ∉ removed) }

/-- A cut hands out just what it takes away, and if the text that is handed out is read back as what
was written, it is taken from the clipboard again. -/
theorem cut_loses_nothing {d : Diagram} (h : d.Reachable) {ids : List ElementId}
    (hids : ∀ id ∈ ids, id ∈ d.model.ids) (c : EditContext) (s : IdSupply) :
    ∃ f left removed,
      Fragment.ofSelection d ids = .ok f ∧
      (cut ids).apply c ⟨d, s⟩ = (.ok ⟨[], removed, some f.encode⟩, ⟨left, s⟩) ∧
      TakenFrom d.model left.model f removed ∧
      (Fragment.decode.ofText f.encode.payload = .ok f → Fragment.ofClipboard f.encode = .ok f) := by
  have hd := InStep.of_reachable h
  obtain ⟨left, removed, hcut, _, hmodel, hloses⟩ := on_runCut (w := ⟨d, s⟩) hd hids
  refine ⟨Fragment.spanned d.model ids, left, removed, Fragment.ofSelection_eq hd hids, hcut, ?_,
    fun hread => Fragment.ofClipboard_encode hread (hd.closed.nodup_spanned ids)⟩
  refine ⟨hloses.nodup, hloses.spanned_perm hd.closed, ?_, ?_, ?_, ?_⟩
  · rw [hmodel]
    exact hloses.lost
  · intro n hn
    exact hd.closed.node?_eq_some_iff.mpr ⟨(Model.mem_nodes_spanned.mp hn).1, rfl⟩
  · intro e he
    exact hd.closed.edge?_eq_some_iff.mpr ⟨(Model.mem_edges_spanned.mp he).1, rfl⟩
  · rw [hmodel]
    exact hloses.without_eq hd.closed

/-- The edge is listed before and after the node it leaves. -/
theorem sample_cut_loses_nothing :
    sample.Reachable ∧ (∀ id ∈ ["ab", "a", "ab"], id ∈ sample.model.ids) ∧
      ∃ f left removed,
        Fragment.ofSelection sample ["ab", "a", "ab"] = .ok f ∧
        (cut ["ab", "a", "ab"]).apply plain ⟨sample, .start⟩ =
          (.ok ⟨[], removed, some f.encode⟩, ⟨left, .start⟩) ∧
        TakenFrom sample.model left.model f removed ∧
        (Fragment.decode.ofText f.encode.payload = .ok f → Fragment.ofClipboard f.encode = .ok f) := by
  have h : sample.Reachable := ⟨sample, [], start_sample, rfl⟩
  have hids : ∀ id ∈ ["ab", "a", "ab"], id ∈ sample.model.ids := by decide
  exact ⟨h, hids, cut_loses_nothing h hids plain .start⟩

end Operation

end DiagramEditor
