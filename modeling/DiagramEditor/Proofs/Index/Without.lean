import DiagramEditor.Proofs.Index.Incidence

/-!
# What is left of an index

Removing an element, or a node with its edges, leaves of every table of an index what does
not stand for a removed id, in its order. What is left depends on which ids are removed and
not on the order in which they go.
-/

set_option autoImplicit false

namespace DiagramEditor

section Dropping

variable {α : Type} {key : α → ElementId} {l : List α} {gone also : List ElementId}

theorem filter_dropped (h : ∀ a ∈ l, key a ∉ gone) : l.filter (key · ∉ gone) = l := by
  rw [List.filter_eq_self]
  intro a ha
  simpa using h a ha

theorem filter_dropped_append :
    (l.filter (key · ∉ gone)).filter (key · ∉ also) = l.filter (key · ∉ gone ++ also) := by
  rw [List.filter_filter]
  apply List.filter_congr
  intro a _
  simp [Bool.and_comm]

theorem filter_dropped_congr (h : ∀ id, id ∈ gone ↔ id ∈ also) :
    l.filter (key · ∉ gone) = l.filter (key · ∉ also) :=
  List.filter_congr fun a _ => decide_eq_decide.mpr (not_congr (h (key a)))

end Dropping

theorem Table.erase_eq_dropped {α : Type} (id : ElementId) (t : Table ElementId α) :
    Table.erase id t = t.filter (·.1 ∉ [id]) := by
  rw [Table.erase_eq_filter]
  simp

def Topology.without (t : Topology) (gone : List ElementId) : Topology :=
  { t with
    nodes := t.nodes.filter (·.2 ∉ gone)
    arcs := t.arcs.filter (·.id ∉ gone) }

namespace Index

variable {x : Index} {gone also : List ElementId}

/-- What is left of an index when ids are removed. -/
def without (x : Index) (gone : List ElementId) : Index where
  kinds := x.kinds.filter (·.1 ∉ gone)
  topology := x.topology.without gone
  nodeSlots := x.nodeSlots.filter (·.1 ∉ gone)
  edgeSlots := x.edgeSlots.filter (·.1 ∉ gone)
  visuals := x.visuals.filter (·.2.owner ∉ gone)

theorem without_nil (x : Index) : x.without [] = x := by
  simp [without, Topology.without]

theorem without_append (x : Index) (gone also : List ElementId) :
    (x.without gone).without also = x.without (gone ++ also) := by
  simp only [without, Topology.without, filter_dropped_append]

/-- The order in which ids are removed does not count, nor how often. -/
theorem without_congr (h : ∀ id, id ∈ gone ↔ id ∈ also) : x.without gone = x.without also := by
  simp only [without, Topology.without, filter_dropped_congr h]

theorem edgeIds_without (x : Index) (gone : List ElementId) : (x.without gone).edgeIds = x.edgeIds.filter (· ∉ gone) := by
  rw [edgeIds, edgeIds, List.filter_map]
  rfl

namespace Sound

variable {id node : ElementId} {slot : Nat}

theorem removeEdge_eq (h : x.Sound) (hid : id ∈ x.edgeIds) : (x.removeEdge id).1 = x.without [id] := by
  obtain ⟨slot, hslot⟩ := Option.isSome_iff_exists.mp (h.isSome_edgeSlot?_iff.mpr hid)
  obtain ⟨a, ha, rfl, rfl⟩ := h.edgeSlot?_eq_some_iff.mp hslot
  -- no node goes by the id of an edge
  have hne : ∀ n ∈ x.nodeIds, n ∉ [a.id] := fun n hn hm =>
    h.not_edge_of_node hn (List.mem_singleton.mp hm ▸ hid)
  have hnodes : x.topology.nodes.filter (·.2 ∉ [a.id]) = x.topology.nodes :=
    filter_dropped fun p hp => hne _ (List.mem_map_of_mem hp)
  have hslots : x.nodeSlots.filter (·.1 ∉ [a.id]) = x.nodeSlots :=
    filter_dropped fun p hp => hne _ (h.node_keys.mem_iff.mp (List.mem_map_of_mem hp))
  have harcs : (x.topology.removeArc a.slot).arcs = x.topology.arcs.filter (·.id ∉ [a.id]) := by
    rw [h.topology.removeArc_eq h.nodup_edges ha]
    simp
  rw [Index.removeEdge, hslot]
  simp only [dropEdge, Index.forgetVisualsOf, filter_owner_ne, Table.erase_eq_dropped, without,
    Topology.without, hnodes, hslots, ← harcs]
  rfl

theorem removeEdges_eq (h : x.Sound) {ids : List ElementId} (hn : ids.Nodup) (hids : ∀ id ∈ ids, id ∈ x.edgeIds) :
    x.removeEdges ids = x.without ids := by
  induction ids generalizing x with
  | nil => exact (without_nil x).symm
  | cons id rest ih =>
    obtain ⟨hid, hrest⟩ := List.nodup_cons.mp hn
    have hfirst := h.removeEdge_eq (hids id List.mem_cons_self)
    have hsound : (x.without [id]).Sound := hfirst ▸ (h.removeEdge (hids id List.mem_cons_self)).2.sound
    have hmem : ∀ other ∈ rest, other ∈ (x.without [id]).edgeIds := by
      intro other ho
      rw [edgeIds_without, List.mem_filter]
      exact ⟨hids other (List.mem_cons_of_mem _ ho), by simpa using ne_of_mem_of_not_mem ho hid⟩
    rw [Index.removeEdges, List.foldl_cons, hfirst]
    exact (ih hsound hrest hmem).trans (without_append x [id] rest)

/-- A node at which no edge ends. -/
theorem dropNode_eq (h : x.Sound) (hslot : x.nodeSlot? node = some slot) (hbare : ∀ l ∈ x.links, ¬ l.touches node) :
    x.dropNode node slot = x.without [node] := by
  have hs := h.nodeSlot?_eq_some_iff.mp hslot
  have hnode : node ∈ x.nodeIds := h.isSome_nodeSlot?_iff.mp (by simp [hslot])
  -- no edge goes by the id of a node
  have hne : ∀ e ∈ x.edgeIds, e ∉ [node] := fun e he hm =>
    h.not_edge_of_node hnode (List.mem_singleton.mp hm ▸ he)
  have hslots : x.edgeSlots.filter (·.1 ∉ [node]) = x.edgeSlots :=
    filter_dropped fun p hp => hne _ (h.edge_keys.mem_iff.mp (List.mem_map_of_mem hp))
  have harcs : (x.topology.removeNode slot).arcs = x.topology.arcs.filter (·.id ∉ [node]) := by
    rw [Topology.arcs_removeNode (h.slot_free hs hbare), filter_dropped fun a ha => hne _ (List.mem_map_of_mem ha)]
  have hnodes : (x.topology.removeNode slot).nodes = x.topology.nodes.filter (·.2 ∉ [node]) := by
    rw [h.topology.nodes_removeNode h.nodup_nodes hs]
    simp
  simp only [Index.dropNode, Index.forgetVisualsOf, filter_owner_ne, Table.erase_eq_dropped, without,
    Topology.without, hslots, ← harcs, ← hnodes]
  rfl

/-- A node goes with its edges. -/
theorem removeNode_eq (h : x.Sound) (hnode : node ∈ x.nodeIds) :
    (x.removeNode node).1 = x.without (node :: x.incident node) := by
  have hedges := h.removeEdges_eq (h.nodup_incident node) fun id => h.incident_subset
  obtain ⟨slot, hsound, hslot, hbare, heq⟩ := h.removeNode_eq_dropNode hnode
  rw [heq, hsound.dropNode_eq hslot hbare, hedges, without_append]
  exact without_congr fun id => by simp [or_comm]

end Sound

end Index

end DiagramEditor
