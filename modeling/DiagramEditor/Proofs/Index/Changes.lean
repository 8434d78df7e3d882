import DiagramEditor.Proofs.Index.Sound

/-!
# Changes of an index

What every change does to the nodes, the links and the visuals of an index in order.
A change is refused only for an id that is taken, an end that is no node or an edge
that is not there, and it leaves the index in order.
-/

set_option autoImplicit false

namespace DiagramEditor

namespace Index

variable {x : Index}

/-- An index in order, with these nodes and links, in which the visuals of the given
owners are forgotten. -/
structure Becomes (x y : Index) (nodes : List ElementId) (links : List Link) (gone : List ElementId) : Prop where
  sound : y.Sound
  nodes : y.nodeIds = nodes
  links : y.links = links
  visuals : y.visuals = x.visuals.filter (·.2.owner ∉ gone)

theorem Becomes.edgeIds {y : Index} {nodes : List ElementId} {links : List Link} {gone : List ElementId}
    (h : x.Becomes y nodes links gone) : y.edgeIds = links.map Link.id := by
  rw [← links_ids, h.links]

theorem filter_owner_ne (x : Index) (owner : ElementId) :
    x.visuals.filter (·.2.owner != owner) = x.visuals.filter (·.2.owner ∉ [owner]) := by
  apply List.filter_congr
  intro v _
  simp [bne, beq_eq_decide]

theorem nodeIds_addNode (x : Index) (id : ElementId) :
    ((x.topology.addNode id).2.nodes).map Prod.snd = x.nodeIds ++ [id] := by
  simp [nodeIds, Topology.addNode]

namespace Sound

theorem not_mem_of_contains (h : x.Sound) {id : ElementId} (hid : x.contains id = false) :
    id ∉ x.nodeIds ∧ id ∉ x.edgeIds := by
  rw [← not_or, ← List.mem_append, ← h.contains_iff, hid]
  simp

theorem insertNode (h : x.Sound) {n : Node} (hid : x.contains n.id = false) :
    ∃ y, x.insertNode n = .ok y ∧ x.Becomes y (x.nodeIds ++ [n.id]) x.links [] := by
  obtain ⟨hn, he⟩ := h.not_mem_of_contains hid
  have hkind : Table.get? n.id x.kinds = none := h.kind?_eq_none_iff.mpr (by simp [hn, he])
  have hslot : Table.get? n.id x.nodeSlots = none :=
    Table.get?_eq_none_iff.mpr fun hm => hn (h.node_keys.mem_iff.mp hm)
  refine ⟨_, by rw [Index.insertNode, if_neg (by simp [hid])], ?_⟩
  refine ⟨⟨h.topology.addNode n.id, ?_, h.edge_table, ?_, ?_⟩, nodeIds_addNode x n.id,
    h.topology.links_addNode n.id, by simp⟩
  · show (Table.put n.id x.topology.nextNode x.nodeSlots).Perm _
    rw [Table.put_of_get?_eq_none _ hslot, Topology.addNode, List.map_append]
    exact h.node_table.append_right _
  · show (Table.put n.id ElementKind.node x.kinds).Perm
      (((x.topology.addNode n.id).2.nodes.map Prod.snd).map nodeEntry ++ x.edgeIds.map edgeEntry)
    rw [Table.put_of_get?_eq_none _ hkind, nodeIds_addNode, List.map_append, List.append_assoc]
    refine (h.kind_table.append_right _).trans ?_
    rw [List.append_assoc]
    exact List.perm_append_comm.append_left _
  · show ((x.topology.addNode n.id).2.nodes.map Prod.snd ++ x.edgeIds).Nodup
    rw [nodeIds_addNode, List.append_assoc]
    refine (List.perm_append_comm.append_left _).nodup_iff.mpr ?_
    rw [← List.append_assoc]
    exact h.ids.append (List.nodup_singleton _) (List.disjoint_singleton.mpr (by simp [hn, he]))

theorem ends_eq_ok (h : x.Sound) {e : Edge} (hs : e.source ∈ x.nodeIds) (ht : e.target ∈ x.nodeIds) :
    ∃ source target, x.ends e = .ok (source, target) ∧
      x.topology.node? source = some e.source ∧ x.topology.node? target = some e.target := by
  obtain ⟨source, hsource⟩ := Option.isSome_iff_exists.mp (h.isSome_nodeSlot?_iff.mpr hs)
  obtain ⟨target, htarget⟩ := Option.isSome_iff_exists.mp (h.isSome_nodeSlot?_iff.mpr ht)
  refine ⟨source, target, ?_, h.nodeSlot?_eq_some_iff.mp hsource, h.nodeSlot?_eq_some_iff.mp htarget⟩
  rw [ends, hsource, htarget]

theorem occupied (h : x.Sound) {slot : Nat} {id : ElementId} (hs : x.topology.node? slot = some id) :
    slot ∈ x.topology.nodes.map Prod.fst :=
  List.mem_map_of_mem (f := Prod.fst) (h.topology.node?_eq_some_iff.mp hs)

theorem insertEdge (h : x.Sound) {e : Edge} (hid : x.contains e.id = false) (hs : e.source ∈ x.nodeIds)
    (ht : e.target ∈ x.nodeIds) :
    ∃ y, x.insertEdge e = .ok y ∧ x.Becomes y x.nodeIds (e.link :: x.links) [] := by
  obtain ⟨hn, he⟩ := h.not_mem_of_contains hid
  have hkind : Table.get? e.id x.kinds = none := h.kind?_eq_none_iff.mpr (by simp [hn, he])
  have hslot : Table.get? e.id x.edgeSlots = none :=
    Table.get?_eq_none_iff.mpr fun hm => he (h.edge_keys.mem_iff.mp hm)
  obtain ⟨source, target, hends, hsource, htarget⟩ := h.ends_eq_ok hs ht
  refine ⟨_, by rw [Index.insertEdge, if_neg (by simp [hid]), hends], ?_⟩
  refine ⟨⟨h.topology.addArc e.id (h.occupied hsource) (h.occupied htarget), h.node_table, ?_, ?_, ?_⟩,
    rfl, ?_, by simp⟩
  · show (Table.put e.id x.topology.nextArc x.edgeSlots).Perm _
    rw [Table.put_of_get?_eq_none _ hslot]
    exact (List.perm_append_singleton _ _).trans (h.edge_table.cons _)
  · show (Table.put e.id ElementKind.edge x.kinds).Perm
      (x.nodeIds.map nodeEntry ++ (e.id :: x.edgeIds).map edgeEntry)
    rw [Table.put_of_get?_eq_none _ hkind, List.map_cons]
    refine (List.perm_append_singleton _ _).trans ?_
    exact (h.kind_table.cons _).trans List.perm_middle.symm
  · show (x.nodeIds ++ e.id :: x.edgeIds).Nodup
    exact List.nodup_middle.mpr (List.nodup_cons.mpr ⟨by simp [hn, he], h.ids⟩)
  · show (x.topology.addArc source target e.id).2.links = _
    rw [Topology.links_addArc, hsource, htarget]
    rfl

/-- The id of an edge, put before all the others. -/
theorem edge_first (h : x.Sound) {id : ElementId} (hid : id ∈ x.edgeIds) :
    x.edgeIds.Perm (id :: x.edgeIds.filter (· ≠ id)) := by
  have hf : x.edgeIds.erase id = x.edgeIds.filter (· ≠ id) := by
    rw [h.nodup_edges.erase_eq_filter]
    apply List.filter_congr
    intro other _
    by_cases ho : other = id <;> simp [ho]
  exact hf ▸ List.perm_cons_erase hid

theorem reconnect (h : x.Sound) {e : Edge} (hid : e.id ∈ x.edgeIds) (hs : e.source ∈ x.nodeIds)
    (ht : e.target ∈ x.nodeIds) :
    ∃ y, x.reconnect e = .ok y ∧
      x.Becomes y x.nodeIds (e.link :: x.links.filter (·.id ≠ e.id)) [] := by
  obtain ⟨source, target, hends, hsource, htarget⟩ := h.ends_eq_ok hs ht
  obtain ⟨old, hold⟩ := Option.isSome_iff_exists.mp (h.isSome_edgeSlot?_iff.mpr hid)
  obtain ⟨a, ha, hae, hslot⟩ := h.edgeSlot?_eq_some_iff.mp hold
  subst hslot
  have harcs : (x.topology.removeArc a.slot).arcs = x.topology.arcs.filter (·.id ≠ e.id) :=
    hae ▸ h.topology.removeArc_eq h.nodup_edges ha
  have hrest : ((x.topology.removeArc a.slot).arcs).map Arc.id = x.edgeIds.filter (· ≠ e.id) := by
    rw [harcs, edgeIds, List.filter_map]
    rfl
  refine ⟨_, by simp only [Index.reconnect, hends, hold]; rfl, ?_⟩
  refine ⟨⟨(h.topology.removeArc a.slot).addArc e.id (h.occupied hsource) (h.occupied htarget),
    h.node_table, ?_, ?_, ?_⟩, rfl, ?_, by simp⟩
  · show (Table.put e.id x.topology.nextArc x.edgeSlots).Perm
      ((e.id, x.topology.nextArc) :: ((x.topology.removeArc a.slot).arcs).map arcEntry)
    refine (Table.put_perm (h.edge_keys.nodup_iff.mpr h.nodup_edges)).trans (List.Perm.cons _ ?_)
    refine (Table.erase_perm e.id h.edge_table).trans ?_
    rw [Table.erase_map, harcs]
    exact List.Perm.refl _
  · show x.kinds.Perm
      (x.nodeIds.map nodeEntry ++ (e.id :: ((x.topology.removeArc a.slot).arcs).map Arc.id).map edgeEntry)
    rw [hrest]
    exact h.kind_table.trans (((h.edge_first hid).map _).append_left _)
  · show (x.nodeIds ++ e.id :: ((x.topology.removeArc a.slot).arcs).map Arc.id).Nodup
    rw [hrest]
    exact ((h.edge_first hid).append_left _).nodup_iff.mp h.ids
  · show ((x.topology.removeArc a.slot).addArc source target e.id).2.links = _
    rw [Topology.links_addArc, h.topology.links_removeArc h.nodup_edges ha, hae]
    show (⟨e.id, x.topology.node? source, x.topology.node? target⟩ : Link) :: _ = _
    rw [hsource, htarget]
    rfl

theorem of_insertNode (h : x.Sound) {n : Node} {y : Index} (hy : x.insertNode n = .ok y) :
    n.id ∉ x.nodeIds ++ x.edgeIds ∧ x.Becomes y (x.nodeIds ++ [n.id]) x.links [] := by
  cases hid : x.contains n.id with
  | true => simp [Index.insertNode, hid] at hy
  | false =>
    obtain ⟨z, hz, hb⟩ := h.insertNode hid
    obtain rfl : z = y := Except.ok.inj (hz.symm.trans hy)
    refine ⟨?_, hb⟩
    rw [List.mem_append, not_or]
    exact h.not_mem_of_contains hid

theorem of_ends (h : x.Sound) {e : Edge} {slots : Nat × Nat} (hs : x.ends e = .ok slots) :
    e.source ∈ x.nodeIds ∧ e.target ∈ x.nodeIds := by
  rw [← h.isSome_nodeSlot?_iff, ← h.isSome_nodeSlot?_iff]
  cases hsource : x.nodeSlot? e.source with
  | none => simp [ends, hsource] at hs
  | some source =>
    cases htarget : x.nodeSlot? e.target with
    | none => simp [ends, hsource, htarget] at hs
    | some target => exact ⟨rfl, rfl⟩

theorem of_insertEdge (h : x.Sound) {e : Edge} {y : Index} (hy : x.insertEdge e = .ok y) :
    e.id ∉ x.nodeIds ++ x.edgeIds ∧ e.source ∈ x.nodeIds ∧ e.target ∈ x.nodeIds ∧
      x.Becomes y x.nodeIds (e.link :: x.links) [] := by
  cases hid : x.contains e.id with
  | true => simp [Index.insertEdge, hid] at hy
  | false =>
    cases hends : x.ends e with
    | error fault => simp [Index.insertEdge, hid, hends] at hy
    | ok slots =>
      obtain ⟨hs, ht⟩ := h.of_ends hends
      obtain ⟨z, hz, hb⟩ := h.insertEdge hid hs ht
      obtain rfl : z = y := Except.ok.inj (hz.symm.trans hy)
      refine ⟨?_, hs, ht, hb⟩
      rw [List.mem_append, not_or]
      exact h.not_mem_of_contains hid

theorem of_reconnect (h : x.Sound) {e : Edge} {y : Index} (hy : x.reconnect e = .ok y) :
    e.id ∈ x.edgeIds ∧ x.Becomes y x.nodeIds (e.link :: x.links.filter (·.id ≠ e.id)) [] := by
  cases hends : x.ends e with
  | error fault => simp [Index.reconnect, hends] at hy
  | ok slots =>
    cases hslot : x.edgeSlot? e.id with
    | none => simp [Index.reconnect, hends, hslot] at hy
    | some old =>
      have hid : e.id ∈ x.edgeIds := h.isSome_edgeSlot?_iff.mp (by rw [hslot]; rfl)
      obtain ⟨hs, ht⟩ := h.of_ends hends
      obtain ⟨z, hz, hb⟩ := h.reconnect hid hs ht
      obtain rfl : z = y := Except.ok.inj (hz.symm.trans hy)
      exact ⟨hid, hb⟩

theorem of_insertNodes (h : x.Sound) {ns : List Node} {y : Index} (hy : x.insertNodes ns = .ok y) :
    x.Becomes y (x.nodeIds ++ ns.map Node.id) x.links [] := by
  induction ns generalizing x with
  | nil =>
    obtain rfl : x = y := Except.ok.inj hy
    exact ⟨h, by simp, rfl, by simp⟩
  | cons n rest ih =>
    rw [Index.insertNodes] at hy
    cases hn : x.insertNode n with
    | error e => simp [hn] at hy
    | ok z =>
      simp only [hn] at hy
      obtain ⟨_, hb⟩ := h.of_insertNode hn
      have hrest := ih hb.sound hy
      refine ⟨hrest.sound, ?_, hrest.links.trans hb.links, ?_⟩
      · rw [hrest.nodes, hb.nodes, List.map_cons, List.append_assoc, List.singleton_append]
      · rw [hrest.visuals, hb.visuals, List.filter_filter]
        simp

theorem of_insertEdges (h : x.Sound) {es : List Edge} {y : Index} (hy : x.insertEdges es = .ok y) :
    x.Becomes y x.nodeIds ((es.map Edge.link).reverse ++ x.links) [] := by
  induction es generalizing x with
  | nil =>
    obtain rfl : x = y := Except.ok.inj hy
    exact ⟨h, rfl, rfl, by simp⟩
  | cons e rest ih =>
    rw [Index.insertEdges] at hy
    cases he : x.insertEdge e with
    | error fault => simp [he] at hy
    | ok z =>
      simp only [he] at hy
      obtain ⟨_, _, _, hb⟩ := h.of_insertEdge he
      have hrest := ih hb.sound hy
      refine ⟨hrest.sound, hrest.nodes.trans hb.nodes, ?_, ?_⟩
      · rw [hrest.links, hb.links, List.map_cons, List.reverse_cons, List.append_assoc,
          List.singleton_append]
      · rw [hrest.visuals, hb.visuals, List.filter_filter]
        simp

theorem removeEdge (h : x.Sound) {id : ElementId} (hid : id ∈ x.edgeIds) :
    (x.removeEdge id).2 = true ∧
      x.Becomes (x.removeEdge id).1 x.nodeIds (x.links.filter (·.id ≠ id)) [id] := by
  obtain ⟨slot, hslot⟩ := Option.isSome_iff_exists.mp (h.isSome_edgeSlot?_iff.mpr hid)
  obtain ⟨a, ha, rfl, rfl⟩ := h.edgeSlot?_eq_some_iff.mp hslot
  have harcs := h.topology.removeArc_eq h.nodup_edges ha
  have hrest : ((x.topology.removeArc a.slot).arcs).map Arc.id = x.edgeIds.filter (· ≠ a.id) := by
    rw [harcs, edgeIds, List.filter_map]
    rfl
  have hnode : x.nodeIds.filter (· ≠ a.id) = x.nodeIds := by
    apply List.filter_eq_self.mpr
    intro n hn
    have hne : n ≠ a.id := fun he => h.not_edge_of_node hn (he ▸ hid)
    simpa using hne
  rw [Index.removeEdge, hslot]
  refine ⟨rfl, ⟨⟨h.topology.removeArc a.slot, h.node_table, ?_, ?_, ?_⟩, rfl,
    h.topology.links_removeArc h.nodup_edges ha, ?_⟩⟩
  · show (Table.erase a.id x.edgeSlots).Perm (((x.topology.removeArc a.slot).arcs).map arcEntry)
    refine (Table.erase_perm a.id h.edge_table).trans ?_
    rw [Table.erase_map, harcs]
    exact List.Perm.refl _
  · show (Table.erase a.id x.kinds).Perm
      (x.nodeIds.map nodeEntry ++ (((x.topology.removeArc a.slot).arcs).map Arc.id).map edgeEntry)
    refine (Table.erase_perm a.id h.kind_table).trans ?_
    rw [Table.erase_eq_filter, List.filter_append, List.filter_map, List.filter_map, hrest]
    have hn : x.nodeIds.filter ((fun p => decide (p.1 ≠ a.id)) ∘ nodeEntry) = x.nodeIds := hnode
    rw [hn]
    exact List.Perm.refl _
  · show (x.nodeIds ++ ((x.topology.removeArc a.slot).arcs).map Arc.id).Nodup
    rw [hrest]
    exact h.ids.sublist (List.filter_sublist.append_left _)
  · exact filter_owner_ne x a.id

end Sound

end Index

end DiagramEditor
