import DiagramEditor.Proofs.Index.Changes

/-!
# The edges of a node

The incident edges of a node are read off the links: first those that leave it, then
those that only reach it. Removing a node takes just these edges along, one by one,
so that its slot is free of edges when it is given up.
-/

set_option autoImplicit false

namespace DiagramEditor

theorem eraseDups_of_nodup {l : List ElementId} (h : l.Nodup) : l.eraseDups = l := by
  induction l with
  | nil => rfl
  | cons a l ih =>
    obtain ⟨ha, hl⟩ := List.nodup_cons.mp h
    have hf : l.filter (fun b => !b == a) = l := by
      apply List.filter_eq_self.mpr
      intro b hb
      have hne : b ≠ a := fun he => ha (he ▸ hb)
      simp [hne]
    rw [List.eraseDups_cons, hf, ih hl]

namespace Index

variable {x : Index}

/-- The links that leave a node, then those that only reach it. -/
def linksAt (x : Index) (node : ElementId) : List Link :=
  x.links.filter (·.source = some node) ++
    x.links.filter fun l => l.target = some node ∧ l.source ≠ some node

theorem mem_linksAt {node : ElementId} {l : Link} : l ∈ x.linksAt node ↔ l ∈ x.links ∧ l.touches node := by
  simp only [linksAt, List.mem_append, List.mem_filter, decide_eq_true_eq, Link.touches]
  by_cases hs : l.source = some node <;> simp [hs]

namespace Sound

theorem nodup_links (h : x.Sound) : (x.links.map Link.id).Nodup := by
  rw [links_ids]
  exact h.nodup_edges

theorem eq_of_link_id (h : x.Sound) {l l' : Link} (hl : l ∈ x.links) (hl' : l' ∈ x.links)
    (he : l.id = l'.id) : l = l' :=
  List.inj_on_of_nodup_map h.nodup_links hl hl' he

theorem nodup_linksAt (h : x.Sound) (node : ElementId) : ((x.linksAt node).map Link.id).Nodup := by
  rw [linksAt, List.map_append]
  refine List.Nodup.append ?_ ?_ ?_
  · exact h.nodup_links.sublist (List.filter_sublist.map _)
  · exact h.nodup_links.sublist (List.filter_sublist.map _)
  · intro id hm hm'
    obtain ⟨l, hl, rfl⟩ := List.mem_map.mp hm
    obtain ⟨l', hl', he⟩ := List.mem_map.mp hm'
    obtain ⟨hl, hs⟩ := List.mem_filter.mp hl
    obtain ⟨hl', hs'⟩ := List.mem_filter.mp hl'
    have heq := h.eq_of_link_id hl' hl he
    simp only [decide_eq_true_eq] at hs hs'
    exact hs'.2 (heq ▸ hs)

theorem map_id_filter_arcs {p : Arc → Bool} {q : Link → Bool}
    (hpq : ∀ a ∈ x.topology.arcs, p a = q (x.topology.link a)) :
    (x.topology.arcs.filter p).map Arc.id = (x.links.filter q).map Link.id := by
  rw [links, Topology.links, List.filter_map, List.map_map, List.filter_congr hpq]
  rfl

/-- Of two kinds of links the ids of the first are taken out of those of the second. -/
theorem removeAll_links (h : x.Sound) (p q : Link → Bool) :
    ((x.links.filter q).map Link.id).removeAll ((x.links.filter p).map Link.id) =
      (x.links.filter fun l => q l && !p l).map Link.id := by
  rw [List.removeAll, List.filter_map, List.filter_filter]
  refine congrArg (List.map Link.id) (List.filter_congr fun l hl => ?_)
  have hmem : l.id ∈ (x.links.filter p).map Link.id ↔ p l = true := by
    constructor
    · intro hm
      obtain ⟨l', hl', he⟩ := List.mem_map.mp hm
      obtain ⟨hl', hp⟩ := List.mem_filter.mp hl'
      exact h.eq_of_link_id hl' hl he ▸ hp
    · intro hp
      exact List.mem_map_of_mem (List.mem_filter.mpr ⟨hl, hp⟩)
  cases hp : p l <;> cases hq : q l <;> simp [hmem, hp]

/-- The edges of a node as a listing of links. -/
theorem incident_eq (h : x.Sound) (node : ElementId) :
    x.incident node = (x.linksAt node).map Link.id := by
  rw [incident]
  cases hslot : x.nodeSlot? node with
  | none =>
    have hn : node ∉ x.nodeIds := fun hm => by
      have hs := h.isSome_nodeSlot?_iff.mpr hm
      simp [hslot] at hs
    have hnil : x.linksAt node = [] := by
      apply List.eq_nil_iff_forall_not_mem.mpr
      intro l hl
      obtain ⟨hl, ht⟩ := mem_linksAt.mp hl
      exact h.not_touches hn hl ht
    simp [hnil]
  | some slot =>
    have hocc := h.nodeSlot?_eq_some_iff.mp hslot
    have hiff : ∀ other, (other == slot) = decide (x.topology.node? other = some node) := by
      intro other
      rw [beq_eq_decide]
      exact decide_eq_decide.mpr (h.topology.slot_eq_iff h.nodup_nodes hocc)
    have hfrom : (x.topology.arcsFrom slot).map Arc.id =
        (x.links.filter (·.source = some node)).map Link.id :=
      map_id_filter_arcs fun a _ => hiff a.source
    have hto : (x.topology.arcsTo slot).map Arc.id =
        (x.links.filter (·.target = some node)).map Link.id :=
      map_id_filter_arcs fun a _ => hiff a.target
    have hnodup := h.nodup_linksAt node
    rw [linksAt, List.map_append] at hnodup
    -- a loop is found from both sides and counts where it leaves
    have hdiff : ((x.links.filter (·.target = some node)).map Link.id).removeAll
        ((x.links.filter (·.source = some node)).map Link.id) =
        (x.links.filter fun l => l.target = some node ∧ l.source ≠ some node).map Link.id := by
      rw [h.removeAll_links]
      simp only [ne_eq, Bool.decide_and, decide_not]
    show ((x.topology.arcsFrom slot ++ x.topology.arcsTo slot).map Arc.id).eraseDups = _
    rw [List.map_append, hfrom, hto, List.eraseDups_append, hdiff,
      eraseDups_of_nodup (List.nodup_append.mp hnodup).1,
      eraseDups_of_nodup (List.nodup_append.mp hnodup).2.1, linksAt, List.map_append]

theorem mem_incident_iff (h : x.Sound) {node id : ElementId} :
    id ∈ x.incident node ↔ ∃ l ∈ x.links, l.id = id ∧ l.touches node := by
  rw [h.incident_eq, List.mem_map]
  constructor
  · rintro ⟨l, hl, rfl⟩
    obtain ⟨hm, ht⟩ := mem_linksAt.mp hl
    exact ⟨l, hm, rfl, ht⟩
  · rintro ⟨l, hm, rfl, ht⟩
    exact ⟨l, mem_linksAt.mpr ⟨hm, ht⟩, rfl⟩

theorem link_id_mem_incident_iff (h : x.Sound) {node : ElementId} {l : Link} (hl : l ∈ x.links) :
    l.id ∈ x.incident node ↔ l.touches node := by
  rw [h.mem_incident_iff]
  constructor
  · rintro ⟨l', hl', he, ht⟩
    exact h.eq_of_link_id hl' hl he ▸ ht
  · intro ht
    exact ⟨l, hl, rfl, ht⟩

theorem nodup_incident (h : x.Sound) (node : ElementId) : (x.incident node).Nodup := by
  rw [h.incident_eq]
  exact h.nodup_linksAt node

theorem incident_subset (h : x.Sound) {node id : ElementId} (hid : id ∈ x.incident node) :
    id ∈ x.edgeIds := by
  obtain ⟨l, hl, rfl, _⟩ := h.mem_incident_iff.mp hid
  rw [← links_ids]
  exact List.mem_map_of_mem hl

/-- Removing several edges, each there and named once. -/
theorem removeEdges (h : x.Sound) {ids : List ElementId} (hn : ids.Nodup) (hids : ∀ id ∈ ids, id ∈ x.edgeIds) :
    x.Becomes (x.removeEdges ids) x.nodeIds (x.links.filter (·.id ∉ ids)) ids := by
  induction ids generalizing x with
  | nil => exact ⟨h, rfl, by simp [Index.removeEdges], by simp [Index.removeEdges]⟩
  | cons id rest ih =>
    obtain ⟨hid, hrest⟩ := List.nodup_cons.mp hn
    obtain ⟨_, hb⟩ := h.removeEdge (hids id (by simp))
    have hmem : ∀ other ∈ rest, other ∈ (x.removeEdge id).1.edgeIds := by
      intro other ho
      have hne : other ≠ id := fun he => hid (he ▸ ho)
      have hm := hids other (List.mem_cons_of_mem _ ho)
      rw [← links_ids] at hm
      obtain ⟨l, hl, rfl⟩ := List.mem_map.mp hm
      rw [hb.edgeIds]
      exact List.mem_map_of_mem (List.mem_filter.mpr ⟨hl, by simpa using hne⟩)
    have hall := ih hb.sound hrest hmem
    rw [hb.nodes, hb.links] at hall
    refine ⟨hall.sound, hall.nodes, ?_, ?_⟩
    · refine hall.links.trans ?_
      rw [List.filter_filter]
      apply List.filter_congr
      intro l _
      by_cases he : l.id = id <;> simp [he]
    · refine hall.visuals.trans ?_
      rw [hb.visuals, List.filter_filter]
      apply List.filter_congr
      intro v _
      by_cases he : v.2.owner = id <;> simp [he]

/-- No edge ends at the slot of a node that no link touches. -/
theorem slot_free (h : x.Sound) {node : ElementId} {slot : Nat} (hs : x.topology.node? slot = some node)
    (hbare : ∀ l ∈ x.links, ¬ l.touches node) :
    ∀ a ∈ x.topology.arcs, a.source ≠ slot ∧ a.target ≠ slot := by
  intro a ha
  have hl : x.topology.link a ∈ x.links := List.mem_map_of_mem ha
  have hnot := not_or.mp (hbare _ hl)
  have hend : ∀ other, other = slot ↔ x.topology.node? other = some node :=
    fun _ => h.topology.slot_eq_iff h.nodup_nodes hs
  exact ⟨fun he => hnot.1 ((hend a.source).mp he), fun he => hnot.2 ((hend a.target).mp he)⟩

/-- A node at which no edge ends can be given up alone. -/
theorem dropNode (h : x.Sound) {node : ElementId} {slot : Nat} (hslot : x.nodeSlot? node = some slot)
    (hbare : ∀ l ∈ x.links, ¬ l.touches node) :
    x.Becomes (x.dropNode node slot) (x.nodeIds.filter (· ≠ node)) x.links [node] := by
  have hs := h.nodeSlot?_eq_some_iff.mp hslot
  have hnode : node ∈ x.nodeIds := h.isSome_nodeSlot?_iff.mp (by simp [hslot])
  have harcs := Topology.arcs_removeNode (h.slot_free hs hbare)
  have hpairs := h.topology.nodes_removeNode h.nodup_nodes hs
  have hnodes : ((x.topology.removeNode slot).nodes).map Prod.snd = x.nodeIds.filter (· ≠ node) := by
    rw [hpairs, nodeIds, List.filter_map]
    rfl
  have hkeep : x.edgeIds.filter (· ≠ node) = x.edgeIds := by
    apply List.filter_eq_self.mpr
    intro id hid
    have hne : id ≠ node := fun he => h.not_edge_of_node hnode (he ▸ hid)
    simpa using hne
  refine ⟨⟨h.topology.removeNode slot, ?_, ?_, ?_, ?_⟩, hnodes,
    Topology.links_removeNode (h.slot_free hs hbare), ?_⟩
  · show (Table.erase node x.nodeSlots).Perm ((x.topology.removeNode slot).nodes.map Prod.swap)
    refine (Table.erase_perm node h.node_table).trans ?_
    rw [Table.erase_map, hpairs]
    exact List.Perm.refl _
  · show x.edgeSlots.Perm ((x.topology.removeNode slot).arcs.map arcEntry)
    rw [harcs]
    exact h.edge_table
  · show (Table.erase node x.kinds).Perm
      (((x.topology.removeNode slot).nodes.map Prod.snd).map nodeEntry ++
        ((x.topology.removeNode slot).arcs.map Arc.id).map edgeEntry)
    refine (Table.erase_perm node h.kind_table).trans ?_
    rw [Table.erase_eq_filter, List.filter_append, List.filter_map, List.filter_map, hnodes, harcs]
    have he : x.edgeIds.filter ((fun p => decide (p.1 ≠ node)) ∘ edgeEntry) = x.edgeIds := hkeep
    rw [he]
    exact List.Perm.refl _
  · show ((x.topology.removeNode slot).nodes.map Prod.snd ++ (x.topology.removeNode slot).arcs.map Arc.id).Nodup
    rw [hnodes, harcs]
    exact h.ids.sublist (List.filter_sublist.append_right _)
  · exact filter_owner_ne x node

/-- Once its edges are gone a node is given up alone. -/
theorem removeNode_eq_dropNode (h : x.Sound) {node : ElementId} (hnode : node ∈ x.nodeIds) :
    ∃ slot, (x.removeEdges (x.incident node)).Sound ∧ (x.removeEdges (x.incident node)).nodeSlot? node = some slot ∧
      (∀ l ∈ (x.removeEdges (x.incident node)).links, ¬ l.touches node) ∧
      x.removeNode node = ((x.removeEdges (x.incident node)).dropNode node slot, x.incident node) := by
  have hb := h.removeEdges (h.nodup_incident node) fun id => h.incident_subset
  obtain ⟨slot, hslot⟩ := Option.isSome_iff_exists.mp
    (hb.sound.isSome_nodeSlot?_iff.mpr (hb.nodes ▸ hnode))
  refine ⟨slot, hb.sound, hslot, ?_, by simp only [Index.removeNode, hslot]⟩
  intro l hl htouches
  rw [hb.links] at hl
  obtain ⟨hl, hgone⟩ := List.mem_filter.mp hl
  simp only [decide_eq_true_eq] at hgone
  exact hgone ((h.link_id_mem_incident_iff hl).mpr htouches)

/-- Removing a node takes its edges along and leaves the others as they were. -/
theorem removeNode (h : x.Sound) {node : ElementId} (hnode : node ∈ x.nodeIds) :
    (x.removeNode node).2 = x.incident node ∧
      x.Becomes (x.removeNode node).1 (x.nodeIds.filter (· ≠ node))
        (x.links.filter (¬ ·.touches node)) (node :: x.incident node) := by
  have hb := h.removeEdges (h.nodup_incident node) fun id => h.incident_subset
  have hlinks : (x.removeEdges (x.incident node)).links = x.links.filter (¬ ·.touches node) := by
    rw [hb.links]
    apply List.filter_congr
    intro l hl
    exact decide_eq_decide.mpr (not_congr (h.link_id_mem_incident_iff hl))
  obtain ⟨slot, hsound, hslot, hbare, heq⟩ := h.removeNode_eq_dropNode hnode
  have hlast := hsound.dropNode hslot hbare
  rw [heq]
  refine ⟨rfl, hlast.sound, ?_, hlast.links.trans hlinks, ?_⟩
  · rw [hlast.nodes, hb.nodes]
  · rw [hlast.visuals, hb.visuals, List.filter_filter]
    apply List.filter_congr
    intro v _
    by_cases ho : v.2.owner = node <;> simp [ho]

end Sound

end Index

end DiagramEditor
