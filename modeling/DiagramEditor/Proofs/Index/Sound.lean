import DiagramEditor.Proofs.Index.Topology

/-!
# Indexes in order

The kinds, the two tables of slots and the topology of an index say the same in
four ways. `Sound` ties them together; from it every look-up is read off the nodes
and links of the topology, and every change of the index is a change of these.
-/

set_option autoImplicit false

namespace DiagramEditor

namespace Table

variable {κ α β : Type} [DecidableEq κ]

theorem erase_perm {t u : Table κ α} (key : κ) (h : t.Perm u) : (erase key t).Perm (erase key u) := by
  rw [erase_eq_filter, erase_eq_filter]
  exact h.filter _

theorem erase_map (key : κ) (f : β → κ × α) (l : List β) :
    erase key (l.map f) = (l.filter fun b => (f b).1 ≠ key).map f := by
  rw [erase_eq_filter, List.filter_map]
  rfl

end Table

namespace Index

variable {x : Index}

def nodeIds (x : Index) : List ElementId := x.topology.nodes.map Prod.snd

def edgeIds (x : Index) : List ElementId := x.topology.arcs.map Arc.id

def links (x : Index) : List Link := x.topology.links

def nodeEntry (id : ElementId) : ElementId × ElementKind := (id, .node)

def edgeEntry (id : ElementId) : ElementId × ElementKind := (id, .edge)

def arcEntry (a : Arc) : ElementId × Nat := (a.id, a.slot)

/-- The slot kept for an edge is that of an arc with its id between the slots of the
two nodes. -/
def Joins (x : Index) (id source target : ElementId) : Prop :=
  ∃ slot a, x.edgeSlot? id = some slot ∧ x.topology.arc? slot = some a ∧ a.id = id ∧
    x.topology.node? a.source = some source ∧ x.topology.node? a.target = some target

structure Sound (x : Index) : Prop where
  topology : x.topology.Sound
  node_table : x.nodeSlots.Perm (x.topology.nodes.map Prod.swap)
  edge_table : x.edgeSlots.Perm (x.topology.arcs.map arcEntry)
  kind_table : x.kinds.Perm (x.nodeIds.map nodeEntry ++ x.edgeIds.map edgeEntry)
  ids : (x.nodeIds ++ x.edgeIds).Nodup

theorem links_ids (x : Index) : x.links.map Link.id = x.edgeIds := x.topology.links_map_id

theorem sound_empty : Index.empty.Sound where
  topology := Topology.sound_empty
  node_table := List.Perm.refl _
  edge_table := List.Perm.refl _
  kind_table := List.Perm.refl _
  ids := List.nodup_nil

namespace Sound

theorem nodup_nodes (h : x.Sound) : x.nodeIds.Nodup := (List.nodup_append.mp h.ids).1

theorem nodup_edges (h : x.Sound) : x.edgeIds.Nodup := (List.nodup_append.mp h.ids).2.1

theorem not_edge_of_node (h : x.Sound) {id : ElementId} (hn : id ∈ x.nodeIds) : id ∉ x.edgeIds :=
  fun he => (List.nodup_append.mp h.ids).2.2 id hn id he rfl

theorem kind_keys (h : x.Sound) : (x.kinds.map Prod.fst).Perm (x.nodeIds ++ x.edgeIds) := by
  have hp := h.kind_table.map Prod.fst
  rw [List.map_append, List.map_map, List.map_map] at hp
  simpa [Function.comp_def, nodeEntry, edgeEntry] using hp

theorem node_keys (h : x.Sound) : (x.nodeSlots.map Prod.fst).Perm x.nodeIds := by
  have hp := h.node_table.map Prod.fst
  rw [List.map_map] at hp
  exact hp

theorem edge_keys (h : x.Sound) : (x.edgeSlots.map Prod.fst).Perm x.edgeIds := by
  have hp := h.edge_table.map Prod.fst
  rw [List.map_map] at hp
  exact hp

theorem size_eq (h : x.Sound) : x.size = x.nodeIds.length + x.edgeIds.length := by
  have hl := h.kind_keys.length_eq
  simpa [size] using hl

theorem kind?_eq_some_iff (h : x.Sound) {id : ElementId} {k : ElementKind} :
    x.kind? id = some k ↔ (id, k) ∈ x.nodeIds.map nodeEntry ++ x.edgeIds.map edgeEntry := by
  have hk : (x.kinds.map Prod.fst).Nodup := h.kind_keys.nodup_iff.mpr h.ids
  rw [kind?, Table.get?_eq_some_iff hk, h.kind_table.mem_iff]

theorem kind?_eq_node_iff (h : x.Sound) {id : ElementId} : x.kind? id = some .node ↔ id ∈ x.nodeIds := by
  rw [h.kind?_eq_some_iff]
  simp [nodeEntry, edgeEntry]

theorem kind?_eq_edge_iff (h : x.Sound) {id : ElementId} : x.kind? id = some .edge ↔ id ∈ x.edgeIds := by
  rw [h.kind?_eq_some_iff]
  simp [nodeEntry, edgeEntry]

theorem contains_iff (h : x.Sound) {id : ElementId} :
    x.contains id = true ↔ id ∈ x.nodeIds ++ x.edgeIds := by
  rw [contains, kind?, Table.isSome_get?_iff, h.kind_keys.mem_iff]

theorem kind?_eq_none_iff (h : x.Sound) {id : ElementId} :
    x.kind? id = none ↔ id ∉ x.nodeIds ++ x.edgeIds := by
  rw [← h.contains_iff, contains]
  simp

theorem nodeSlot?_eq_some_iff (h : x.Sound) {id : ElementId} {slot : Nat} :
    x.nodeSlot? id = some slot ↔ x.topology.node? slot = some id := by
  have hk : (x.nodeSlots.map Prod.fst).Nodup := h.node_keys.nodup_iff.mpr h.nodup_nodes
  rw [nodeSlot?, Table.get?_eq_some_iff hk, h.node_table.mem_iff, h.topology.node?_eq_some_iff, List.mem_map]
  constructor
  · rintro ⟨p, hp, he⟩
    obtain ⟨rfl, rfl⟩ := Prod.mk.inj he
    exact hp
  · intro hp
    exact ⟨(slot, id), hp, rfl⟩

theorem isSome_nodeSlot?_iff (h : x.Sound) {id : ElementId} :
    (x.nodeSlot? id).isSome ↔ id ∈ x.nodeIds := by
  rw [nodeSlot?, Table.isSome_get?_iff, h.node_keys.mem_iff]

theorem edgeSlot?_eq_some_iff (h : x.Sound) {id : ElementId} {slot : Nat} :
    x.edgeSlot? id = some slot ↔ ∃ a ∈ x.topology.arcs, a.id = id ∧ a.slot = slot := by
  have hk : (x.edgeSlots.map Prod.fst).Nodup := h.edge_keys.nodup_iff.mpr h.nodup_edges
  rw [edgeSlot?, Table.get?_eq_some_iff hk, h.edge_table.mem_iff]
  simp [List.mem_map, arcEntry]

theorem isSome_edgeSlot?_iff (h : x.Sound) {id : ElementId} :
    (x.edgeSlot? id).isSome ↔ id ∈ x.edgeIds := by
  rw [edgeSlot?, Table.isSome_get?_iff, h.edge_keys.mem_iff]

/-- A slot that nothing stands at, be it new or left by what was removed, is held by no table and no
edge ends at it. So it makes no difference whether slots are given out again. -/
theorem not_held_of_free (h : x.Sound) {slot : Nat} :
    (x.topology.node? slot = none →
      (∀ p ∈ x.nodeSlots, p.2 ≠ slot) ∧ ∀ a ∈ x.topology.arcs, a.source ≠ slot ∧ a.target ≠ slot) ∧
    (x.topology.arc? slot = none → ∀ p ∈ x.edgeSlots, p.2 ≠ slot) := by
  refine ⟨fun hfree => ⟨?_, fun a ha => ?_⟩, fun hfree => ?_⟩
  · rintro ⟨id, held⟩ hp rfl
    obtain ⟨⟨_, _⟩, hn, heq⟩ := List.mem_map.mp (h.node_table.mem_iff.mp hp)
    obtain ⟨rfl, rfl⟩ := Prod.mk.inj heq
    cases hfree.symm.trans (h.topology.node?_eq_some_iff.mpr hn)
  · obtain ⟨hsource, htarget⟩ := h.topology.isSome_ends ha
    constructor
    · rintro rfl
      rw [hfree] at hsource
      cases hsource
    · rintro rfl
      rw [hfree] at htarget
      cases htarget
  · rintro ⟨id, held⟩ hp rfl
    obtain ⟨a, ha, heq⟩ := List.mem_map.mp (h.edge_table.mem_iff.mp hp)
    obtain ⟨rfl, rfl⟩ := Prod.mk.inj heq
    cases hfree.symm.trans (h.topology.arc?_eq_some ha)

/-- What an index joins can be read off its links. -/
theorem joins_iff (h : x.Sound) {id source target : ElementId} :
    x.Joins id source target ↔ ⟨id, some source, some target⟩ ∈ x.links := by
  constructor
  · rintro ⟨slot, a, hslot, ha, rfl, hs, ht⟩
    obtain ⟨b, hb, _, rfl⟩ := h.edgeSlot?_eq_some_iff.mp hslot
    rw [h.topology.arc?_eq_some hb, Option.some.injEq] at ha
    subst ha
    refine List.mem_map.mpr ⟨b, hb, ?_⟩
    rw [Topology.link, hs, ht]
  · intro hl
    obtain ⟨a, ha, heq⟩ := List.mem_map.mp hl
    obtain ⟨hid, hs, ht⟩ := Link.mk.inj heq
    exact ⟨a.slot, a, h.edgeSlot?_eq_some_iff.mpr ⟨a, ha, hid, rfl⟩, h.topology.arc?_eq_some ha, hid, hs, ht⟩

/-- Both ends of a link are indexed nodes. -/
theorem link_ends (h : x.Sound) {l : Link} (hl : l ∈ x.links) :
    ∃ s ∈ x.nodeIds, ∃ t ∈ x.nodeIds, l.source = some s ∧ l.target = some t := by
  obtain ⟨a, ha, rfl⟩ := List.mem_map.mp hl
  obtain ⟨hs, ht⟩ := h.topology.isSome_ends ha
  obtain ⟨s, hs⟩ := Option.isSome_iff_exists.mp hs
  obtain ⟨t, ht⟩ := Option.isSome_iff_exists.mp ht
  have hsm := List.mem_map_of_mem (f := Prod.snd) (h.topology.node?_eq_some_iff.mp hs)
  have htm := List.mem_map_of_mem (f := Prod.snd) (h.topology.node?_eq_some_iff.mp ht)
  exact ⟨s, hsm, t, htm, hs, ht⟩

theorem not_touches (h : x.Sound) {node : ElementId} (hn : node ∉ x.nodeIds) {l : Link}
    (hl : l ∈ x.links) : ¬ l.touches node := by
  obtain ⟨s, hs, t, ht, hsource, htarget⟩ := h.link_ends hl
  rw [Link.touches, hsource, htarget]
  rintro (he | he)
  · exact hn (Option.some.inj he ▸ hs)
  · exact hn (Option.some.inj he ▸ ht)

theorem forgetVisualsOf (h : x.Sound) (owner : ElementId) : (x.forgetVisualsOf owner).Sound :=
  ⟨h.topology, h.node_table, h.edge_table, h.kind_table, h.ids⟩

theorem indexVisuals (h : x.Sound) (g : VisualGraph) : (x.indexVisuals g).Sound :=
  ⟨h.topology, h.node_table, h.edge_table, h.kind_table, h.ids⟩

end Sound

end Index

end DiagramEditor
