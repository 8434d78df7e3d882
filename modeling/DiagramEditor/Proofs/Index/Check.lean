import DiagramEditor.Proofs.Index.Recency
import DiagramEditor.Proofs.Model
import Mathlib.Data.List.Perm.Subperm

/-!
# What the check of an index finds

The check compares sizes and looks for the elements of a model in the index, never the other
way. It finds nothing just when index and model list the same nodes and the same edges with
the same ends and every rendered element belongs to an element of the model: in an index that
has gone through any calls the kinds, the slots and the topology list the same ids, each once,
so that as many as are looked for and found are all there are.
-/

set_option autoImplicit false

namespace DiagramEditor

namespace Index

variable {x : Index} {m : Model}

/-- The index lists the nodes and the edges of the model, each edge between its two ends, and
holds no visual of anything else. -/
structure Mirrors (x : Index) (m : Model) : Prop where
  nodes : ∀ id, x.kind? id = some .node ↔ id ∈ m.nodeIds
  edges : ∀ id, x.kind? id = some .edge ↔ id ∈ m.edgeIds
  ends : ∀ e ∈ m.edges, x.Joins e.id e.source e.target
  owners : ∀ p ∈ x.visuals, p.2.owner ∈ m.ids

/-! ### What the check looks at -/

theorem checkEdges_eq_none_iff {es : List Edge} :
    x.checkEdges es = none ↔ ∀ e ∈ es, ∃ slot a, x.edgeSlot? e.id = some slot ∧ x.topology.arc? slot = some a ∧
      x.topology.node? a.source = some e.source ∧ x.topology.node? a.target = some e.target := by
  induction es with
  | nil => simp [checkEdges]
  | cons e rest ih =>
    rw [checkEdges, List.forall_mem_cons]
    cases hslot : x.edgeSlot? e.id with
    | none => simp
    | some slot =>
      cases ha : x.topology.arc? slot with
      | none => simp [ha]
      | some a =>
        by_cases hends : x.topology.node? a.source = some e.source ∧ x.topology.node? a.target = some e.target
        · simp [ha, hends, ih]
        · simp [ha, hends]

theorem mismatch?_eq_none_iff :
    x.mismatch? m = none ↔ x.size = m.size ∧ (∀ n ∈ m.nodes, x.isNode n.id = true) ∧ x.checkEdges m.edges = none ∧
      (x.topology.nodes.length = m.nodes.length ∧ x.topology.arcs.length = m.edges.length) ∧
      ∀ p ∈ x.visuals, p.2.owner ∈ m.ids := by
  have hnodes : m.nodes.find? (!x.isNode ·.id) = none ↔ ∀ n ∈ m.nodes, x.isNode n.id = true := by
    simp [List.find?_eq_none]
  have howners : x.visuals.find? (!m.contains ·.2.owner) = none ↔ ∀ p ∈ x.visuals, p.2.owner ∈ m.ids := by
    simp [List.find?_eq_none, Model.contains_iff]
  rw [mismatch?, ← hnodes, ← howners]
  by_cases hsize : x.size = m.size
  · rw [if_neg (not_not_intro hsize), and_iff_right hsize]
    cases m.nodes.find? (!x.isNode ·.id) with
    | some n => simp
    | none =>
      cases x.checkEdges m.edges with
      | some difference => simp
      | none =>
        by_cases htopology : x.topology.nodes.length = m.nodes.length ∧ x.topology.arcs.length = m.edges.length
        · rw [if_neg (by simp [htopology])]
          cases x.visuals.find? (!m.contains ·.2.owner) <;> simp [htopology]
        · rw [if_pos (by simpa [imp_iff_not_or] using htopology)]
          simp [htopology]
  · rw [if_pos hsize]
    simp [hsize]

/-! ### In an index in order -/

/-- Among ids that differ, as many as were looked for and found are all there are. -/
theorem perm_of_all_found {found ids : List ElementId} (hn : found.Nodup) (hfound : ∀ id ∈ found, id ∈ ids)
    (hlength : ids.length = found.length) : found.Perm ids :=
  (hn.subperm hfound).perm_of_length_le (Nat.le_of_eq hlength)

namespace Sound

/-- The arc at the slot of an edge is its own. -/
theorem joins_of_slot (h : x.Sound) {id source target : ElementId} {slot : Nat} {a : Arc}
    (hslot : x.edgeSlot? id = some slot) (ha : x.topology.arc? slot = some a)
    (hs : x.topology.node? a.source = some source) (ht : x.topology.node? a.target = some target) :
    x.Joins id source target := by
  obtain ⟨b, hb, hid, rfl⟩ := h.edgeSlot?_eq_some_iff.mp hslot
  obtain rfl : b = a := Option.some.inj ((h.topology.arc?_eq_some hb).symm.trans ha)
  exact ⟨_, b, hslot, ha, hid, hs, ht⟩

/-- Both ends of every arc are slots of nodes. -/
theorem ends_occupied (h : x.Sound) {slot : Nat} {a : Arc} (ha : x.topology.arc? slot = some a) :
    (∃ s, x.topology.node? a.source = some s) ∧ ∃ t, x.topology.node? a.target = some t := by
  obtain ⟨hs, ht⟩ := h.topology.isSome_ends (List.mem_of_find?_eq_some ha)
  exact ⟨Option.isSome_iff_exists.mp hs, Option.isSome_iff_exists.mp ht⟩

theorem mirrors_of_mismatch? (h : x.Sound) (hn : m.nodeIds.Nodup) (he : m.edgeIds.Nodup)
    (hcheck : x.mismatch? m = none) : x.Mirrors m := by
  obtain ⟨_, hnodes, hedges, ⟨hnodeCount, hedgeCount⟩, howners⟩ := mismatch?_eq_none_iff.mp hcheck
  rw [checkEdges_eq_none_iff] at hedges
  have hnode : m.nodeIds.Perm x.nodeIds := by
    refine perm_of_all_found hn (fun id hid => ?_) (by simpa [nodeIds, Model.nodeIds] using hnodeCount)
    obtain ⟨n, hm, rfl⟩ := List.mem_map.mp hid
    have hkind := hnodes n hm
    rw [isNode, Bool.and_eq_true, beq_iff_eq] at hkind
    exact h.kind?_eq_node_iff.mp hkind.1
  have hedge : m.edgeIds.Perm x.edgeIds := by
    refine perm_of_all_found he (fun id hid => ?_) (by simpa [edgeIds, Model.edgeIds] using hedgeCount)
    obtain ⟨e, hm, rfl⟩ := List.mem_map.mp hid
    obtain ⟨slot, _, hslot, _⟩ := hedges e hm
    exact h.isSome_edgeSlot?_iff.mp (by rw [hslot]; rfl)
  refine ⟨fun id => ?_, fun id => ?_, fun e hm => ?_, howners⟩
  · rw [h.kind?_eq_node_iff, hnode.mem_iff]
  · rw [h.kind?_eq_edge_iff, hedge.mem_iff]
  · obtain ⟨slot, a, hslot, ha, hs, ht⟩ := hedges e hm
    exact h.joins_of_slot hslot ha hs ht

theorem mismatch?_of_mirrors (h : x.Sound) (hn : m.nodeIds.Nodup) (he : m.edgeIds.Nodup) (hm : x.Mirrors m) :
    x.mismatch? m = none := by
  have hnode : x.nodeIds.Perm m.nodeIds := (List.perm_ext_iff_of_nodup h.nodup_nodes hn).mpr fun id => by
    rw [← h.kind?_eq_node_iff, hm.nodes]
  have hedge : x.edgeIds.Perm m.edgeIds := (List.perm_ext_iff_of_nodup h.nodup_edges he).mpr fun id => by
    rw [← h.kind?_eq_edge_iff, hm.edges]
  have hnodeCount : x.topology.nodes.length = m.nodes.length := by
    simpa [nodeIds, Model.nodeIds] using hnode.length_eq
  have hedgeCount : x.topology.arcs.length = m.edges.length := by
    simpa [edgeIds, Model.edgeIds] using hedge.length_eq
  have hsize : x.size = m.size := by
    rw [h.size_eq, Model.size, nodeIds, edgeIds, List.length_map, List.length_map, hnodeCount, hedgeCount]
  refine mismatch?_eq_none_iff.mpr ⟨hsize, fun n hmem => ?_, ?_, ⟨hnodeCount, hedgeCount⟩, hm.owners⟩
  · have hid : n.id ∈ x.nodeIds := hnode.mem_iff.mpr (List.mem_map_of_mem hmem)
    simp [isNode, h.kind?_eq_node_iff.mpr hid, h.isSome_nodeSlot?_iff.mpr hid]
  · refine checkEdges_eq_none_iff.mpr fun e hmem => ?_
    obtain ⟨slot, a, hslot, ha, _, hs, ht⟩ := hm.ends e hmem
    exact ⟨slot, a, hslot, ha, hs, ht⟩

theorem mismatch?_eq_none_iff (h : x.Sound) (hn : m.nodeIds.Nodup) (he : m.edgeIds.Nodup) :
    x.mismatch? m = none ↔ x.Mirrors m :=
  ⟨h.mirrors_of_mismatch? hn he, h.mismatch?_of_mirrors hn he⟩

end Sound

/-! ### In an index that was built -/

/-- What is built lists the elements of the model and has no visuals yet. -/
theorem of_build (h : build m = .ok x) : x.Linking m.edges.reverse ∧ x.nodeIds = m.nodeIds ∧ x.visuals = [] := by
  rw [build] at h
  cases hn : insertNodes m.nodes empty with
  | error e => simp [hn] at h
  | ok y =>
    simp only [hn] at h
    have hy := sound_empty.of_insertNodes hn
    have hx := hy.sound.of_insertEdges h
    have hlinks : y.links = [] := hy.links
    refine ⟨hx.linking ?_, hx.nodes.trans hy.nodes, ?_⟩
    · rw [hlinks, List.append_nil, List.map_reverse]
    · rw [hx.visuals, hy.visuals]
      simp [empty]

/-- What an index may go through: calls that change what it lists, and renderings. -/
inductive Event where
  | call (c : Call)
  | indexVisuals (g : VisualGraph)

def step (x : Index) : Event → Index
  | .call c => x.call c
  | .indexVisuals g => x.indexVisuals g

def through (x : Index) : List Event → Index
  | [] => x
  | e :: rest => (x.step e).through rest

/-- An index that was built for a model and has gone through any events. Calls may be refused,
and what is rendered need not have to do with the model. -/
def Reachable (x : Index) : Prop := ∃ m start events, build m = .ok start ∧ start.through events = x

theorem Linking.step {es : List Edge} (h : x.Linking es) (e : Event) : ∃ es', (x.step e).Linking es' := by
  cases e with
  | call c => exact ⟨_, h.call c⟩
  | indexVisuals g => exact ⟨es, h.sound.indexVisuals g, h.links⟩

theorem Linking.through {es : List Edge} (h : x.Linking es) (events : List Event) :
    ∃ es', (x.through events).Linking es' := by
  induction events generalizing x es with
  | nil => exact ⟨es, h⟩
  | cons e rest ih =>
    obtain ⟨_, hstep⟩ := h.step e
    exact ih hstep

theorem Reachable.sound (h : x.Reachable) : x.Sound := by
  obtain ⟨m, start, events, hstart, rfl⟩ := h
  obtain ⟨_, hx⟩ := (of_build hstart).1.through events
  exact hx.sound

/-- Whatever an index has gone through, its check against any model is exact, and no slot at which
the check looks for the end of an edge is free. -/
theorem check_exact (h : x.Reachable) (hn : m.nodeIds.Nodup) (he : m.edgeIds.Nodup) :
    (x.mismatch? m = none ↔ x.Mirrors m) ∧
      ∀ slot a, x.topology.arc? slot = some a →
        (∃ s, x.topology.node? a.source = some s) ∧ ∃ t, x.topology.node? a.target = some t :=
  ⟨h.sound.mismatch?_eq_none_iff hn he, fun _ _ => h.sound.ends_occupied⟩

/-- Two nodes and an edge. -/
def sampleModel (source target : ElementId) : Model :=
  let node (id : ElementId) : Node := ⟨id, "", .origin, none, .emptyObject⟩
  ⟨"sample", [node "a", node "b"], [⟨"e", "", source, target, [], .emptyObject⟩]⟩

/-- An edge to nowhere is refused, the edge is turned round, and the nodes are rendered. -/
def turning : List Event :=
  let bare (id : String) : VisualElement := ⟨id, "node", [], [], []⟩
  [.call (.insertEdge ⟨"f", "", "a", "c", [], .emptyObject⟩),
   .call (.reconnect ⟨"e", "", "b", "a", [], .emptyObject⟩),
   .indexVisuals ⟨"sample", "graph", [bare "a", bare "b"]⟩]

/-- What was turned round fits the model with the edge turned, and the model before no more. -/
theorem sample_check_exact :
    ∃ start, build (sampleModel "a" "b") = .ok start ∧ (start.through turning).Reachable ∧
      (start.through turning).Mirrors (sampleModel "b" "a") ∧
      ¬ (start.through turning).Mirrors (sampleModel "a" "b") := by
  have hreach : ∀ start, build (sampleModel "a" "b") = .ok start → (start.through turning).Reachable :=
    fun start hstart => ⟨_, start, turning, hstart, rfl⟩
  refine ⟨_, rfl, hreach _ rfl, ?_, ?_⟩
  · exact (check_exact (hreach _ rfl) (by decide) (by decide)).1.mp (by decide)
  · rw [← (check_exact (hreach _ rfl) (by decide) (by decide)).1]
    decide

end Index

end DiagramEditor
