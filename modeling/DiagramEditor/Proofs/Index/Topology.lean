import DiagramEditor.Index
import Mathlib.Data.List.Nodup
import Mathlib.Data.List.Perm.Basic

/-!
# Topologies in order

In a topology that is in order no slot is given twice, the next slots are free and
both ends of every edge are occupied. Every change keeps this. What is seen from
outside are the links: the edges with the nodes found at their ends.
-/

set_option autoImplicit false

namespace DiagramEditor

/-- An edge with the nodes found at its two slots. -/
structure Link where
  id : ElementId
  source : Option ElementId
  target : Option ElementId
deriving DecidableEq, Repr

def Edge.link (e : Edge) : Link := ⟨e.id, some e.source, some e.target⟩

namespace Link

/-- The node is one of the two ends. -/
def touches (l : Link) (node : ElementId) : Prop := l.source = some node ∨ l.target = some node

instance (l : Link) (node : ElementId) : Decidable (l.touches node) :=
  inferInstanceAs (Decidable (_ ∨ _))

end Link

namespace Topology

variable {t : Topology}

def link (t : Topology) (a : Arc) : Link := ⟨a.id, t.node? a.source, t.node? a.target⟩

def links (t : Topology) : List Link := t.arcs.map t.link

structure Sound (t : Topology) : Prop where
  node_slots : (t.nodes.map Prod.fst).Nodup
  arc_slots : (t.arcs.map Arc.slot).Nodup
  node_lt : ∀ p ∈ t.nodes, p.1 < t.nextNode
  arc_lt : ∀ a ∈ t.arcs, a.slot < t.nextArc
  ends : ∀ a ∈ t.arcs, a.source ∈ t.nodes.map Prod.fst ∧ a.target ∈ t.nodes.map Prod.fst

theorem links_map_id (t : Topology) : t.links.map Link.id = t.arcs.map Arc.id := by
  rw [links, List.map_map]
  rfl

theorem sound_empty : Topology.empty.Sound := by
  constructor <;> simp [Topology.empty]

theorem Sound.node?_eq_some_iff (h : t.Sound) {slot : Nat} {id : ElementId} :
    t.node? slot = some id ↔ (slot, id) ∈ t.nodes :=
  Table.get?_eq_some_iff h.node_slots

theorem Sound.occupied_lt (h : t.Sound) {slot : Nat} (hs : slot ∈ t.nodes.map Prod.fst) :
    slot < t.nextNode := by
  obtain ⟨p, hp, rfl⟩ := List.mem_map.mp hs
  exact h.node_lt p hp

theorem Sound.arc?_eq_some (h : t.Sound) {a : Arc} (ha : a ∈ t.arcs) : t.arc? a.slot = some a := by
  cases hf : t.arc? a.slot with
  | none =>
    have hne := List.find?_eq_none.mp hf a ha
    simp at hne
  | some b =>
    have hb : b ∈ t.arcs := List.mem_of_find?_eq_some hf
    have hs : b.slot = a.slot := by simpa using List.find?_some hf
    rw [List.inj_on_of_nodup_map h.arc_slots hb ha hs]

/-- An edge ends at the slot of a node just where its link ends at that node. -/
theorem Sound.slot_eq_iff (h : t.Sound) (hn : (t.nodes.map Prod.snd).Nodup) {slot other : Nat}
    {id : ElementId} (hs : t.node? slot = some id) :
    other = slot ↔ t.node? other = some id := by
  constructor
  · rintro rfl
    exact hs
  · intro ho
    have hm := h.node?_eq_some_iff.mp hs
    have hm' := h.node?_eq_some_iff.mp ho
    exact congrArg Prod.fst (List.inj_on_of_nodup_map hn hm' hm rfl)

theorem Sound.isSome_ends (h : t.Sound) {a : Arc} (ha : a ∈ t.arcs) :
    (t.node? a.source).isSome ∧ (t.node? a.target).isSome :=
  ⟨Table.isSome_get?_iff.mpr (h.ends a ha).1, Table.isSome_get?_iff.mpr (h.ends a ha).2⟩

theorem Sound.node?_addNode (h : t.Sound) (id : ElementId) {slot : Nat}
    (hs : slot ∈ t.nodes.map Prod.fst) : (t.addNode id).2.node? slot = t.node? slot := by
  have hlt := h.occupied_lt hs
  have hput := Table.put_of_get?_eq_none id
    (Table.get?_eq_none_iff.mpr fun hm => Nat.lt_irrefl _ (h.occupied_lt hm))
  have hne : slot ≠ t.nextNode := Nat.ne_of_lt hlt
  rw [node?, addNode, ← hput]
  exact Table.get?_put_of_ne _ _ hne

theorem Sound.addNode (h : t.Sound) (id : ElementId) : (t.addNode id).2.Sound where
  node_slots := by
    rw [Topology.addNode]
    simp only [List.map_append, List.map_cons, List.map_nil, List.nodup_append]
    refine ⟨h.node_slots, by simp, ?_⟩
    intro s hs s' hs'
    have hlt := h.occupied_lt hs
    simp only [List.mem_singleton] at hs'
    omega
  arc_slots := h.arc_slots
  node_lt := by
    intro p hp
    rcases List.mem_append.mp hp with hp | hp
    · exact Nat.lt_succ_of_lt (h.node_lt p hp)
    · rw [List.mem_singleton.mp hp]
      exact Nat.lt_succ_self _
  arc_lt := h.arc_lt
  ends := by
    intro a ha
    simp only [Topology.addNode, List.map_append, List.mem_append]
    exact ⟨Or.inl (h.ends a ha).1, Or.inl (h.ends a ha).2⟩

theorem Sound.links_addNode (h : t.Sound) (id : ElementId) : (t.addNode id).2.links = t.links := by
  apply List.map_congr_left
  intro a ha
  rw [link, link, h.node?_addNode id (h.ends a ha).1, h.node?_addNode id (h.ends a ha).2]

theorem Sound.addArc (h : t.Sound) {source target : Nat} (id : ElementId)
    (hs : source ∈ t.nodes.map Prod.fst) (ht : target ∈ t.nodes.map Prod.fst) :
    (t.addArc source target id).2.Sound where
  node_slots := h.node_slots
  arc_slots := by
    rw [Topology.addArc]
    simp only [List.map_cons, List.nodup_cons]
    refine ⟨?_, h.arc_slots⟩
    intro hm
    obtain ⟨a, ha, he⟩ := List.mem_map.mp hm
    have hlt := h.arc_lt a ha
    omega
  node_lt := h.node_lt
  arc_lt := by
    intro a ha
    rcases List.mem_cons.mp ha with rfl | ha
    · exact Nat.lt_succ_self _
    · exact Nat.lt_succ_of_lt (h.arc_lt a ha)
  ends := by
    intro a ha
    rcases List.mem_cons.mp ha with rfl | ha
    · exact ⟨hs, ht⟩
    · exact h.ends a ha

theorem links_addArc (source target : Nat) (id : ElementId) :
    (t.addArc source target id).2.links = ⟨id, t.node? source, t.node? target⟩ :: t.links := rfl

theorem Sound.removeArc (h : t.Sound) (slot : Nat) : (t.removeArc slot).Sound where
  node_slots := h.node_slots
  arc_slots := h.arc_slots.sublist (List.filter_sublist.map _)
  node_lt := h.node_lt
  arc_lt := fun a ha => h.arc_lt a (List.mem_filter.mp ha).1
  ends := fun a ha => h.ends a (List.mem_filter.mp ha).1

/-- The slot and the id of an edge tell it from the others alike. -/
theorem Sound.removeArc_eq (h : t.Sound) (hids : (t.arcs.map Arc.id).Nodup) {a : Arc} (ha : a ∈ t.arcs) :
    (t.removeArc a.slot).arcs = t.arcs.filter (·.id ≠ a.id) := by
  apply List.filter_congr
  intro b hb
  have hs : b.slot = a.slot → b = a := fun he => List.inj_on_of_nodup_map h.arc_slots hb ha he
  have hi : b.id = a.id → b = a := fun he => List.inj_on_of_nodup_map hids hb ha he
  by_cases hd : b.id = a.id
  · simp [hi hd]
  · have hne : b.slot ≠ a.slot := fun he => hd (congrArg Arc.id (hs he))
    simp [hd, hne]

theorem Sound.links_removeArc (h : t.Sound) (hids : (t.arcs.map Arc.id).Nodup) {a : Arc} (ha : a ∈ t.arcs) :
    (t.removeArc a.slot).links = t.links.filter (·.id ≠ a.id) := by
  rw [links, h.removeArc_eq hids ha, links, List.filter_map]
  rfl

theorem Sound.removeNode (h : t.Sound) (slot : Nat) : (t.removeNode slot).Sound where
  node_slots := by
    rw [Topology.removeNode, Table.erase_eq_filter]
    exact h.node_slots.sublist (List.filter_sublist.map _)
  arc_slots := h.arc_slots.sublist (List.filter_sublist.map _)
  node_lt := by
    intro p hp
    rw [Topology.removeNode, Table.erase_eq_filter] at hp
    exact h.node_lt p (List.mem_filter.mp hp).1
  arc_lt := fun a ha => h.arc_lt a (List.mem_filter.mp ha).1
  ends := by
    intro a ha
    obtain ⟨hm, hc⟩ := List.mem_filter.mp ha
    simp only [Bool.and_eq_true, bne_iff_ne, ne_eq] at hc
    rw [Topology.removeNode, ← Table.isSome_get?_iff, ← Table.isSome_get?_iff,
      Table.get?_erase_of_ne _ hc.1, Table.get?_erase_of_ne _ hc.2]
    exact h.isSome_ends hm

/-- Freeing the slot of a node takes away its id. -/
theorem Sound.nodes_removeNode (h : t.Sound) (hn : (t.nodes.map Prod.snd).Nodup) {slot : Nat} {id : ElementId}
    (hs : t.node? slot = some id) : (t.removeNode slot).nodes = t.nodes.filter (·.2 ≠ id) := by
  rw [Topology.removeNode, Table.erase_eq_filter]
  apply List.filter_congr
  intro p hp
  have hiff : p.1 = slot ↔ t.node? p.1 = some id := h.slot_eq_iff hn hs
  rw [h.node?_eq_some_iff.mpr hp, Option.some.injEq] at hiff
  exact decide_eq_decide.mpr (not_congr hiff)

theorem arcs_removeNode {slot : Nat} (hs : ∀ a ∈ t.arcs, a.source ≠ slot ∧ a.target ≠ slot) :
    (t.removeNode slot).arcs = t.arcs := by
  apply List.filter_eq_self.mpr
  intro a ha
  simpa [bne_iff_ne] using hs a ha

/-- Where no edge ends at a slot, freeing it leaves the links alone. -/
theorem links_removeNode {slot : Nat} (hs : ∀ a ∈ t.arcs, a.source ≠ slot ∧ a.target ≠ slot) :
    (t.removeNode slot).links = t.links := by
  rw [links, arcs_removeNode hs]
  apply List.map_congr_left
  intro a ha
  rw [link, link, node?, node?, Topology.removeNode, Table.get?_erase_of_ne _ (hs a ha).1,
    Table.get?_erase_of_ne _ (hs a ha).2]
  rfl

end Topology

end DiagramEditor
