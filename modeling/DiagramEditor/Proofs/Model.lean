import DiagramEditor.Model.Basic
import Mathlib.Data.List.Nodup
import Mathlib.Data.List.Perm.Basic

/-!
# Closed models

A model is closed when no id comes twice in it and both ends of every edge are among
its nodes. In a closed model an element is found under its own id and no other.
`without` is what is left of a model when ids are deleted: the edges of a deleted
node go too, all else stays in its order.
-/

set_option autoImplicit false

namespace DiagramEditor

namespace Model

variable {m : Model}

def nodeIds (m : Model) : List ElementId := m.nodes.map Node.id

def edgeIds (m : Model) : List ElementId := m.edges.map Edge.id

def ids (m : Model) : List ElementId := m.nodeIds ++ m.edgeIds

structure Closed (m : Model) : Prop where
  ids : m.ids.Nodup
  ends : ∀ e ∈ m.edges, e.source ∈ m.nodeIds ∧ e.target ∈ m.nodeIds

theorem hasNode_iff {id : ElementId} : m.hasNode id = true ↔ id ∈ m.nodeIds := by
  simp [hasNode, nodeIds]

theorem hasEdge_iff {id : ElementId} : m.hasEdge id = true ↔ id ∈ m.edgeIds := by
  simp [hasEdge, edgeIds]

theorem contains_iff {id : ElementId} : m.contains id = true ↔ id ∈ m.ids := by
  rw [contains, Bool.or_eq_true, hasNode_iff, hasEdge_iff, ids, List.mem_append]

theorem contains_eq_false_iff {id : ElementId} : m.contains id = false ↔ id ∉ m.ids := by
  rw [← contains_iff]
  simp

theorem id_of_node? {id : ElementId} {n : Node} (h : m.node? id = some n) : n ∈ m.nodes ∧ n.id = id :=
  ⟨List.mem_of_find?_eq_some h, by simpa using List.find?_some h⟩

theorem id_of_edge? {id : ElementId} {e : Edge} (h : m.edge? id = some e) : e ∈ m.edges ∧ e.id = id :=
  ⟨List.mem_of_find?_eq_some h, by simpa using List.find?_some h⟩

theorem node?_eq_none_iff {id : ElementId} : m.node? id = none ↔ id ∉ m.nodeIds := by
  simp [node?, nodeIds]

theorem edge?_eq_none_iff {id : ElementId} : m.edge? id = none ↔ id ∉ m.edgeIds := by
  simp [edge?, edgeIds]

theorem repeated?_eq_none_iff {seen ids : List ElementId} :
    repeated? seen ids = none ↔ ids.Nodup ∧ ∀ id ∈ ids, id ∉ seen := by
  induction ids generalizing seen with
  | nil => simp [repeated?]
  | cons id rest ih =>
    by_cases hid : id ∈ seen
    · simp [repeated?, hid]
    · rw [repeated?, if_neg (by simpa using hid), ih, List.nodup_cons]
      simp only [List.mem_cons, not_or, forall_eq_or_imp]
      constructor
      · rintro ⟨hn, hall⟩
        exact ⟨⟨fun hm => (hall id hm).1 rfl, hn⟩, hid, fun other ho => (hall other ho).2⟩
      · rintro ⟨⟨hm, hn⟩, _, hall⟩
        exact ⟨hn, fun other ho => ⟨fun he => hm (he ▸ ho), hall other ho⟩⟩

namespace Closed

theorem nodup_nodes (h : m.Closed) : m.nodeIds.Nodup := (List.nodup_append.mp h.ids).1

theorem nodup_edges (h : m.Closed) : m.edgeIds.Nodup := (List.nodup_append.mp h.ids).2.1

theorem not_edge_of_node (h : m.Closed) {id : ElementId} (hn : id ∈ m.nodeIds) : id ∉ m.edgeIds :=
  fun he => (List.nodup_append.mp h.ids).2.2 id hn id he rfl

theorem eq_of_node_id (h : m.Closed) {n n' : Node} (hn : n ∈ m.nodes) (hn' : n' ∈ m.nodes)
    (he : n.id = n'.id) : n = n' :=
  List.inj_on_of_nodup_map h.nodup_nodes hn hn' he

theorem eq_of_edge_id (h : m.Closed) {e e' : Edge} (he : e ∈ m.edges) (he' : e' ∈ m.edges)
    (hid : e.id = e'.id) : e = e' :=
  List.inj_on_of_nodup_map h.nodup_edges he he' hid

/-- A node is found under its own id and no other. -/
theorem node?_eq_some_iff (h : m.Closed) {id : ElementId} {n : Node} :
    m.node? id = some n ↔ n ∈ m.nodes ∧ n.id = id := by
  refine ⟨id_of_node?, ?_⟩
  rintro ⟨hn, rfl⟩
  cases hf : m.node? n.id with
  | none => exact absurd (List.mem_map_of_mem hn) (node?_eq_none_iff.mp hf)
  | some n' => rw [h.eq_of_node_id (id_of_node? hf).1 hn (id_of_node? hf).2]

/-- An edge is found under its own id and no other. -/
theorem edge?_eq_some_iff (h : m.Closed) {id : ElementId} {e : Edge} :
    m.edge? id = some e ↔ e ∈ m.edges ∧ e.id = id := by
  refine ⟨id_of_edge?, ?_⟩
  rintro ⟨he, rfl⟩
  cases hf : m.edge? e.id with
  | none => exact absurd (List.mem_map_of_mem he) (edge?_eq_none_iff.mp hf)
  | some e' => rw [h.eq_of_edge_id (id_of_edge? hf).1 he (id_of_edge? hf).2]

end Closed

/-- What is left when ids are deleted, with the edges of a deleted node. -/
def without (m : Model) (ids : List ElementId) : Model :=
  { m with
    nodes := m.nodes.filter (·.id ∉ ids)
    edges := m.edges.filter fun e => e.id ∉ ids ∧ e.source ∉ ids ∧ e.target ∉ ids }

theorem without_nil (m : Model) : m.without [] = m := by
  simp [without]

theorem without_append (m : Model) (ids more : List ElementId) :
    m.without (ids ++ more) = (m.without ids).without more := by
  simp only [without, List.filter_filter]
  congr 1
  · apply List.filter_congr
    intro n _
    simp [Bool.and_comm]
  · apply List.filter_congr
    intro e _
    simp only [List.mem_append, ← Bool.decide_and]
    apply decide_eq_decide.mpr
    tauto

theorem mem_nodeIds_without {ids : List ElementId} {id : ElementId} :
    id ∈ (m.without ids).nodeIds ↔ id ∈ m.nodeIds ∧ id ∉ ids := by
  simp only [nodeIds, without, List.mem_map, List.mem_filter, decide_eq_true_eq]
  constructor
  · rintro ⟨n, ⟨hn, hid⟩, rfl⟩
    exact ⟨⟨n, hn, rfl⟩, hid⟩
  · rintro ⟨⟨n, hn, rfl⟩, hid⟩
    exact ⟨n, ⟨hn, hid⟩, rfl⟩

theorem mem_edges_without {ids : List ElementId} {e : Edge} :
    e ∈ (m.without ids).edges ↔ e ∈ m.edges ∧ e.id ∉ ids ∧ e.source ∉ ids ∧ e.target ∉ ids := by
  simp [without, List.mem_filter]

theorem ids_without_subset {ids : List ElementId} {id : ElementId} (h : id ∈ (m.without ids).ids) :
    id ∈ m.ids := by
  rcases List.mem_append.mp h with hn | he
  · exact List.mem_append.mpr (Or.inl (mem_nodeIds_without.mp hn).1)
  · obtain ⟨e, hm, rfl⟩ := List.mem_map.mp he
    exact List.mem_append.mpr (Or.inr (List.mem_map_of_mem (mem_edges_without.mp hm).1))

theorem not_mem_ids_without {ids : List ElementId} {id : ElementId} (h : id ∈ ids) :
    id ∉ (m.without ids).ids := by
  intro hleft
  rcases List.mem_append.mp hleft with hn | he
  · exact (mem_nodeIds_without.mp hn).2 h
  · obtain ⟨e, hm, hid⟩ := List.mem_map.mp he
    exact (mem_edges_without.mp hm).2.1 (hid ▸ h)

theorem Closed.without (h : m.Closed) (ids : List ElementId) : (m.without ids).Closed where
  ids := h.ids.sublist ((List.filter_sublist.map _).append (List.filter_sublist.map _))
  ends := by
    intro e he
    obtain ⟨hm, _, hs, ht⟩ := mem_edges_without.mp he
    exact ⟨mem_nodeIds_without.mpr ⟨(h.ends e hm).1, hs⟩, mem_nodeIds_without.mpr ⟨(h.ends e hm).2, ht⟩⟩

theorem node_id_mem_without_iff {ids : List ElementId} {n : Node} (hn : n ∈ m.nodes) :
    n.id ∈ (m.without ids).ids ↔ n.id ∉ ids := by
  have hid : n.id ∈ m.nodeIds := List.mem_map_of_mem hn
  constructor
  · intro hleft hm
    exact not_mem_ids_without hm hleft
  · intro hm
    exact List.mem_append.mpr (Or.inl (mem_nodeIds_without.mpr ⟨hid, hm⟩))

theorem Closed.edge_id_mem_without_iff (h : m.Closed) {ids : List ElementId} {e : Edge} (he : e ∈ m.edges) :
    e.id ∈ (m.without ids).ids ↔ e.id ∉ ids ∧ e.source ∉ ids ∧ e.target ∉ ids := by
  constructor
  · intro hleft
    rcases List.mem_append.mp hleft with hn | hm
    · exact absurd (List.mem_map_of_mem he) (h.not_edge_of_node (mem_nodeIds_without.mp hn).1)
    · obtain ⟨e', hm', hid⟩ := List.mem_map.mp hm
      have hm'' := mem_edges_without.mp hm'
      rw [h.eq_of_edge_id hm''.1 he hid] at hm''
      exact hm''.2
  · intro hm
    exact List.mem_append.mpr (Or.inr (List.mem_map_of_mem (mem_edges_without.mpr ⟨he, hm⟩)))

/-- Ids that are not there may be deleted any time. -/
theorem Closed.without_absent (h : m.Closed) {ids : List ElementId} (hids : ∀ id ∈ ids, id ∉ m.ids) :
    m.without ids = m := by
  have hnode : ∀ id ∈ m.nodeIds, id ∉ ids := fun id hn hm => hids id hm (List.mem_append.mpr (Or.inl hn))
  have hnodes : m.nodes.filter (·.id ∉ ids) = m.nodes := by
    apply List.filter_eq_self.mpr
    intro n hn
    simpa using hnode n.id (List.mem_map_of_mem hn)
  have hedges : (m.edges.filter fun e => e.id ∉ ids ∧ e.source ∉ ids ∧ e.target ∉ ids) = m.edges := by
    apply List.filter_eq_self.mpr
    intro e he
    have hid : e.id ∉ ids := fun hm => hids e.id hm (List.mem_append.mpr (Or.inr (List.mem_map_of_mem he)))
    simpa using ⟨hid, hnode _ (h.ends e he).1, hnode _ (h.ends e he).2⟩
  rw [Model.without, hnodes, hedges]

theorem nodeIds_addNode (m : Model) (n : Node) : (m.addNode n).nodeIds = m.nodeIds ++ [n.id] := by
  simp [nodeIds, addNode]

theorem edgeIds_addEdge (m : Model) (e : Edge) : (m.addEdge e).edgeIds = m.edgeIds ++ [e.id] := by
  simp [edgeIds, addEdge]

section

variable {α : Type} {key : α → ElementId} {f : α → α}

/-- Elements that keep their ids when they change keep them all. -/
theorem map_key_update (hf : ∀ a, key (f a) = key a) (as : List α) (id : ElementId) :
    (as.map fun a => if key a == id then f a else a).map key = as.map key := by
  rw [List.map_map]
  apply List.map_congr_left
  intro a _
  by_cases h : key a = id <;> simp [h, hf]

end

theorem nodeIds_updateNode {f : Node → Node} (hf : ∀ n, (f n).id = n.id) (id : ElementId) :
    (m.updateNode id f).nodeIds = m.nodeIds :=
  map_key_update hf m.nodes id

theorem edgeIds_updateEdge {f : Edge → Edge} (hf : ∀ e, (f e).id = e.id) (id : ElementId) :
    (m.updateEdge id f).edgeIds = m.edgeIds :=
  map_key_update hf m.edges id

/-- Of the edges the one of that id changes where it stands. -/
theorem Closed.edges_updateEdge (h : m.Closed) {e : Edge} (he : e ∈ m.edges) (f : Edge → Edge) :
    ∃ before after, m.edges = before ++ e :: after ∧ (m.updateEdge e.id f).edges = before ++ f e :: after ∧
      ∀ other ∈ before ++ after, other.id ≠ e.id := by
  obtain ⟨before, after, hsplit⟩ := List.append_of_mem he
  have hnodup : ((before ++ e :: after).map Edge.id).Nodup := hsplit ▸ h.nodup_edges
  rw [List.map_append, List.map_cons, List.nodup_middle, List.nodup_cons, ← List.map_append] at hnodup
  have hother : ∀ other ∈ before ++ after, other.id ≠ e.id := fun other ho heq =>
    hnodup.1 (heq ▸ List.mem_map_of_mem ho)
  have hkeep : ∀ es : List Edge, (∀ other ∈ es, other.id ≠ e.id) →
      es.map (fun other => if other.id == e.id then f other else other) = es := by
    intro es hes
    refine (List.map_congr_left fun other ho => ?_).trans es.map_id
    simp [hes other ho]
  refine ⟨before, after, hsplit, ?_, hother⟩
  rw [updateEdge, hsplit, List.map_append, List.map_cons,
    hkeep before fun other ho => hother other (List.mem_append_left _ ho),
    hkeep after fun other ho => hother other (List.mem_append_right _ ho)]
  simp

theorem foldl_eraseEdge (m : Model) (ids : List ElementId) :
    ids.foldl eraseEdge m = { m with edges := m.edges.filter (·.id ∉ ids) } := by
  induction ids generalizing m with
  | nil => simp
  | cons id rest ih =>
    rw [List.foldl_cons, ih, eraseEdge, List.filter_filter]
    congr 1
    apply List.filter_congr
    intro e _
    by_cases h : e.id = id <;> simp [h]

end Model

end DiagramEditor
