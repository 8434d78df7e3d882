import DiagramEditor.Proofs.Index.Incidence

/-!
# The edge linked last comes first

Through any calls an index keeps its links in the order of linking, the last one first,
so what it lists at a node can be told from the calls alone: each edge that was linked
and not removed since, with the ends it was last given.
-/

set_option autoImplicit false

namespace DiagramEditor

/-- Of some edges those that leave a node, then those that only reach it. -/
def edgesAt (es : List Edge) (node : ElementId) : List Edge :=
  es.filter (·.source = node) ++ es.filter fun e => e.target = node ∧ e.source ≠ node

namespace Index

variable {x : Index} {es : List Edge}

inductive Call where
  | insertNode (n : Node)
  | insertEdge (e : Edge)
  | reconnect (e : Edge)
  | removeEdge (id : ElementId)
  | removeNode (id : ElementId)

/-- The index that was made, or the one before where that was refused. -/
def orElse (x : Index) : Except EditError Index → Index
  | .ok made => made
  | .error _ => x

def call (x : Index) : Call → Index
  | .insertNode n => x.orElse (x.insertNode n)
  | .insertEdge e => x.orElse (x.insertEdge e)
  | .reconnect e => x.orElse (x.reconnect e)
  | .removeEdge id => (x.removeEdge id).1
  | .removeNode id => (x.removeNode id).1

def after (x : Index) : List Call → Index
  | [] => x
  | c :: rest => (x.call c).after rest

/-- What a call makes of the edges linked before, the one linked last first. Only a call that is
carried out links an edge; an edge goes by its own removal or by that of one of its ends. -/
def relinked (x : Index) (es : List Edge) : Call → List Edge
  | .insertNode _ => es
  | .insertEdge e => if (x.insertEdge e).isOk then e :: es else es
  | .reconnect e => if (x.reconnect e).isOk then e :: es.filter (·.id ≠ e.id) else es
  | .removeEdge id => es.filter (·.id ≠ id)
  | .removeNode id => es.filter fun e => e.source ≠ id ∧ e.target ≠ id

def linkedAfter (x : Index) (es : List Edge) : List Call → List Edge
  | [] => es
  | c :: rest => (x.call c).linkedAfter (x.relinked es c) rest

/-- An index in order that links just these edges, in this order. -/
structure Linking (x : Index) (es : List Edge) : Prop where
  sound : x.Sound
  links : x.links = es.map Edge.link

theorem Becomes.linking {y : Index} {nodes : List ElementId} {links : List Link} {gone : List ElementId}
    (h : x.Becomes y nodes links gone) (hes : links = es.map Edge.link) : y.Linking es :=
  ⟨h.sound, h.links.trans hes⟩

theorem removeNode_of_absent (h : x.Sound) {id : ElementId} (hid : id ∉ x.nodeIds) : (x.removeNode id).1 = x := by
  have hslot : x.nodeSlot? id = none := by
    rw [← Option.not_isSome_iff_eq_none, h.isSome_nodeSlot?_iff]
    exact hid
  simp [Index.removeNode, incident, hslot, removeEdges]

theorem removeEdge_of_absent (h : x.Sound) {id : ElementId} (hid : id ∉ x.edgeIds) : (x.removeEdge id).1 = x := by
  have hslot : x.edgeSlot? id = none := by
    rw [← Option.not_isSome_iff_eq_none, h.isSome_edgeSlot?_iff]
    exact hid
  simp [Index.removeEdge, hslot]

namespace Linking

theorem empty : Index.empty.Linking [] := ⟨sound_empty, rfl⟩

theorem edgeIds (h : x.Linking es) : x.edgeIds = es.map Edge.id := by
  rw [← links_ids, h.links, List.map_map]
  rfl

theorem filter_links (h : x.Linking es) {p : Link → Bool} {q : Edge → Bool} (hpq : ∀ e, p e.link = q e) :
    x.links.filter p = (es.filter q).map Edge.link := by
  rw [h.links, List.filter_map]
  congr 2
  exact funext hpq

theorem insertNode (h : x.Linking es) (n : Node) : (x.orElse (x.insertNode n)).Linking es := by
  cases hy : x.insertNode n with
  | error fault => exact h
  | ok y => exact (h.sound.of_insertNode hy).2.linking h.links

theorem insertEdge (h : x.Linking es) (e : Edge) :
    (x.orElse (x.insertEdge e)).Linking (if (x.insertEdge e).isOk then e :: es else es) := by
  cases hy : x.insertEdge e with
  | error fault => exact h
  | ok y =>
    obtain ⟨_, _, _, hb⟩ := h.sound.of_insertEdge hy
    exact hb.linking (by rw [h.links]; rfl)

theorem reconnect (h : x.Linking es) (e : Edge) :
    (x.orElse (x.reconnect e)).Linking (if (x.reconnect e).isOk then e :: es.filter (·.id ≠ e.id) else es) := by
  cases hy : x.reconnect e with
  | error fault => exact h
  | ok y => exact (h.sound.of_reconnect hy).2.linking (by rw [h.filter_links fun _ => rfl]; rfl)

theorem removeEdge (h : x.Linking es) (id : ElementId) : (x.removeEdge id).1.Linking (es.filter (·.id ≠ id)) := by
  by_cases hid : id ∈ x.edgeIds
  · exact (h.sound.removeEdge hid).2.linking (h.filter_links fun _ => rfl)
  · have hkeep : es.filter (·.id ≠ id) = es := by
      apply List.filter_eq_self.mpr
      intro e he
      have hne : e.id ≠ id := fun heq => hid (h.edgeIds ▸ heq ▸ List.mem_map_of_mem he)
      simpa using hne
    rw [removeEdge_of_absent h.sound hid, hkeep]
    exact h

theorem removeNode (h : x.Linking es) (id : ElementId) :
    (x.removeNode id).1.Linking (es.filter fun e => e.source ≠ id ∧ e.target ≠ id) := by
  by_cases hid : id ∈ x.nodeIds
  · refine (h.sound.removeNode hid).2.linking (h.filter_links fun e => ?_)
    simp [Link.touches, Edge.link]
  · have hkeep : (es.filter fun e => e.source ≠ id ∧ e.target ≠ id) = es := by
      apply List.filter_eq_self.mpr
      intro e he
      have hnot := h.sound.not_touches hid (h.links ▸ List.mem_map_of_mem he)
      simpa [Link.touches, Edge.link] using hnot
    rw [removeNode_of_absent h.sound hid, hkeep]
    exact h

theorem call (h : x.Linking es) (c : Call) : (x.call c).Linking (x.relinked es c) := by
  cases c with
  | insertNode n => exact h.insertNode n
  | insertEdge e => exact h.insertEdge e
  | reconnect e => exact h.reconnect e
  | removeEdge id => exact h.removeEdge id
  | removeNode id => exact h.removeNode id

theorem after (h : x.Linking es) (calls : List Call) : (x.after calls).Linking (x.linkedAfter es calls) := by
  induction calls generalizing x es with
  | nil => exact h
  | cons c rest ih => exact ih (h.call c)

/-- What is listed at a node, told from the edges in the order of linking. -/
theorem incident_eq (h : x.Linking es) (node : ElementId) : x.incident node = (edgesAt es node).map Edge.id := by
  have hfrom : x.links.filter (·.source = some node) = (es.filter (·.source = node)).map Edge.link :=
    h.filter_links fun e => by simp [Edge.link]
  have hto : (x.links.filter fun l => l.target = some node ∧ l.source ≠ some node) =
      (es.filter fun e => e.target = node ∧ e.source ≠ node).map Edge.link :=
    h.filter_links fun e => by simp [Edge.link]
  rw [h.sound.incident_eq, linksAt, hfrom, hto, ← List.map_append, List.map_map]
  rfl

end Linking

end Index

end DiagramEditor
