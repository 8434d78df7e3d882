import DiagramEditor.Proofs.Keyed.Operation
import DiagramEditor.Proofs.Runs

/-!
# Runs under keys

Every call on a diagram over maps is the call on the plain diagram, as long as elements stand
under their own ids, and they do so again after the call. So what holds of plain diagrams
after any calls holds of diagrams over maps that began with every element under its own id.
A diagram may begin otherwise, for nothing asks whose the keys of a model are.
-/

set_option autoImplicit false

namespace DiagramEditor

open Json

namespace KeyedDiagram

variable {d : KeyedDiagram}

/-- What is made of a diagram, or the diagram itself where that is refused. -/
def orElse (d : KeyedDiagram) : Except EditError KeyedDiagram → KeyedDiagram
  | .ok made => made
  | .error _ => d

/-- The diagram a call leaves. -/
def call (d : KeyedDiagram) : Diagram.Call → KeyedDiagram
  | .apply op context ids => (op.applyKeyed context ⟨d, ids⟩).2.diagram
  | .render language => d.orElse ((d.render language).map Prod.fst)
  | .insertNode n => d.orElse (d.insertNode n)
  | .insertEdge e => d.orElse (d.insertEdge e)
  | .remove id => d.orElse ((d.remove id).map Prod.fst)
  | .setBounds id position size => d.orElse (d.setBounds id position size)
  | .setRouting id points => d.orElse (d.setRouting id points)
  | .relink id source target => (d.relink id source target).2
  | .setData id data => d.orElse (d.setData id data)

def after (d : KeyedDiagram) : List Diagram.Call → KeyedDiagram
  | [] => d
  | c :: rest => (d.call c).after rest

/-- A diagram to begin with, of a model that has every element under its own id. -/
inductive Start : KeyedDiagram → Prop
  | empty (id : String) : Start (.empty id)
  | ofModel {m : KeyedModel} {d : KeyedDiagram} (own : m.Own) (accepted : KeyedDiagram.ofModel m = .ok d) : Start d

/-- The index fits the model under its keys, every key is the id of what stands under it and is no
other element's, the ends of edges are keys of nodes, and without the keys all is as it should be. -/
structure Coherent (d : KeyedDiagram) : Prop where
  checked : d.mismatch? = none
  node_keys : ∀ p ∈ d.model.nodes.entries, p.1 = p.2.id
  edge_keys : ∀ p ∈ d.model.edges.entries, p.1 = p.2.id
  distinct : (d.model.nodes.entries.map Prod.fst ++ d.model.edges.entries.map Prod.fst).Nodup
  ends : ∀ p ∈ d.model.edges.entries, d.model.hasNode p.2.source = true ∧ d.model.hasNode p.2.target = true
  kinds : ∀ key, d.index.kind? key =
    if d.model.hasNode key then some .node else if d.model.hasEdge key then some .edge else none
  owners : ∀ p ∈ d.index.visuals, d.model.contains p.2.owner = true
  plain : d.plain.Coherent

/-! ### Single calls -/

theorem Mirrors.orElse {made : Except EditError KeyedDiagram} {plain : Except EditError Diagram}
    (h : d.model.Own) (hmade : Mirrors made plain) :
    (d.orElse made).model.Own ∧ (d.orElse made).plain = d.plain.orElse plain := by
  cases hmade with
  | made own hplain => exact ⟨own, hplain⟩
  | refused e => exact ⟨h, rfl⟩

theorem mirrors_map_remove (h : d.model.Own) (id : ElementId) :
    Mirrors ((d.remove id).map Prod.fst) ((d.plain.remove id).map Prod.fst) := by
  rcases mirrors_remove h id with ⟨e, he, hplain⟩ | ⟨d', removed, hd, hplain, hown⟩
  · rw [he, hplain]
    exact .refused e
  · rw [hd, hplain]
    exact .made hown rfl

/-- A call does to the diagram what it does to the plain one, and leaves every element under its own id. -/
theorem plain_call (h : d.model.Own) (c : Diagram.Call) :
    (d.call c).model.Own ∧ (d.call c).plain = d.plain.call c := by
  cases c with
  | apply op context ids =>
    obtain ⟨r, w, hkeyed, hplain, hown⟩ := op.mirrors_runKeyed context ⟨d, ids⟩ h
    rw [call, show op.applyKeyed context ⟨d, ids⟩ = (r, w) from hkeyed, Diagram.call,
      show op.apply context ⟨d.plain, ids⟩ = (r, w.plain) from hplain]
    exact ⟨hown, rfl⟩
  | render language => exact (mirrors_render h language).orElse h
  | insertNode n => exact (mirrors_insertNode h n).orElse h
  | insertEdge e => exact (mirrors_insertEdge h e).orElse h
  | remove id => exact (mirrors_map_remove h id).orElse h
  | setBounds id position size => exact (mirrors_setBounds h id position size).orElse h
  | setRouting id points => exact (mirrors_setRouting h id points).orElse h
  | relink id source target =>
    obtain ⟨_, hplain, hown⟩ := mirrors_relink h id source target
    exact ⟨hown, hplain⟩
  | setData id data => exact (mirrors_setData h id data).orElse h

/-! ### Runs -/

theorem plain_after (h : d.model.Own) (calls : List Diagram.Call) :
    (d.after calls).model.Own ∧ (d.after calls).plain = d.plain.after calls := by
  induction calls generalizing d with
  | nil => exact ⟨h, rfl⟩
  | cons c rest ih =>
    obtain ⟨hown, hplain⟩ := plain_call h c
    rw [after, Diagram.after, ← hplain]
    exact ih hown

theorem Start.own_and_plain (h : Start d) : d.model.Own ∧ Diagram.Start d.plain := by
  cases h with
  | empty id => exact ⟨KeyedModel.own_empty id, .empty id⟩
  | ofModel own accepted =>
    have hmade := mirrors_ofModel own
    rw [accepted] at hmade
    generalize hstart : Diagram.ofModel _ = start at hmade
    cases hmade with
    | made own hplain => exact ⟨own, .ofModel (hplain ▸ hstart)⟩

theorem map_fst_entries {α : Type} [Keyed α] {m : KeyedMap α} (h : m.Own) :
    m.entries.map Prod.fst = m.values.map Keyed.key := by
  rw [KeyedMap.values, List.map_map]
  exact List.map_congr_left h

theorem kind_element? {m : KeyedModel} (h : m.Own) (key : ElementId) : (m.plain.element? key).map Element.kind =
    if m.hasNode key then some .node else if m.hasEdge key then some .edge else none := by
  rw [Model.element?, h.node?, h.edge?, KeyedModel.hasNode, KeyedModel.hasEdge, KeyedMap.has, KeyedMap.has,
    KeyedModel.node?, KeyedModel.edge?]
  cases m.nodes.get? key with
  | some n => rfl
  | none => cases m.edges.get? key <;> rfl

theorem hasNode_of_mem {m : KeyedModel} (h : m.Own) {id : ElementId} (hn : ∃ n ∈ m.plain.nodes, n.id = id) :
    m.hasNode id = true := by
  obtain ⟨n, hn, rfl⟩ := hn
  rw [← h.hasNode, Model.hasNode, List.any_eq_true]
  exact ⟨n, hn, beq_self_eq_true _⟩

theorem coherent_of_plain (h : d.model.Own) (hplain : d.plain.Coherent) : d.Coherent where
  checked := (mismatch?_eq h).trans hplain.checked
  node_keys := h.nodes
  edge_keys := h.edges
  distinct := by
    rw [map_fst_entries h.nodes, map_fst_entries h.edges]
    exact hplain.distinct
  ends p hp := by
    obtain ⟨hsource, htarget⟩ := hplain.ends p.2 (List.mem_map_of_mem hp)
    exact ⟨hasNode_of_mem h hsource, hasNode_of_mem h htarget⟩
  kinds key := (hplain.kinds key).trans (kind_element? h key)
  owners p hp := by
    obtain ⟨element, helement⟩ := hplain.owners p hp
    have hkind := kind_element? h p.2.owner
    rw [show d.model.plain.element? p.2.owner = some element from helement] at hkind
    rw [KeyedModel.contains]
    cases hnode : d.model.hasNode p.2.owner with
    | true => rfl
    | false =>
      cases hedge : d.model.hasEdge p.2.owner with
      | true => rfl
      | false => simp [hnode, hedge] at hkind
  plain := hplain

/-- Whatever calls a diagram goes through that began with every element under its own id: the
check of its index holds, keys are ids and distinct, every edge has its ends, the index knows all
elements and nothing else, and no rendered element outlives the one it was made for. -/
theorem stays_coherent (h : Start d) (calls : List Diagram.Call) : (d.after calls).Coherent := by
  obtain ⟨hown, hstart⟩ := h.own_and_plain
  obtain ⟨hown, hplain⟩ := plain_after hown calls
  exact coherent_of_plain hown (hplain ▸ Diagram.coherent_after hstart calls)

def bareNode (id : ElementId) : Node := ⟨id, "", .origin, none, .emptyObject⟩

/-- Two nodes under their own ids, and an edge between them. -/
def sampleModel : KeyedModel where
  id := "sample"
  nodes := ⟨[("a", bareNode "a"), ("b", bareNode "b")], by decide⟩
  edges := ⟨[("ab", ⟨"ab", "", "a", "b", [], .emptyObject⟩)], by decide⟩

/-- The calls render, move an end of the edge, ask for an element that is not there, and delete a node
and the edge. -/
theorem sample_stays_coherent :
    ∃ d, Start d ∧ d.model = sampleModel ∧
      (d.after [.render Diagram.plain.language, .relink "ab" "b" "b", .remove "c",
        .apply (.deleteElements ["a", "ab"]) Diagram.plain .start]).Coherent := by
  have hown : sampleModel.Own := ⟨by decide, by decide⟩
  obtain ⟨d, haccepted, hmodel⟩ : ∃ d, ofModel sampleModel = .ok d ∧ d.model = sampleModel := ⟨_, rfl, rfl⟩
  have hstart : Start d := .ofModel hown haccepted
  exact ⟨d, hstart, hmodel, stays_coherent hstart _⟩

/-- Two nodes under each other's ids. -/
def swappedModel : KeyedModel := ⟨"swapped", ⟨[("a", bareNode "b"), ("b", bareNode "a")], by decide⟩, .empty⟩

/-- A node under an id that no element has. -/
def strayModel : KeyedModel := ⟨"stray", ⟨[("a", bareNode "b")], by decide⟩, .empty⟩

/-- Models are accepted whose keys are not the ids of their elements. Where the keys are ids of other
elements the check of the index does not notice before a node is removed and the rest is rendered;
where they are not, it does at once. -/
theorem foreign_keys_accepted :
    ∃ d d', ofModel swappedModel = .ok d ∧ d.mismatch? = none ∧
      (∃ p ∈ d.model.nodes.entries, p.1 ≠ p.2.id) ∧
      (d.after [.remove "a", .render Diagram.plain.language]).mismatch? = some (.strayVisual "a" "a") ∧
      ofModel strayModel = .ok d' ∧ d'.mismatch? = some (.nodeNotIndexed "a") := by
  refine ⟨_, _, rfl, rfl, ?_, ?_, rfl, rfl⟩
  · exact ⟨("a", bareNode "b"), .head _, by decide⟩
  · rfl

end KeyedDiagram

end DiagramEditor
