import DiagramEditor.Proofs.Diagram.Changes
import DiagramEditor.Proofs.Operation.Edit

/-!
# Edits of a label

An edit of a label writes into the data of the element that owns it, at the path the
label has recorded. It changes nothing else, and is refused for a single reason.
-/

set_option autoImplicit false

namespace DiagramEditor

open Json

namespace Element

def withData (data : Value) : Element → Element
  | .node n => .node { n with data := data }
  | .edge e => .edge { e with data := data }

@[simp] theorem id_withData (data : Value) (e : Element) : (e.withData data).id = e.id := by
  cases e <;> rfl

@[simp] theorem data_withData (data : Value) (e : Element) : (e.withData data).data = data := by
  cases e <;> rfl

end Element

namespace Model

variable {m : Model} {e : Element}

/-- The nodes and then the edges. -/
def elements (m : Model) : List Element := m.nodes.map .node ++ m.edges.map .edge

theorem ids_elements (m : Model) : m.elements.map Element.id = m.ids := by
  rw [elements, List.map_append, List.map_map, List.map_map]
  rfl

theorem mem_of_element? {id : ElementId} (h : m.element? id = some e) : e ∈ m.elements ∧ e.id = id := by
  rw [element?] at h
  split at h
  · rename_i n hn
    obtain ⟨hmem, hid⟩ := id_of_node? hn
    exact Option.some.inj h ▸ ⟨List.mem_append_left _ (List.mem_map_of_mem hmem), hid⟩
  · obtain ⟨edge, he, rfl⟩ := Option.map_eq_some_iff.mp h
    obtain ⟨hmem, hid⟩ := id_of_edge? he
    exact ⟨List.mem_append_right _ (List.mem_map_of_mem hmem), hid⟩

theorem Closed.eq_of_element_id (h : m.Closed) {e' : Element} (he : e ∈ m.elements) (he' : e' ∈ m.elements)
    (hid : e.id = e'.id) : e = e' :=
  List.inj_on_of_nodup_map (m.ids_elements ▸ h.ids) he he' hid

end Model

/-- The data of one element is replaced, all else is as it was and where it was. -/
structure Model.Rewrites (m new : Model) (place : ElementId) (data : Value) : Prop where
  id : new.id = m.id
  elements : new.elements = m.elements.map fun e => if e.id = place then e.withData data else e

namespace Model.Rewrites

variable {m new : Model} {o e : Element} {data : Value}

theorem ids_eq {place : ElementId} (h : m.Rewrites new place data) : new.ids = m.ids := by
  rw [← ids_elements, ← ids_elements, h.elements, List.map_map]
  refine List.map_congr_left fun e _ => ?_
  rw [Function.comp]
  split
  · exact Element.id_withData data e
  · rfl

/-- The element of that id is the old one with the new data. -/
theorem eq_withData (h : m.Rewrites new o.id data) (hm : m.Closed) (ho : o ∈ m.elements) (he : e ∈ new.elements)
    (hid : e.id = o.id) : e = o.withData data := by
  rw [h.elements] at he
  obtain ⟨old, hold, rfl⟩ := List.mem_map.mp he
  by_cases hsame : old.id = o.id
  · rw [if_pos hsame, hm.eq_of_element_id hold ho hsame]
  · rw [if_neg hsame] at hid
    exact absurd hid hsame

end Model.Rewrites

namespace Diagram

variable {d : Diagram}

theorem id_of_element? {id : ElementId} {e : Element} (h : d.element? id = some e) : e.id = id := by
  rw [element?] at h
  split at h
  · obtain ⟨n, hn, rfl⟩ := Option.map_eq_some_iff.mp h
    exact (Model.id_of_node? hn).2
  · obtain ⟨e, he, rfl⟩ := Option.map_eq_some_iff.mp h
    exact (Model.id_of_edge? he).2
  · cases h

theorem InStep.setData_ok (h : d.InStep) {o : Element} (ho : d.element? o.id = some o) (data : Value) :
    ∃ d', d.setData o.id data = .ok d' ∧ d.model.Rewrites d'.model o.id data := by
  rw [Diagram.setData, ho]
  rw [h.element?_eq] at ho
  have hmem := (Model.mem_of_element? ho).1
  cases o with
  | node n =>
    refine ⟨_, rfl, rfl, ?_⟩
    simp only [Model.elements, Model.updateNode, List.map_append, List.map_map]
    congr 1
    · refine List.map_congr_left fun other _ => ?_
      simp only [Function.comp, Element.id, beq_iff_eq]
      by_cases hid : other.id = n.id
      · simp [hid, Element.withData]
      · simp [hid]
    · refine List.map_congr_left fun e he => ?_
      -- the id of a node is that of no edge
      have hne : e.id ≠ n.id := fun hid => by
        cases h.closed.eq_of_element_id (List.mem_append_right _ (List.mem_map_of_mem he)) hmem hid
      simp [Element.id, hne]
  | edge e =>
    refine ⟨_, rfl, rfl, ?_⟩
    simp only [Model.elements, Model.updateEdge, List.map_append, List.map_map]
    congr 1
    · refine List.map_congr_left fun n hn => ?_
      have hne : n.id ≠ e.id := fun hid => by
        cases h.closed.eq_of_element_id (List.mem_append_left _ (List.mem_map_of_mem hn)) hmem hid
      simp [Element.id, hne]
    · refine List.map_congr_left fun other _ => ?_
      simp only [Function.comp, Element.id, beq_iff_eq]
      by_cases hid : other.id = e.id
      · simp [hid, Element.withData]
      · simp [hid]

end Diagram

namespace Operation

open Edit

variable {label text : String} {o : Element} {p : Path}

/-- The target of a label is the element that owns it. -/
theorem owner_of_labelTarget? {d : Diagram} (h : labelTarget? d label = some (o, p)) :
    d.index.nearest? label = some o.id ∧ d.element? o.id = some o := by
  simp only [labelTarget?, Option.bind_eq_bind, Option.bind_eq_some_iff] at h
  obtain ⟨_, _, _, _, _, _, owner, howner, element, helement, heq⟩ := h
  obtain ⟨rfl, _⟩ := Prod.mk.inj (Option.some.inj heq)
  obtain rfl := Diagram.id_of_element? helement
  exact ⟨howner, helement⟩

/-- The target of a label is found in its entry: the owner, and the path recorded under
the first of the names that has a text. -/
theorem of_labelTarget? {d : Diagram} (h : labelTarget? d label = some (o, p)) :
    ∃ entry binding, d.index.visual? label = some entry ∧ bindingOf? entry = some binding ∧
      Path.parse binding = .ok p ∧ d.element? entry.owner = some o := by
  simp only [labelTarget?, Option.bind_eq_bind, Option.bind_eq_some_iff] at h
  obtain ⟨entry, hentry, binding, hbinding, path, hpath, owner, howner, element, helement, heq⟩ := h
  obtain ⟨rfl, rfl⟩ := Prod.mk.inj (Option.some.inj heq)
  refine ⟨entry, binding, hentry, hbinding, ?_, ?_⟩
  · cases hparse : Path.parse binding with
    | error e => simp [hparse, Except.toOption] at hpath
    | ok q =>
      simp only [hparse, Except.toOption, Option.some.injEq] at hpath
      rw [hpath]
  · simp only [Index.nearest?, hentry, Option.ite_none_right_eq_some, Option.some.injEq] at howner
    rw [howner.2]
    exact helement

/-- The text can be written at the target of the label. -/
def Editable (d : Diagram) (label text : String) : Prop :=
  ∃ o p, labelTarget? d label = some (o, p) ∧ (Path.assign p (.string text) o.data).fault = none

/-- The text is written at the target of the label, or the edit is refused for want of one. -/
theorem on_runEditLabel {w : Workspace} (h : w.diagram.InStep) (label text : String) :
    (¬ Editable w.diagram label text ∧ (runEditLabel label text).on w = (.error (.bindingNotFound label), w)) ∨
      ∃ o p d', labelTarget? w.diagram label = some (o, p) ∧
        (Path.assign p (.string text) o.data).fault = none ∧
        w.diagram.model.Rewrites d'.model o.id (Path.assign p (.string text) o.data).data ∧
        (runEditLabel label text).on w = (.ok .nothing, { w with diagram := d' }) := by
  rw [runEditLabel, on_bind_ok (on_diagram w)]
  cases htarget : labelTarget? w.diagram label with
  | none =>
    left
    refine ⟨?_, rfl⟩
    rintro ⟨o, p, hsome, _⟩
    rw [htarget] at hsome
    cases hsome
  | some target =>
    obtain ⟨o, p⟩ := target
    cases hfault : (Path.assign p (.string text) o.data).fault with
    | some fault =>
      left
      refine ⟨?_, by simp only [hfault, on_throw]⟩
      rintro ⟨o', p', hsome, hnone⟩
      obtain ⟨rfl, rfl⟩ := Prod.mk.inj (Option.some.inj (htarget.symm.trans hsome))
      rw [hfault] at hnone
      cases hnone
    | none =>
      right
      obtain ⟨entry, _, _, _, _, ho⟩ := of_labelTarget? htarget
      have hid : o.id = entry.owner := by
        rw [h.element?_eq] at ho
        exact (Model.mem_of_element? ho).2
      rw [← hid] at ho
      obtain ⟨d', hd, hrewrites⟩ := h.setData_ok ho (Path.assign p (.string text) o.data).data
      refine ⟨o, p, d', rfl, hfault, hrewrites, ?_⟩
      simp only [hfault]
      rw [on_bind_ok (on_change_ok hd), on_pure]

end Operation

end DiagramEditor
