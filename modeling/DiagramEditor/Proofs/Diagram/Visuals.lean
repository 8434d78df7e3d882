import DiagramEditor.Diagram
import Mathlib.Data.List.Nodup

/-!
# Owners of rendered elements

A rendering has one root for each element of the model, under the id of that element
and in model order. What is indexed of it is therefore owned by elements of the model.
-/

set_option autoImplicit false

namespace DiagramEditor

namespace Language

variable {l : Language}

theorem renderElement_ids {e : Element} {r : Rendered} (h : l.renderElement e = .ok r) :
    r.elements.map VisualElement.id = [e.id] := by
  rw [renderElement] at h
  cases ht : (l.templateFor e).1.render e.id e.data with
  | error fault => simp [ht] at h
  | ok made =>
    obtain ⟨v, diagnostics⟩ := made
    have hv : v.id = e.id := by
      rw [RootTemplate.render] at ht
      cases hc : Template.expandChildren e.id e.id (Scope.ofData e.data) 0 (l.templateFor e).1.children with
      | error fault => simp [hc] at ht
      | ok inner =>
        simp only [hc, Except.ok.injEq, Prod.mk.injEq] at ht
        rw [← ht.1]
        rfl
    simp only [ht, Except.ok.injEq] at h
    rw [← h]
    simpa [VisualElement.withProperties] using hv

theorem renderAll_ids {es : List Element} {r : Rendered} (h : l.renderAll es = .ok r) :
    r.elements.map VisualElement.id = es.map Element.id := by
  induction es generalizing r with
  | nil =>
    obtain rfl : Rendered.nothing = r := Except.ok.inj h
    rfl
  | cons e rest ih =>
    rw [renderAll] at h
    cases he : l.renderElement e with
    | error fault => simp [he, Rendered.andThen] at h
    | ok first =>
      cases hr : l.renderAll rest with
      | error fault => simp [he, hr, Rendered.andThen] at h
      | ok more =>
        simp only [he, hr, Rendered.andThen, Except.ok.injEq] at h
        rw [← h, Rendered.append, List.map_append, renderElement_ids he, ih hr]
        rfl

/-- The roots of a rendered graph are the elements of the model, in order. -/
theorem render_roots {m : Model} {r : Rendering} (h : l.render m = .ok r) :
    r.graph.children.map VisualElement.id = m.nodes.map Node.id ++ m.edges.map Edge.id := by
  rw [render] at h
  cases ha : l.renderAll (m.nodes.map .node ++ m.edges.map .edge) with
  | error fault => simp [ha] at h
  | ok all =>
    simp only [ha, Except.ok.injEq] at h
    rw [← h]
    refine (renderAll_ids ha).trans ?_
    rw [List.map_append, List.map_map, List.map_map]
    rfl

end Language

namespace Index

/-- The entry of an element found on a walk. -/
def entryOf (owner : ElementId) (found : VisualElement × Option String) : VisualEntry :=
  ⟨found.1.kind, found.2, owner, found.1.args⟩

theorem of_mem_foldl_recordVisual {owner : ElementId} {found : List (VisualElement × Option String)}
    {visuals : Table String VisualEntry} {p : String × VisualEntry}
    (h : p ∈ found.foldl (recordVisual owner) visuals) :
    (∃ f ∈ found, p = (f.1.id, entryOf owner f)) ∨ p ∈ visuals := by
  induction found generalizing visuals with
  | nil => exact Or.inr h
  | cons f rest ih =>
    rcases ih h with ⟨g, hg, rfl⟩ | h
    · exact Or.inl ⟨g, List.mem_cons_of_mem _ hg, rfl⟩
    · exact (Table.mem_of_mem_put h).imp_left fun h => ⟨f, List.mem_cons_self, h⟩

theorem of_mem_foldl_recordRoot {roots : List VisualElement} {visuals : Table String VisualEntry}
    {p : String × VisualEntry} (h : p ∈ roots.foldl recordRoot visuals) :
    (∃ root ∈ roots, ∃ f ∈ root.walk none, p = (f.1.id, entryOf root.id f)) ∨ p ∈ visuals := by
  induction roots generalizing visuals with
  | nil => exact Or.inr h
  | cons root rest ih =>
    rcases ih h with ⟨other, hother, hp⟩ | h
    · exact Or.inl ⟨other, List.mem_cons_of_mem _ hother, hp⟩
    · exact (of_mem_foldl_recordVisual h).imp_left fun hp => ⟨root, List.mem_cons_self, hp⟩

/-- Whatever is indexed of a graph is the entry of an element of it, under the id of
that element and owned by its root. -/
theorem of_mem_indexVisuals {g : VisualGraph} {x : Index} {p : String × VisualEntry}
    (h : p ∈ (x.indexVisuals g).visuals) :
    ∃ root ∈ g.children, ∃ f ∈ root.walk none, p = (f.1.id, entryOf root.id f) :=
  (of_mem_foldl_recordRoot h).resolve_right List.not_mem_nil

theorem owner_of_indexVisuals {g : VisualGraph} {x : Index} {p : String × VisualEntry}
    (h : p ∈ (x.indexVisuals g).visuals) : p.2.owner ∈ g.children.map VisualElement.id := by
  obtain ⟨root, hroot, f, _, rfl⟩ := of_mem_indexVisuals h
  exact List.mem_map_of_mem hroot

end Index

end DiagramEditor
