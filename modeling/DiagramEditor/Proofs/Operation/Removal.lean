import DiagramEditor.Proofs.Diagram.Effects
import DiagramEditor.Proofs.Operation.Steps

/-!
# Deleting a list of elements

The elements go one by one, each with the edges that are still at it, and an element
that is gone with one before it is passed over. In the end the model is what it was
without the listed ids, the ids told are those it lost, each once, and the index is what
it was without these.
-/

set_option autoImplicit false

namespace DiagramEditor

/-- The ids that a model loses by deletion of a list. -/
structure Model.Loses (m : Model) (ids removed : List ElementId) : Prop where
  nodup : removed.Nodup
  lost : ∀ id, id ∈ removed ↔ id ∈ m.ids ∧ id ∉ (m.without ids).ids

namespace Model.Loses

variable {m : Model} {ids more removed also : List ElementId}

theorem nil (m : Model) : m.Loses [] [] where
  nodup := List.nodup_nil
  lost := by
    intro id
    rw [without_nil]
    simp

/-- What is lost first and what is lost then. -/
theorem append (h : m.Loses ids removed) (hmore : (m.without ids).Loses more also) :
    m.Loses (ids ++ more) (removed ++ also) where
  nodup := by
    refine List.nodup_append.mpr ⟨h.nodup, hmore.nodup, ?_⟩
    rintro id hr _ ha rfl
    exact ((h.lost id).mp hr).2 ((hmore.lost id).mp ha).1
  lost := by
    intro id
    rw [List.mem_append, h.lost, hmore.lost, without_append]
    constructor
    · rintro (⟨hm, hleft⟩ | ⟨hm, hleft⟩)
      · exact ⟨hm, fun hlast => hleft (ids_without_subset hlast)⟩
      · exact ⟨ids_without_subset hm, hleft⟩
    · rintro ⟨hm, hlast⟩
      by_cases hleft : id ∈ (m.without ids).ids
      · exact Or.inr ⟨hleft, hlast⟩
      · exact Or.inl ⟨hm, hleft⟩

end Model.Loses

namespace Operation

open Edit Diagram

variable {w : Workspace}

theorem on_removeOne_ok {d : Diagram} {id : ElementId} {removed : List ElementId}
    (h : w.diagram.remove id = .ok (d, removed)) :
    (removeOne id).on w = (.ok removed, { w with diagram := d }) := by
  rw [on_removeOne, h]

/-- A diagram without the listed ids is left, and the ids it lost are told. -/
structure Deletes (w : Workspace) (ids removed : List ElementId) (d : Diagram) : Prop where
  inStep : d.InStep
  model : d.model = w.diagram.model.without ids
  loses : w.diagram.model.Loses ids removed
  index : d.index = w.diagram.index.without removed

theorem on_removeEach (h : w.diagram.InStep) (ids : List ElementId) :
    ∃ d removed, (removeEach ids).on w = (.ok removed, { w with diagram := d }) ∧ Deletes w ids removed d := by
  -- each removal leaves the diagram in step, so what follows is looked up in what is left
  induction ids generalizing w with
  | nil => exact ⟨w.diagram, [], rfl, h, (Model.without_nil _).symm, .nil _, (Index.without_nil _).symm⟩
  | cons id rest ih =>
    rw [removeEach_cons, on_bind_ok (on_diagram w)]
    by_cases hid : id ∈ w.diagram.model.ids
    · obtain ⟨d, hd, hstep, hmodel⟩ := h.remove hid
      obtain ⟨d', more, hrest, hstep', hmodel', hloses, hindex⟩ := ih (w := { w with diagram := d }) hstep
      have hfirst : w.diagram.model.Loses [id] (id :: w.diagram.index.incident id) :=
        ⟨h.nodup_removed hid, fun other => h.mem_removed_iff hid⟩
      refine ⟨d', (id :: w.diagram.index.incident id) ++ more, ?_, hstep', ?_, ?_, ?_⟩
      · rw [if_pos (h.isSome_element?_iff.mpr hid), on_bind_ok (on_removeOne_ok hd), on_bind_ok hrest, on_pure]
      · rw [hmodel', hmodel, ← Model.without_append]
        rfl
      · rw [hmodel] at hloses
        exact hfirst.append hloses
      · rw [hindex, h.index_of_remove hd, Index.without_append]
    · obtain ⟨d', more, hrest, hstep', hmodel', hloses, hindex⟩ := ih h
      have hsame : w.diagram.model.without [id] = w.diagram.model :=
        h.closed.without_absent (by simpa using hid)
      refine ⟨d', more, ?_, hstep', ?_, ?_, hindex⟩
      · rw [if_neg (mt h.isSome_element?_iff.mp hid), on_bind_ok (on_pure _ _), on_bind_ok hrest, on_pure]
        rfl
      · rw [hmodel', ← List.singleton_append, Model.without_append, hsame]
      · have hskip : w.diagram.model.Loses [id] [] := by
          refine ⟨List.nodup_nil, fun other => ?_⟩
          rw [hsame]
          simp
        rw [← hsame] at hloses
        exact hskip.append hloses

theorem on_require_elements (h : w.diagram.InStep) {ids : List ElementId}
    (hids : ∀ id ∈ ids, id ∈ w.diagram.model.ids) :
    (require (fun id => (w.diagram.element? id).isSome) ids).on w = (.ok (), w) :=
  on_require_ok fun id hid => h.isSome_element?_iff.mpr (hids id hid)

/-- Elements that are there can always be deleted. -/
theorem on_runDelete (h : w.diagram.InStep) {ids : List ElementId}
    (hids : ∀ id ∈ ids, id ∈ w.diagram.model.ids) :
    ∃ d removed, (runDelete ids).on w = (.ok { Outcome.nothing with removed := removed }, { w with diagram := d }) ∧
      Deletes w ids removed d := by
  obtain ⟨d, removed, hremove, hd⟩ := on_removeEach h ids
  refine ⟨d, removed, ?_, hd⟩
  rw [runDelete, on_bind_ok (on_diagram w), on_bind_ok (on_require_elements h hids), on_bind_ok hremove, on_pure]

theorem whole_runDelete (h : w.diagram.InStep) (ids : List ElementId) : Whole (runDelete ids) w := by
  refine Whole.diagram (Whole.require fun _ => ?_)
  obtain ⟨d, removed, hremove, _⟩ := on_removeEach h ids
  exact Whole.of_ok ((on_bind_ok hremove).trans (on_pure _ _))

end Operation

end DiagramEditor
