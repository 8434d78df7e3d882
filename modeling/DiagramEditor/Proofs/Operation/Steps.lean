import DiagramEditor.Proofs.Diagram.Changes
import DiagramEditor.Proofs.Operation.Edit

/-!
# Operations keep model and index in step

Every operation is put together from the changes of a diagram, so it keeps what the
changes it is made of keep. Each of them keeps model and index in step: a diagram in
step is in step after any operation, whether it is carried out or refused half way.
-/

set_option autoImplicit false

namespace DiagramEditor

theorem Diagram.InStep.of_remove {d d' : Diagram} {id : ElementId} {removed : List ElementId} (h : d.InStep)
    (hd : d.remove id = .ok (d', removed)) : d'.InStep := by
  by_cases hid : id ∈ d.model.ids
  · obtain ⟨d'', hd'', hstep, _⟩ := h.remove hid
    rw [hd''] at hd
    obtain ⟨rfl, _⟩ := Prod.mk.inj (Except.ok.inj hd)
    exact hstep
  · rw [h.remove_absent hid] at hd
    cases hd

namespace Operation

open Edit Diagram

variable {P : Diagram → Prop}

theorem on_removeOne (id : ElementId) (w : Workspace) :
    (removeOne id).on w = match w.diagram.remove id with
      | .error e => (.error e, w)
      | .ok (d, removed) => (.ok removed, { w with diagram := d }) := by
  rw [removeOne, on_bind, on_get]
  show (match w.diagram.remove id with
    | .error e => (throw e : Edit (List ElementId))
    | .ok (d, removed) => do
      set { w with diagram := d }
      return removed).on w = _
  cases w.diagram.remove id with
  | error e => rfl
  | ok made => rfl

theorem keeps_removeOne (hP : ∀ id d d' removed, P d → d.remove id = .ok (d', removed) → P d') (id : ElementId) :
    Keeps P (removeOne id) := by
  intro w h
  rw [on_removeOne]
  cases hd : w.diagram.remove id with
  | error e => exact h
  | ok made => exact hP id _ _ _ h hd

theorem removeEach_cons (id : ElementId) (rest : List ElementId) :
    removeEach (id :: rest) = (do
      let d ← Edit.diagram
      let removed ← (if (d.element? id).isSome then removeOne id else pure [] : Edit (List ElementId))
      let more ← removeEach rest
      return removed ++ more) := by
  rw [removeEach]
  congr 1
  funext d
  by_cases h : (d.element? id).isSome = true
  · simp only [h, if_true]
  · simp only [h, Bool.false_eq_true, if_false]

theorem keeps_removeEach (hP : ∀ id d d' removed, P d → d.remove id = .ok (d', removed) → P d')
    (ids : List ElementId) : Keeps P (removeEach ids) := by
  induction ids with
  | nil => exact Keeps.pure _
  | cons id rest ih =>
    rw [removeEach_cons]
    refine Keeps.bind Keeps.diagram fun d => Keeps.bind ?_ fun removed => Keeps.bind ih fun more => Keeps.pure _
    split
    · exact keeps_removeOne hP id
    · exact Keeps.pure _

theorem keeps_each {α : Type} (found : Model → ElementId → Bool) (element : α → ElementId)
    {f : α → Diagram → Except EditError Diagram} (hf : ∀ a d d', P d → f a d = .ok d' → P d')
    (changes : List α) : Keeps P (runEach found element f changes) := by
  refine Keeps.bind Keeps.diagram fun d => Keeps.bind (Keeps.require _ _) fun _ => ?_
  exact Keeps.bind (Keeps.changeEach hf changes) fun _ => Keeps.pure _

theorem keeps_createNode (hP : ∀ n d d', P d → d.insertNode n = .ok d' → P d') (l : Language) (tag : TypeTag)
    (location : Option Point) : Keeps P (runCreateNode l tag location) := by
  refine Keeps.bind (Keeps.ofExcept _) fun type => Keeps.bind Keeps.freshId fun id => ?_
  refine Keeps.bind Keeps.diagram fun d => ?_
  exact Keeps.bind (Keeps.change (hP _)) fun _ => Keeps.pure _

theorem keeps_createEdge (hP : ∀ e d d', P d → d.insertEdge e = .ok d' → P d') (l : Language) (tag : TypeTag)
    (source target : ElementId) : Keeps P (runCreateEdge l tag source target) := by
  refine Keeps.bind (Keeps.ofExcept _) fun type => Keeps.bind Keeps.freshId fun id => ?_
  refine Keeps.bind Keeps.diagram fun d => ?_
  exact Keeps.bind (Keeps.change (hP _)) fun _ => Keeps.pure _

theorem keeps_delete (hP : ∀ id d d' removed, P d → d.remove id = .ok (d', removed) → P d')
    (ids : List ElementId) : Keeps P (runDelete ids) := by
  refine Keeps.bind Keeps.diagram fun d => Keeps.bind (Keeps.require _ _) fun _ => ?_
  exact Keeps.bind (keeps_removeEach hP ids) fun removed => Keeps.pure _

theorem keeps_editLabel (hP : ∀ id data d d', P d → d.setData id data = .ok d' → P d') (label text : String) :
    Keeps P (runEditLabel label text) := by
  refine Keeps.bind Keeps.diagram fun d => ?_
  cases labelTarget? d label with
  | none => exact Keeps.throw _
  | some found =>
    obtain ⟨element, path⟩ := found
    dsimp only
    cases (path.assign (.string text) element.data).fault with
    | some fault => exact Keeps.throw _
    | none => exact Keeps.bind (Keeps.change (hP _ _)) fun _ => Keeps.pure _

theorem keeps_changeData (hP : ∀ id data d d', P d → d.setData id data = .ok d' → P d') (c : EditContext)
    (id : ElementId) (data : Json.Value) (mode : ChangeMode) : Keeps P (runChangeData c id data mode) := by
  refine Keeps.bind Keeps.diagram fun d => ?_
  cases d.element? id with
  | none => exact Keeps.throw _
  | some element =>
    dsimp only
    cases dataIssues c element (combine mode element.data data) with
    | nil => exact Keeps.bind (Keeps.change (hP _ _)) fun _ => Keeps.pure _
    | cons issue issues => exact Keeps.throw _

theorem keeps_cut (hP : ∀ id d d' removed, P d → d.remove id = .ok (d', removed) → P d')
    (ids : List ElementId) : Keeps P (runCut ids) := by
  refine Keeps.bind Keeps.diagram fun d => Keeps.bind (Keeps.ofExcept _) fun f => ?_
  exact Keeps.bind (keeps_delete hP ids) fun outcome => Keeps.pure _

theorem on_instantiate (f : Fragment) (location : Option Point) (w : Workspace) :
    (instantiate f location).on w =
      (.ok (f.instantiate w.diagram.model.hasNode location w.ids).1,
        { w with ids := (f.instantiate w.diagram.model.hasNode location w.ids).2 }) := rfl

theorem keeps_instantiate (f : Fragment) (location : Option Point) : Keeps P (instantiate f location) := by
  intro w h
  rw [on_instantiate]
  exact h

theorem keeps_paste (hnode : ∀ n d d', P d → d.insertNode n = .ok d' → P d')
    (hedge : ∀ e d d', P d → d.insertEdge e = .ok d' → P d') (clipboard : Clipboard) (location : Option Point) :
    Keeps P (runPaste clipboard location) := by
  refine Keeps.bind (Keeps.ofExcept _) fun f => Keeps.bind (keeps_instantiate f location) fun fresh => ?_
  refine Keeps.bind (Keeps.changeEach hnode _) fun _ => ?_
  exact Keeps.bind (Keeps.changeEach hedge _) fun _ => Keeps.pure _

theorem keeps_refreshShowcase (hP : ∀ id data d d', P d → d.setData id data = .ok d' → P d') (l : Language) :
    Keeps P (runRefreshShowcase l) := by
  refine Keeps.bind Keeps.diagram fun d => ?_
  cases d.element? showcaseId with
  | none => exact Keeps.throw _
  | some element =>
    refine Keeps.bind (Keeps.ofExcept _) fun type => ?_
    exact Keeps.bind (Keeps.change (hP _ _)) fun _ => Keeps.pure _

/-- An operation leaves model and index in step, carried out or refused. -/
theorem keeps_run (c : EditContext) (op : Operation) : Keeps InStep (op.run c) := by
  have hnode : ∀ n d d', InStep d → d.insertNode n = .ok d' → InStep d' := fun _ _ _ h hd => h.of_insertNode hd
  have hedge : ∀ e d d', InStep d → d.insertEdge e = .ok d' → InStep d' := fun _ _ _ h hd => h.of_insertEdge hd
  have hremove : ∀ id d d' removed, InStep d → d.remove id = .ok (d', removed) → InStep d' :=
    fun _ _ _ _ h hd => h.of_remove hd
  have hdata : ∀ id data d d', InStep d → d.setData id data = .ok d' → InStep d' := fun _ _ _ _ h hd => h.setData hd
  cases op with
  | createNode tag location => exact keeps_createNode hnode _ _ _
  | createEdge tag source target => exact keeps_createEdge hedge _ _ _ _
  | deleteElements ids => exact keeps_delete hremove ids
  | changeBounds bounds => exact keeps_each _ _ (fun _ _ _ h hd => h.setBounds hd) bounds
  | changeRouting routings => exact keeps_each _ _ (fun _ _ _ h hd => h.setRouting hd) routings
  | reconnectEdge edge source target =>
    exact Keeps.bind (Keeps.attempt fun _ h => (h.relink edge source target).1) fun _ => Keeps.pure _
  | editLabel label text => exact keeps_editLabel hdata label text
  | changeData element data mode => exact keeps_changeData hdata c element data mode
  | cut ids => exact keeps_cut hremove ids
  | paste clipboard location => exact keeps_paste hnode hedge clipboard location
  | refreshShowcase => exact keeps_refreshShowcase hdata _

end Operation

end DiagramEditor
