import DiagramEditor.Proofs.Operation.Insertion
import DiagramEditor.Proofs.Operation.Planning
import DiagramEditor.Proofs.Operation.Removal
import DiagramEditor.Proofs.Runs

/-!
# Refused operations

An operation looks for everything that can go wrong before it touches the diagram.
After that no step of it fails, however many it takes: an edit has been decided as a
whole, and what is pasted gets in nothing's way.
-/

set_option autoImplicit false

namespace DiagramEditor

namespace Operation

open Edit Diagram

variable {w : Workspace}

theorem whole_createNode (l : Language) (tag : TypeTag) (location : Option Point) :
    Whole (runCreateNode l tag location) w := by
  refine Whole.ofExcept fun type _ => Whole.freshId (Whole.diagram ?_)
  exact Whole.bind_pure (Whole.change _ _) _

theorem whole_createEdge (l : Language) (tag : TypeTag) (source target : ElementId) :
    Whole (runCreateEdge l tag source target) w := by
  refine Whole.ofExcept fun type _ => Whole.freshId (Whole.diagram ?_)
  exact Whole.bind_pure (Whole.change _ _) _

/-- An edit that is refused has written nothing. -/
theorem whole_of_isEdit {op : Operation} (hop : op.isEdit = true) (c : EditContext) : Whole (op.run c) w := by
  intro x hx
  have hrun : (op.run c).on w = carryOut w (op.plan c w.diagram) := apply_eq_carryOut hop c w
  rw [hrun] at hx ⊢
  cases hplan : op.plan c w.diagram with
  | error e => rfl
  | ok ps =>
    rw [hplan] at hx
    cases hx

theorem whole_reconnect (h : w.diagram.InStep) (edge source target : ElementId) :
    Whole (attempt (relink edge source target) >>= fun _ => pure Outcome.nothing) w := by
  refine Whole.bind_pure ?_ _
  intro x hx
  rw [on_attempt] at hx ⊢
  exact (h.relink edge source target).2 x hx

theorem whole_cut (h : w.diagram.InStep) (ids : List ElementId) : Whole (runCut ids) w := by
  refine Whole.diagram (Whole.ofExcept fun f _ => ?_)
  exact Whole.bind_pure (whole_runDelete h ids) _

theorem whole_paste (h : w.diagram.InStep) (hs : w.ids.Fresh w.diagram.model.ids) (clipboard : Clipboard)
    (location : Option Point) : Whole (runPaste clipboard location) w := by
  cases hf : Fragment.ofClipboard clipboard with
  | error e =>
    intro x _
    rw [runPaste, hf, on_bind_error (on_ofExcept _ _)]
  | ok f =>
    obtain ⟨d, hd, _⟩ := on_runPaste h hs hf location
    exact Whole.of_ok hd

theorem whole_refreshShowcase (l : Language) : Whole (runRefreshShowcase l) w := by
  refine Whole.diagram ?_
  cases w.diagram.element? showcaseId with
  | none => exact Whole.throw _ _
  | some element => exact Whole.ofExcept fun type _ => Whole.bind_pure (Whole.change _ _) _

theorem whole_run (h : w.diagram.InStep) (hs : w.ids.Fresh w.diagram.model.ids) (c : EditContext) (op : Operation) :
    Whole (op.run c) w := by
  cases op with
  | createNode tag location => exact whole_createNode _ _ _
  | createEdge tag source target => exact whole_createEdge _ _ _ _
  | deleteElements ids => exact whole_runDelete h ids
  | changeBounds bounds => exact whole_of_isEdit rfl c
  | changeRouting routings => exact whole_of_isEdit rfl c
  | reconnectEdge edge source target => exact whole_reconnect h edge source target
  | editLabel label text => exact whole_of_isEdit rfl c
  | changeData element data mode => exact whole_of_isEdit rfl c
  | cut ids => exact whole_cut h ids
  | paste clipboard location => exact whole_paste h hs clipboard location
  | refreshShowcase => exact whole_refreshShowcase _

/-- A refused operation leaves model and index exactly as they were. -/
theorem diagram_of_refused {d : Diagram} (h : d.Reachable) {ids : IdSupply} (hs : ids.Fresh d.model.ids)
    (c : EditContext) (op : Operation) {fault : EditError} (hf : (op.apply c ⟨d, ids⟩).1 = .error fault) :
    (op.apply c ⟨d, ids⟩).2.diagram = d :=
  whole_run (w := ⟨d, ids⟩) (InStep.of_reachable h) hs c op fault hf

/-- The first of two elements to delete is there, the second is not. -/
theorem sample_of_refused_delete :
    sample.Reachable ∧ IdSupply.start.Fresh sample.model.ids ∧
      ((deleteElements ["a", "c"]).apply plain ⟨sample, .start⟩).1 = .error (.notFound "c") ∧
      ((deleteElements ["a", "c"]).apply plain ⟨sample, .start⟩).2.diagram = sample := by
  have h : sample.Reachable := ⟨sample, [], start_sample, rfl⟩
  have hs : IdSupply.start.Fresh sample.model.ids := IdSupply.fresh_start (by decide)
  have hf : ((deleteElements ["a", "c"]).apply plain ⟨sample, .start⟩).1 = .error (.notFound "c") := rfl
  exact ⟨h, hs, hf, diagram_of_refused h hs plain _ hf⟩

end Operation

end DiagramEditor
