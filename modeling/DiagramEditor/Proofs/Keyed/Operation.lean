import DiagramEditor.Keyed.Operation
import DiagramEditor.Proofs.Keyed.Changes
import DiagramEditor.Proofs.Operation.EditLabel
import DiagramEditor.Proofs.Operation.Steps

/-!
# Operations under keys

An edit over maps mirrors an edit of plain diagrams when, started where every element stands
under its own id, it answers the same, leaves the same but for the keys, and leaves every
element under its own id. Mirroring goes from the steps to what is put together from them,
and so to every operation.
-/

set_option autoImplicit false

namespace DiagramEditor

open Json

def KeyedWorkspace.plain (w : KeyedWorkspace) : Workspace := ⟨w.diagram.plain, w.ids⟩

namespace KeyedEdit

variable {α β : Type} {e : KeyedEdit α} {p : Edit α} {k : α → KeyedEdit β} {q : α → Edit β} {w w' : KeyedWorkspace}

/-- What an edit answers, and the workspace it leaves. -/
def on (e : KeyedEdit α) (w : KeyedWorkspace) : Except EditError α × KeyedWorkspace := e.run.run w

@[simp] theorem on_get (w : KeyedWorkspace) : (get : KeyedEdit KeyedWorkspace).on w = (.ok w, w) := rfl

@[simp] theorem on_set (v w : KeyedWorkspace) : (set v : KeyedEdit PUnit).on w = (.ok ⟨⟩, v) := rfl

@[simp] theorem on_ofExcept (r : Except EditError α) (w : KeyedWorkspace) :
    (ofExcept r : KeyedEdit α).on w = (r, w) := by
  cases r <;> rfl

theorem on_bind_ok {a : α} (h : e.on w = (.ok a, w')) : (e >>= k).on w = (k a).on w' := by
  have hrun : e.run.run w = (.ok a, w') := h
  simp only [on, ExceptT.run_bind, StateT.run_bind, hrun]
  rfl

theorem on_bind_error {x : EditError} (h : e.on w = (.error x, w')) : (e >>= k).on w = (.error x, w') := by
  have hrun : e.run.run w = (.error x, w') := h
  simp only [on, ExceptT.run_bind, StateT.run_bind, hrun]
  rfl

theorem on_change (f : KeyedDiagram → Except EditError KeyedDiagram) (w : KeyedWorkspace) :
    (change f).on w = match f w.diagram with
      | .error x => (.error x, w)
      | .ok d => (.ok (), { w with diagram := d }) := by
  rw [change, on_bind_ok (on_get w)]
  show (match f w.diagram with
    | .error e => (throw e : KeyedEdit Unit)
    | .ok d => set { w with diagram := d }).on w = _
  cases f w.diagram <;> rfl

theorem on_attempt (f : KeyedDiagram → Except EditError Unit × KeyedDiagram) (w : KeyedWorkspace) :
    (attempt f).on w = ((f w.diagram).1, { w with diagram := (f w.diagram).2 }) := by
  rw [attempt, on_bind_ok (on_get w), on_bind_ok (on_set _ w), on_ofExcept]

theorem on_removeOne (id : ElementId) (w : KeyedWorkspace) :
    (removeOne id).on w = match w.diagram.remove id with
      | .error x => (.error x, w)
      | .ok (d, removed) => (.ok removed, { w with diagram := d }) := by
  rw [removeOne, on_bind_ok (on_get w)]
  show (match w.diagram.remove id with
    | .error e => (throw e : KeyedEdit (List ElementId))
    | .ok (d, removed) => do
      set { w with diagram := d }
      return removed).on w = _
  cases w.diagram.remove id with
  | error x => rfl
  | ok made => rfl

theorem removeEach_cons (id : ElementId) (rest : List ElementId) :
    removeEach (id :: rest) = (do
      let d ← diagram
      let removed ← (if (d.element? id).isSome then removeOne id else pure [] : KeyedEdit (List ElementId))
      let more ← removeEach rest
      return removed ++ more) := by
  rw [removeEach]
  congr 1
  funext d
  by_cases h : (d.element? id).isSome = true
  · simp only [h, if_true]
  · simp only [h, Bool.false_eq_true, if_false]

/-- The place a label was rendered from is the same, and its element is found under its own id. -/
theorem labelTarget?_plain {d : KeyedDiagram} (h : d.model.Own) (label : String) :
    Operation.labelTarget? d.plain label = (labelTarget? d label).map Prod.snd ∧
      ∀ {owner element path}, labelTarget? d label = some (owner, element, path) → element.id = owner := by
  unfold labelTarget? Operation.labelTarget?
  rw [show d.plain.index = d.index from rfl]
  simp only [KeyedDiagram.element?_plain h, bind]
  constructor
  · simp only [Option.map_bind, Function.comp_def]
    rfl
  · intro owner element path hfound
    simp only [Option.bind_eq_some_iff] at hfound
    obtain ⟨entry, -, binding, -, path, -, owner, -, element, helement, hmade⟩ := hfound
    cases hmade
    exact Diagram.id_of_element? ((KeyedDiagram.element?_plain h _).trans helement)

/-- Started where every element stands under its own id, both edits answer the same and leave the
same but for the keys, which are the ids of the elements again. -/
def Mirrors (e : KeyedEdit α) (p : Edit α) : Prop :=
  ∀ w, w.diagram.model.Own →
    ∃ r w', e.on w = (r, w') ∧ p.on w.plain = (r, w'.plain) ∧ w'.diagram.model.Own

namespace Mirrors

/-! ### Steps -/

theorem pure (a : α) : Mirrors (Pure.pure a) (Pure.pure a) := fun w hw => ⟨.ok a, w, rfl, rfl, hw⟩

theorem throw (x : EditError) : Mirrors (throw x : KeyedEdit α) (throw x) := fun w hw => ⟨.error x, w, rfl, rfl, hw⟩

theorem ofExcept (r : Except EditError α) : Mirrors (MonadExcept.ofExcept r) (MonadExcept.ofExcept r) := by
  cases r with
  | error x => exact throw x
  | ok a => exact pure a

theorem freshId : Mirrors KeyedEdit.freshId Edit.freshId :=
  fun w hw => ⟨_, { w with ids := w.ids.takeId.2 }, rfl, rfl, hw⟩

theorem require (found : ElementId → Bool) (ids : List ElementId) :
    Mirrors (KeyedEdit.require found ids) (Edit.require found ids) := by
  rw [KeyedEdit.require, Edit.require]
  cases ids.find? (!found ·) with
  | none => exact pure _
  | some id => exact throw _

theorem bind (h : Mirrors e p) (hk : ∀ a, Mirrors (k a) (q a)) : Mirrors (e >>= k) (p >>= q) := by
  intro w hw
  obtain ⟨r, w', he, hp, hw'⟩ := h w hw
  cases r with
  | error x => exact ⟨.error x, w', on_bind_error he, Edit.on_bind_error hp, hw'⟩
  | ok a =>
    obtain ⟨r, w'', hk, hq, hw''⟩ := hk a w' hw'
    exact ⟨r, w'', (on_bind_ok he).trans hk, (Edit.on_bind_ok hp).trans hq, hw''⟩

/-- What is read is the same diagram but for the keys. -/
theorem diagram {k : KeyedDiagram → KeyedEdit β} {q : Diagram → Edit β}
    (h : ∀ d : KeyedDiagram, d.model.Own → Mirrors (k d) (q d.plain)) :
    Mirrors (KeyedEdit.diagram >>= k) (Edit.diagram >>= q) := by
  intro w hw
  obtain ⟨r, w', hk, hq, hw'⟩ := h w.diagram hw w hw
  exact ⟨r, w', hk, hq, hw'⟩

theorem change {f : KeyedDiagram → Except EditError KeyedDiagram} {g : Diagram → Except EditError Diagram}
    (h : ∀ d : KeyedDiagram, d.model.Own → KeyedDiagram.Mirrors (f d) (g d.plain)) :
    Mirrors (KeyedEdit.change f) (Edit.change g) := by
  intro w hw
  have hmade : KeyedDiagram.Mirrors (f w.diagram) (g w.plain.diagram) := h w.diagram hw
  rw [on_change, Edit.on_change]
  generalize f w.diagram = made, g w.plain.diagram = plain at hmade
  cases hmade with
  | refused x => exact ⟨.error x, w, rfl, rfl, hw⟩
  | made own hplain => exact ⟨.ok (), { w with diagram := _ }, rfl, hplain ▸ rfl, own⟩

theorem changeEach {f : α → KeyedDiagram → Except EditError KeyedDiagram} {g : α → Diagram → Except EditError Diagram}
    (h : ∀ a (d : KeyedDiagram), d.model.Own → KeyedDiagram.Mirrors (f a d) (g a d.plain)) (as : List α) :
    Mirrors (KeyedEdit.changeEach f as) (Edit.changeEach g as) := by
  induction as with
  | nil => exact pure _
  | cons a rest ih => exact bind (change (h a)) fun _ => ih

theorem attempt {f : KeyedDiagram → Except EditError Unit × KeyedDiagram}
    {g : Diagram → Except EditError Unit × Diagram}
    (h : ∀ d : KeyedDiagram, d.model.Own →
      (f d).1 = (g d.plain).1 ∧ (f d).2.plain = (g d.plain).2 ∧ (f d).2.model.Own) :
    Mirrors (KeyedEdit.attempt f) (Edit.attempt g) := by
  intro w hw
  obtain ⟨hanswer, hplain, hown⟩ := h w.diagram hw
  refine ⟨_, _, on_attempt f w, ?_, hown⟩
  rw [Edit.on_attempt, hanswer]
  exact congrArg (fun d => ((g w.diagram.plain).1, (⟨d, w.ids⟩ : Workspace))) hplain.symm

theorem removeOne (id : ElementId) : Mirrors (KeyedEdit.removeOne id) (Operation.removeOne id) := by
  intro w hw
  rw [on_removeOne, Operation.on_removeOne]
  rcases KeyedDiagram.mirrors_remove hw id with ⟨x, hx, hplain⟩ | ⟨d, removed, hd, hplain, hown⟩
  · rw [hx, show w.plain.diagram.remove id = .error x from hplain]
    exact ⟨.error x, w, rfl, rfl, hw⟩
  · rw [hd, show w.plain.diagram.remove id = .ok (d.plain, removed) from hplain]
    exact ⟨.ok removed, { w with diagram := d }, rfl, rfl, hown⟩

theorem removeEach (ids : List ElementId) : Mirrors (KeyedEdit.removeEach ids) (Operation.removeEach ids) := by
  induction ids with
  | nil => exact pure _
  | cons id rest ih =>
    rw [removeEach_cons, Operation.removeEach_cons]
    refine diagram fun d hd => bind ?_ fun removed => bind ih fun more => pure _
    rw [KeyedDiagram.element?_plain hd]
    split
    · exact removeOne id
    · exact pure _

theorem instantiate (f : Fragment) (location : Option Point) :
    Mirrors (KeyedEdit.instantiate f location) (Operation.instantiate f location) := by
  intro w hw
  have hnodes : w.plain.diagram.model.hasNode = w.diagram.model.hasNode := hw.hasNode
  rw [Operation.on_instantiate, hnodes]
  exact ⟨_, { w with ids := (f.instantiate w.diagram.model.hasNode location w.ids).2 }, rfl, rfl, hw⟩

/-! ### Operations -/

theorem createNode (l : Language) (tag : TypeTag) (location : Option Point) :
    Mirrors (KeyedEdit.createNode l tag location) (Operation.runCreateNode l tag location) := by
  refine bind (ofExcept _) fun type => bind freshId fun id => diagram fun d hd => ?_
  exact bind (change fun d hd => KeyedDiagram.mirrors_insertNode hd _) fun _ => pure _

theorem createEdge (l : Language) (tag : TypeTag) (source target : ElementId) :
    Mirrors (KeyedEdit.createEdge l tag source target) (Operation.runCreateEdge l tag source target) := by
  refine bind (ofExcept _) fun type => bind freshId fun id => diagram fun d hd => ?_
  exact bind (change fun d hd => KeyedDiagram.mirrors_insertEdge hd _) fun _ => pure _

theorem delete (ids : List ElementId) : Mirrors (KeyedEdit.delete ids) (Operation.runDelete ids) := by
  refine diagram fun d hd => bind ?_ fun _ => bind (removeEach ids) fun removed => pure _
  simp only [KeyedDiagram.element?_plain hd]
  exact require _ _

theorem each {found : KeyedModel → ElementId → Bool} {plainFound : Model → ElementId → Bool}
    (hfound : ∀ m : KeyedModel, m.Own → plainFound m.plain = found m) (element : α → ElementId)
    {f : α → KeyedDiagram → Except EditError KeyedDiagram} {g : α → Diagram → Except EditError Diagram}
    (h : ∀ a (d : KeyedDiagram), d.model.Own → KeyedDiagram.Mirrors (f a d) (g a d.plain)) (changes : List α) :
    Mirrors (KeyedEdit.each found element f changes) (Operation.runEach plainFound element g changes) := by
  refine diagram fun d hd => bind ?_ fun _ => bind (changeEach h changes) fun _ => pure _
  rw [← hfound d.model hd]
  exact require _ _

theorem changeBounds (bounds : List Bounds) :
    Mirrors (KeyedEdit.changeBounds bounds) (Operation.runChangeBounds bounds) :=
  each (fun _ hm => hm.hasNode) _ (fun b _ hd => KeyedDiagram.mirrors_setBounds hd b.element b.position b.size) bounds

theorem changeRouting (routings : List Routing) :
    Mirrors (KeyedEdit.changeRouting routings) (Operation.runChangeRouting routings) :=
  each (fun _ hm => hm.hasEdge) _ (fun r _ hd => KeyedDiagram.mirrors_setRouting hd r.element r.points) routings

theorem editLabel (label text : String) :
    Mirrors (KeyedEdit.editLabel label text) (Operation.runEditLabel label text) := by
  refine diagram fun d hd => ?_
  obtain ⟨htarget, howner⟩ := labelTarget?_plain hd label
  rw [htarget]
  cases hfound : labelTarget? d label with
  | none => exact throw _
  | some found =>
    obtain ⟨owner, element, path⟩ := found
    obtain rfl : element.id = owner := howner hfound
    dsimp only [Option.map_some]
    cases (path.assign (.string text) element.data).fault with
    | some fault => exact throw _
    | none => exact bind (change fun d hd => KeyedDiagram.mirrors_setData hd element.id _) fun _ => pure _

theorem changeData (c : EditContext) (id : ElementId) (data : Value) (mode : ChangeMode) :
    Mirrors (KeyedEdit.changeData c id data mode) (Operation.runChangeData c id data mode) := by
  refine diagram fun d hd => ?_
  rw [KeyedDiagram.element?_plain hd]
  cases d.element? id with
  | none => exact throw _
  | some element =>
    dsimp only
    cases Operation.dataIssues c element (Operation.combine mode element.data data) with
    | nil => exact bind (change fun d hd => KeyedDiagram.mirrors_setData hd id _) fun _ => pure _
    | cons issue issues => exact throw _

theorem cut (ids : List ElementId) : Mirrors (KeyedEdit.cut ids) (Operation.runCut ids) :=
  diagram fun _ _ => bind (ofExcept _) fun _ => bind (delete ids) fun _ => pure _

theorem paste (clipboard : Clipboard) (location : Option Point) :
    Mirrors (KeyedEdit.paste clipboard location) (Operation.runPaste clipboard location) := by
  refine bind (ofExcept _) fun f => bind (instantiate f location) fun fresh => ?_
  refine bind (changeEach (fun n d hd => KeyedDiagram.mirrors_insertNode hd n) fresh.nodes) fun _ => ?_
  exact bind (changeEach (fun e d hd => KeyedDiagram.mirrors_insertEdge hd e) fresh.edges) fun _ => pure _

theorem refreshShowcase (l : Language) :
    Mirrors (KeyedEdit.refreshShowcase l) (Operation.runRefreshShowcase l) := by
  refine diagram fun d hd => ?_
  rw [KeyedDiagram.element?_plain hd]
  cases d.element? Operation.showcaseId with
  | none => exact throw _
  | some element =>
    refine bind (ofExcept _) fun type => ?_
    exact bind (change fun d hd => KeyedDiagram.mirrors_setData hd _ _) fun _ => pure _

end Mirrors
end KeyedEdit

/-- Every operation mirrors itself without keys. -/
theorem Operation.mirrors_runKeyed (c : EditContext) (op : Operation) :
    KeyedEdit.Mirrors (op.runKeyed c) (op.run c) := by
  cases op with
  | createNode tag location => exact .createNode _ _ _
  | createEdge tag source target => exact .createEdge _ _ _ _
  | deleteElements ids => exact .delete ids
  | changeBounds bounds => exact .changeBounds bounds
  | changeRouting routings => exact .changeRouting routings
  | reconnectEdge edge source target =>
    have hrelink := KeyedEdit.Mirrors.attempt fun d hd => KeyedDiagram.mirrors_relink (d := d) hd edge source target
    exact hrelink.bind fun _ => .pure _
  | editLabel label text => exact .editLabel label text
  | changeData element data mode => exact .changeData c element data mode
  | cut ids => exact .cut ids
  | paste clipboard location => exact .paste clipboard location
  | refreshShowcase => exact .refreshShowcase _

end DiagramEditor
