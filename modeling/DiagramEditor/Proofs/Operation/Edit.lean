import DiagramEditor.Operation.Apply

/-!
# Edits step by step

`on` runs an edit on a workspace. An edit keeps a property of diagrams when the
diagram it leaves has it, refused or not; it is whole on a workspace when a refusal
leaves the diagram alone; it is still when it never touches the diagram.
-/

set_option autoImplicit false

namespace DiagramEditor

namespace Edit

variable {α β : Type} {w w' : Workspace} {P : Diagram → Prop}

/-- What an edit answers, and the workspace it leaves. -/
def on (e : Edit α) (w : Workspace) : Except EditError α × Workspace := e.run.run w

@[simp] theorem on_pure (a : α) (w : Workspace) : (pure a : Edit α).on w = (.ok a, w) := rfl

@[simp] theorem on_throw (x : EditError) (w : Workspace) : (throw x : Edit α).on w = (.error x, w) := rfl

@[simp] theorem on_get (w : Workspace) : (get : Edit Workspace).on w = (.ok w, w) := rfl

@[simp] theorem on_set (v w : Workspace) : (set v : Edit PUnit).on w = (.ok ⟨⟩, v) := rfl

@[simp] theorem on_diagram (w : Workspace) : diagram.on w = (.ok w.diagram, w) := rfl

@[simp] theorem on_freshId (w : Workspace) :
    freshId.on w = (.ok w.ids.takeId.1, { w with ids := w.ids.takeId.2 }) := rfl

@[simp] theorem on_ofExcept (r : Except EditError α) (w : Workspace) : (ofExcept r : Edit α).on w = (r, w) := by
  cases r <;> rfl

theorem on_bind (e : Edit α) (f : α → Edit β) (w : Workspace) :
    (e >>= f).on w = match e.on w with
      | (.error x, w') => (.error x, w')
      | (.ok a, w') => (f a).on w' := by
  cases h : e.on w with
  | mk r w' =>
    have hrun : e.run.run w = (r, w') := h
    simp only [on, ExceptT.run_bind, StateT.run_bind, hrun]
    cases r <;> rfl

theorem on_bind_ok {e : Edit α} {f : α → Edit β} {a : α} (h : e.on w = (.ok a, w')) :
    (e >>= f).on w = (f a).on w' := by
  rw [on_bind, h]

theorem on_bind_error {e : Edit α} {f : α → Edit β} {x : EditError} (h : e.on w = (.error x, w')) :
    (e >>= f).on w = (.error x, w') := by
  rw [on_bind, h]

theorem on_change (f : Diagram → Except EditError Diagram) (w : Workspace) :
    (change f).on w = match f w.diagram with
      | .error x => (.error x, w)
      | .ok d => (.ok (), { w with diagram := d }) := by
  rw [change, on_bind, on_get]
  show (match f w.diagram with
    | .error e => (throw e : Edit Unit)
    | .ok d => set { w with diagram := d }).on w = _
  cases f w.diagram <;> rfl

theorem on_change_ok {f : Diagram → Except EditError Diagram} {d : Diagram} (h : f w.diagram = .ok d) :
    (change f).on w = (.ok (), { w with diagram := d }) := by
  rw [on_change, h]

theorem on_attempt (f : Diagram → Except EditError Unit × Diagram) (w : Workspace) :
    (attempt f).on w = ((f w.diagram).1, { w with diagram := (f w.diagram).2 }) := by
  rw [attempt, on_bind, on_get]
  simp only [on_bind, on_set, on_ofExcept]

theorem on_require (found : ElementId → Bool) (ids : List ElementId) (w : Workspace) :
    (require found ids).on w = (match ids.find? (!found ·) with
      | some id => .error (.notFound id)
      | none => .ok (), w) := by
  rw [require]
  cases ids.find? (!found ·) <;> rfl

theorem on_require_ok {found : ElementId → Bool} {ids : List ElementId} (h : ∀ id ∈ ids, found id = true) :
    (require found ids).on w = (.ok (), w) := by
  have hf : ids.find? (!found ·) = none := by
    rw [List.find?_eq_none]
    intro id hid
    simp [h id hid]
  rw [on_require, hf]

theorem of_on_require {found : ElementId → Bool} {ids : List ElementId}
    (h : (require found ids).on w = (.ok (), w')) : ∀ id ∈ ids, found id = true := by
  rw [on_require] at h
  cases hf : ids.find? (!found ·) with
  | some id => simp [hf] at h
  | none =>
    intro id hid
    simpa using List.find?_eq_none.mp hf id hid

/-- An edit that succeeds has succeeded at every step. -/
theorem of_on_bind {e : Edit α} {f : α → Edit β} {b : β} (h : (e >>= f).on w = (.ok b, w')) :
    ∃ a w₁, e.on w = (.ok a, w₁) ∧ (f a).on w₁ = (.ok b, w') := by
  rw [on_bind] at h
  cases he : e.on w with
  | mk r w₁ =>
    rw [he] at h
    cases r with
    | error x => cases h
    | ok a => exact ⟨a, w₁, rfl, h⟩

theorem of_on_ofExcept_bind {r : Except EditError α} {f : α → Edit β} {b : β}
    (h : (MonadExcept.ofExcept r >>= f).on w = (.ok b, w')) : ∃ a, r = .ok a ∧ (f a).on w = (.ok b, w') := by
  obtain ⟨a, w₁, hr, hf⟩ := of_on_bind h
  rw [on_ofExcept] at hr
  obtain ⟨rfl, rfl⟩ := Prod.mk.inj hr
  exact ⟨a, rfl, hf⟩

theorem of_on_require_bind {found : ElementId → Bool} {ids : List ElementId} {f : Unit → Edit β} {b : β}
    (h : (require found ids >>= f).on w = (.ok b, w')) : (∀ id ∈ ids, found id = true) ∧ (f ()).on w = (.ok b, w') := by
  obtain ⟨_, w₁, hr, hf⟩ := of_on_bind h
  have hall := of_on_require hr
  rw [on_require_ok hall] at hr
  obtain ⟨_, rfl⟩ := Prod.mk.inj hr
  exact ⟨hall, hf⟩

/-- A change and what is told about it. -/
theorem of_on_change_pure {f : Diagram → Except EditError Diagram} {g b : β}
    (h : (change f >>= fun _ => (pure g : Edit β)).on w = (.ok b, w')) : f w.diagram = .ok w'.diagram ∧ b = g := by
  obtain ⟨_, w₁, hc, hg⟩ := of_on_bind h
  obtain ⟨rfl, rfl⟩ : g = b ∧ w₁ = w' := by simpa using hg
  rw [on_change] at hc
  cases hd : f w.diagram with
  | error x => simp [hd] at hc
  | ok d =>
    simp only [hd, Prod.mk.injEq, true_and] at hc
    exact ⟨hc ▸ rfl, rfl⟩

/-- What each change leads to, all of them lead to. -/
theorem of_on_changeEach {f : α → Diagram → Except EditError Diagram} {P : List α → Diagram → Prop} {l : List α}
    (hP : ∀ a ∈ l, ∀ done d d', P done d → f a d = .ok d' → P (done ++ [a]) d') {u : Unit}
    (h : (changeEach f l).on w = (.ok u, w')) (done : List α) (hw : P done w.diagram) : P (done ++ l) w'.diagram := by
  induction l generalizing w done with
  | nil =>
    obtain ⟨_, rfl⟩ := Prod.mk.inj h
    simpa using hw
  | cons a rest ih =>
    obtain ⟨_, w₁, hc, hrest⟩ := of_on_bind h
    rw [on_change] at hc
    cases hd : f a w.diagram with
    | error x => simp [hd] at hc
    | ok d =>
      simp only [hd, Prod.mk.injEq, true_and] at hc
      subst hc
      have hfirst := hP a (by simp) done w.diagram d hw hd
      have hall := ih (fun b hb => hP b (List.mem_cons_of_mem _ hb)) hrest (done ++ [a]) hfirst
      rwa [List.append_assoc] at hall

/-- When each change is allowed and leads on from `P` of what is still to do, all of
them are made. -/
theorem on_changeEach_ok {f : α → Diagram → Except EditError Diagram} {P : List α → Diagram → Prop}
    (hf : ∀ a rest d, P (a :: rest) d → ∃ d', f a d = .ok d' ∧ P rest d') (l : List α) (w : Workspace)
    (h : P l w.diagram) : ∃ d', (changeEach f l).on w = (.ok (), { w with diagram := d' }) ∧ P [] d' := by
  induction l generalizing w with
  | nil => exact ⟨w.diagram, rfl, h⟩
  | cons a rest ih =>
    obtain ⟨d, hd, hrest⟩ := hf a rest w.diagram h
    obtain ⟨d', hd', hnil⟩ := ih { w with diagram := d } hrest
    refine ⟨d', ?_, hnil⟩
    rw [changeEach, on_bind_ok (on_change_ok hd), hd']

/-! ### Kept properties -/

def Keeps (P : Diagram → Prop) (e : Edit α) : Prop := ∀ w, P w.diagram → P (e.on w).2.diagram

theorem Keeps.pure (a : α) : Keeps P (Pure.pure a : Edit α) := fun _ h => h

theorem Keeps.throw (x : EditError) : Keeps P (throw x : Edit α) := fun _ h => h

theorem Keeps.diagram : Keeps P Edit.diagram := fun _ h => h

theorem Keeps.freshId : Keeps P Edit.freshId := fun _ h => h

theorem Keeps.ofExcept (r : Except EditError α) : Keeps P (ofExcept r : Edit α) := by
  intro w h
  rw [on_ofExcept]
  exact h

theorem Keeps.require (found : ElementId → Bool) (ids : List ElementId) : Keeps P (Edit.require found ids) := by
  intro w h
  rw [on_require]
  exact h

theorem Keeps.bind {e : Edit α} {f : α → Edit β} (he : Keeps P e) (hf : ∀ a, Keeps P (f a)) :
    Keeps P (e >>= f) := by
  intro w h
  have hw := he w h
  rw [on_bind]
  cases hr : e.on w with
  | mk r w' =>
    rw [hr] at hw
    cases r with
    | error x => exact hw
    | ok a => exact hf a w' hw

theorem Keeps.change {f : Diagram → Except EditError Diagram} (hf : ∀ d d', P d → f d = .ok d' → P d') :
    Keeps P (Edit.change f) := by
  intro w h
  rw [on_change]
  cases hd : f w.diagram with
  | error x => exact h
  | ok d => exact hf _ _ h hd

theorem Keeps.changeEach {f : α → Diagram → Except EditError Diagram}
    (hf : ∀ a d d', P d → f a d = .ok d' → P d') (l : List α) : Keeps P (Edit.changeEach f l) := by
  induction l with
  | nil => exact Keeps.pure _
  | cons a rest ih => exact Keeps.bind (Keeps.change (hf a)) fun _ => ih

theorem Keeps.attempt {f : Diagram → Except EditError Unit × Diagram} (hf : ∀ d, P d → P (f d).2) :
    Keeps P (Edit.attempt f) := by
  intro w h
  rw [on_attempt]
  exact hf _ h

/-! ### Refusals -/

/-- A refusal leaves the diagram as it was. -/
def Whole (e : Edit α) (w : Workspace) : Prop :=
  ∀ x, (e.on w).1 = .error x → (e.on w).2.diagram = w.diagram

theorem Whole.of_ok {e : Edit α} {a : α} (h : e.on w = (.ok a, w')) : Whole e w := by
  intro x hx
  rw [h] at hx
  cases hx

theorem Whole.throw (x : EditError) (w : Workspace) : Whole (throw x : Edit α) w := fun _ _ => rfl

/-- A step that leaves the diagram alone may come before anything whole. -/
theorem Whole.step {e : Edit α} {f : α → Edit β} {a : α} (he : e.on w = (.ok a, w'))
    (hw : w'.diagram = w.diagram) (hf : Whole (f a) w') : Whole (e >>= f) w := by
  intro x hx
  rw [on_bind_ok he] at hx ⊢
  exact (hf x hx).trans hw

theorem Whole.diagram {f : Diagram → Edit β} (hf : Whole (f w.diagram) w) : Whole (Edit.diagram >>= f) w :=
  Whole.step (on_diagram w) rfl hf

theorem Whole.freshId {f : ElementId → Edit β}
    (hf : Whole (f w.ids.takeId.1) { w with ids := w.ids.takeId.2 }) : Whole (Edit.freshId >>= f) w :=
  Whole.step (on_freshId w) rfl hf

theorem Whole.ofExcept {r : Except EditError α} {f : α → Edit β} (hf : ∀ a, r = .ok a → Whole (f a) w) :
    Whole (MonadExcept.ofExcept r >>= f) w := by
  cases r with
  | error x =>
    intro y _
    rw [on_bind_error (on_ofExcept _ _)]
  | ok a => exact Whole.step (on_ofExcept _ _) rfl (hf a rfl)

theorem Whole.require {found : ElementId → Bool} {ids : List ElementId} {f : Unit → Edit β}
    (hf : (∀ id ∈ ids, found id = true) → Whole (f ()) w) : Whole (Edit.require found ids >>= f) w := by
  cases hr : (Edit.require found ids).on w with
  | mk r w' =>
    have hw : w' = w := by rw [on_require] at hr; exact (Prod.mk.inj hr).2.symm
    subst hw
    cases r with
    | error x =>
      intro y _
      rw [on_bind_error hr]
    | ok _ => exact Whole.step hr rfl (hf (of_on_require hr))

theorem Whole.change (f : Diagram → Except EditError Diagram) (w : Workspace) : Whole (Edit.change f) w := by
  intro x hx
  rw [on_change] at hx ⊢
  cases hd : f w.diagram with
  | error y => rfl
  | ok d => simp [hd] at hx

/-- Telling what has been done cannot fail. -/
theorem Whole.bind_pure {e : Edit α} (he : Whole e w) (g : α → β) : Whole (e >>= fun a => Pure.pure (g a)) w := by
  intro x hx
  rw [on_bind] at hx ⊢
  cases hr : e.on w with
  | mk r w' =>
    rw [hr] at hx
    cases r with
    | error y =>
      have hy := he y (by rw [hr])
      rw [hr] at hy
      exact hy
    | ok a => simp at hx

end Edit

end DiagramEditor
