import DiagramEditor.Proofs.Diagram.Effects
import DiagramEditor.Proofs.Runs
import DiagramEditor.Session

/-!
# Runs of a session

Language and model come to a session in any order and are replaced at any time. Every
call is refused and leaves the session alone, or it leaves a session of one of three
kinds: as it was, freshly rendered, or with nothing to render. So the rendering that is
kept is at all times the one of the present model under the present language.
-/

set_option autoImplicit false

namespace DiagramEditor

namespace Diagram

variable {d d' : Diagram}

theorem Reachable.of_call (h : d.Reachable) {c : Call} (hc : d.call c = d') : d'.Reachable := hc ▸ h.call c

theorem reachable_empty (id : String) : (empty id).Reachable := ⟨empty id, [], .empty id, rfl⟩

theorem reachable_of_ofModel {m : Model} (h : ofModel m = .ok d) : d.Reachable := ⟨d, [], .ofModel h, rfl⟩

theorem Reachable.insertNode (h : d.Reachable) {n : Node} (hd : d.insertNode n = .ok d') : d'.Reachable :=
  h.of_call (c := .insertNode n) (by rw [Diagram.call, hd]; rfl)

theorem Reachable.insertEdge (h : d.Reachable) {e : Edge} (hd : d.insertEdge e = .ok d') : d'.Reachable :=
  h.of_call (c := .insertEdge e) (by rw [Diagram.call, hd]; rfl)

theorem Reachable.render (h : d.Reachable) {l : Language} {r : Rendering} (hd : d.render l = .ok (d', r)) :
    d'.Reachable :=
  h.of_call (c := .render l) (by rw [Diagram.call, hd]; rfl)

theorem reachable_of_showcase {l : Language} {tag : TypeTag} {modelId : String}
    (hd : showcase l tag modelId = .ok d) : d.Reachable := by
  have hstart := reachable_empty modelId
  rw [showcase] at hd
  cases hn : l.find? .node tag with
  | some t =>
    simp only [hn] at hd
    exact hstart.insertNode hd
  | none =>
    cases he : l.find? .edge tag with
    | none => simp [hn, he] at hd
    | some t =>
      simp only [hn, he] at hd
      cases hsource : (empty modelId).insertNode ⟨"showcase_source", "", .origin, none, .emptyObject⟩ with
      | error e => simp [hsource, bind, Except.bind] at hd
      | ok source =>
        cases htarget : source.insertNode ⟨"showcase_target", "", ⟨200, 0⟩, none, .emptyObject⟩ with
        | error e => simp [hsource, htarget, bind, Except.bind] at hd
        | ok target =>
          simp only [hsource, htarget, bind, Except.bind] at hd
          exact ((hstart.insertNode hsource).insertNode htarget).insertEdge hd

/-- A rendering is of the model as it is, and the visuals are those indexed from it. -/
theorem of_render {l : Language} {r : Rendering} (h : d.render l = .ok (d', r)) :
    l.render d'.model = .ok r ∧ d'.index.indexVisuals r.graph = d'.index := by
  rw [Diagram.render] at h
  cases hr : l.render d.model with
  | error e => simp [hr] at h
  | ok made =>
    simp only [hr, Except.ok.injEq, Prod.mk.injEq] at h
    obtain ⟨rfl, rfl⟩ := h
    exact ⟨hr, rfl⟩

theorem error_of_render {l : Language} {e : EditError} (h : d.render l = .error e) :
    ∃ fault, l.render d.model = .error fault ∧ e = .template fault := by
  rw [Diagram.render] at h
  split at h
  · rename_i fault hfault
    exact ⟨fault, hfault, (Except.error.inj h).symm⟩
  · cases h

end Diagram

namespace Session

open Diagram (sample plain)

variable {s s' : Session}

/-- A call to a session. -/
inductive Call where
  | installLanguage (l : Language)
  | installModel (m : Model)
  | showType (tag : TypeTag) (modelId : String)
  | apply (op : Operation) (ids : IdSupply)
  | render
  | adopt (c : Credentials)
  | copy (selection : List ElementId)

/-- Whether a call is carried out, and the session it leaves. -/
def call (s : Session) : Call → Except EditError Unit × Session
  | .installLanguage l => ((s.installLanguage l).1.map fun _ => (), (s.installLanguage l).2)
  | .installModel m => ((s.installModel m).1.map fun _ => (), (s.installModel m).2)
  | .showType tag modelId => ((s.showType tag modelId).1.map fun _ => (), (s.showType tag modelId).2)
  | .apply op ids => ((s.apply op ids).1.map fun _ => (), (s.apply op ids).2.1)
  | .render => (s.render.1.map fun _ => (), s.render.2)
  | .adopt c => (.ok (), s.adopt c)
  | .copy selection => ((s.copy selection).map fun _ => (), s)

def after (s : Session) : List Call → Session
  | [] => s
  | c :: rest => (s.call c).2.after rest

def Reachable (s : Session) : Prop :=
  ∃ sourceId credentials policy calls, (start sourceId credentials policy).after calls = s

/-- What a call that is carried out leaves. -/
inductive Settles (s s' : Session) : Prop where
  | same (language : s'.language = s.language) (diagram : s'.diagram = s.diagram)
      (rendering : s'.rendering = s.rendering)
  | rendered {l : Language} {d d' : Diagram} {r : Rendering}
      (origin : (∀ old, s.diagram = some old → old.Reachable) → d.Reachable) (made : d.render l = .ok (d', r))
      (language : s'.language = some l) (diagram : s'.diagram = some d') (rendering : s'.rendering = some r)
  | bare (origin : ∀ d, s'.diagram = some d → d.Reachable) (lacks : s'.language = none ∨ s'.diagram = none)
      (rendering : s'.rendering = none)

/-- A refusal leaves the session alone, any other answer settles it. -/
def Answers {α : Type} (s : Session) : Except EditError α × Session → Prop
  | (.error _, s') => s' = s
  | (.ok _, s') => s.Settles s'

theorem Answers.map {α β : Type} {r : Except EditError α} (h : s.Answers (r, s')) (f : α → β) :
    s.Answers (r.map f, s') := by
  cases r with
  | error e => exact h
  | ok a => exact h

theorem answers_installLanguage (s : Session) (l : Language) : s.Answers (s.installLanguage l) := by
  rw [installLanguage]
  cases hd : s.diagram with
  | none => exact .bare (fun d h => by simp at h) (Or.inr rfl) rfl
  | some d =>
    cases hr : d.render l with
    | error e => simp only [hr, Answers]
    | ok made =>
      simp only [hr]
      exact .rendered (fun h => h d hd) hr rfl rfl rfl

theorem answers_installModel (s : Session) (m : Model) : s.Answers (s.installModel m) := by
  rw [installModel]
  cases hm : Diagram.ofModel m with
  | error e => rfl
  | ok d =>
    have hd := Diagram.reachable_of_ofModel hm
    cases hl : s.language with
    | none => exact .bare (fun d' h => Option.some.inj h ▸ hd) (Or.inl rfl) rfl
    | some l =>
      cases hr : d.render l with
      | error e => simp only [renderUnder, hr, Answers]
      | ok made =>
        simp only [renderUnder, hr]
        exact .rendered (fun _ => hd) hr rfl rfl rfl

theorem answers_showType (s : Session) (tag : TypeTag) (modelId : String) :
    s.Answers (s.showType tag modelId) := by
  rw [showType]
  cases hl : s.language with
  | none => rfl
  | some l =>
    cases hs : Diagram.showcase l tag modelId with
    | error e => simp only [hs, Answers]
    | ok d =>
      cases hr : d.render l with
      | error e => simp only [hs, hr, Answers]
      | ok made =>
        simp only [hs, hr]
        exact .rendered (fun _ => Diagram.reachable_of_showcase hs) hr rfl rfl rfl

/-- What an operation comes to in a session. -/
inductive Applies (s : Session) (op : Operation) (ids : IdSupply) :
    Except EditError EditReport × Session × IdSupply → Prop
  | noLanguage : s.language = none → s.Applies op ids (.error .noLanguageLoaded, s, ids)
  | noModel : s.diagram = none → s.Applies op ids (.error .noModelLoaded, s, ids)
  | refused {l : Language} {d : Diagram} {e : EditError} {w : Workspace} :
    s.language = some l → s.diagram = some d → op.apply ⟨l, s.policy⟩ ⟨d, ids⟩ = (.error e, w) →
    s.Applies op ids (.error e, s, w.ids)
  | unrendered {l : Language} {d : Diagram} {outcome : Outcome} {w : Workspace} {e : EditError} :
    s.language = some l → s.diagram = some d → op.apply ⟨l, s.policy⟩ ⟨d, ids⟩ = (.ok outcome, w) →
    w.diagram.render l = .error e → s.Applies op ids (.error e, s, w.ids)
  | rendered {l : Language} {d d' : Diagram} {outcome : Outcome} {w : Workspace} {r : Rendering} :
    s.language = some l → s.diagram = some d → op.apply ⟨l, s.policy⟩ ⟨d, ids⟩ = (.ok outcome, w) →
    w.diagram.render l = .ok (d', r) →
    s.Applies op ids (.ok ⟨outcome, r⟩, { s with diagram := some d', rendering := some r }, w.ids)

theorem applies_apply (s : Session) (op : Operation) (ids : IdSupply) : s.Applies op ids (s.apply op ids) := by
  rw [apply]
  cases hl : s.language with
  | none => exact .noLanguage hl
  | some l =>
    cases hd : s.diagram with
    | none => exact .noModel hd
    | some d =>
      cases ho : op.apply ⟨l, s.policy⟩ ⟨d, ids⟩ with
      | mk result w =>
        cases result with
        | error e =>
          simp only [ho]
          exact .refused hl hd ho
        | ok outcome =>
          cases hr : w.diagram.render l with
          | error e =>
            simp only [ho, hr]
            exact .unrendered hl hd ho hr
          | ok made =>
            simp only [ho, hr, ← hl]
            exact .rendered hl hd ho hr

theorem answers_apply (s : Session) (op : Operation) (ids : IdSupply) :
    s.Answers ((s.apply op ids).1, (s.apply op ids).2.1) := by
  have h := s.applies_apply op ids
  generalize s.apply op ids = answer at h
  cases h with
  | noLanguage | noModel | refused | unrendered => rfl
  | @rendered l d _ _ w _ hl hd ho hr =>
    refine .rendered (fun h => ?_) hr hl rfl rfl
    exact (h d hd).of_call (c := .apply op ⟨l, s.policy⟩ ids) (by rw [Diagram.call, ho])

theorem answers_render (s : Session) : s.Answers s.render := by
  rw [render]
  cases hc : s.rendering with
  | some r => exact .same rfl rfl rfl
  | none =>
    cases hl : s.language with
    | none => rfl
    | some l =>
      cases hd : s.diagram with
      | none => rfl
      | some d =>
        cases hr : d.render l with
        | error e => simp only [hr, Answers]
        | ok made =>
          simp only [hr]
          exact .rendered (fun h => h d hd) hr rfl rfl rfl

theorem answers_call (s : Session) (c : Call) : s.Answers (s.call c) := by
  cases c with
  | installLanguage l => exact (s.answers_installLanguage l).map _
  | installModel m => exact (s.answers_installModel m).map _
  | showType tag modelId => exact (s.answers_showType tag modelId).map _
  | apply op ids => exact (s.answers_apply op ids).map _
  | render => exact s.answers_render.map _
  | adopt credentials => exact .same rfl rfl rfl
  | copy selection =>
    have h : s.Answers (s.copy selection, s) := by
      cases s.copy selection with
      | error e => rfl
      | ok clipboard => exact .same rfl rfl rfl
    exact h.map _

/-- What every settling keeps holds of the session after any call. -/
theorem induction_call {P : Session → Prop} (hP : ∀ s s', P s → s.Settles s' → P s') (h : P s) (c : Call) :
    P (s.call c).2 := by
  have hc := s.answers_call c
  cases hr : s.call c with
  | mk r s' =>
    rw [hr] at hc
    cases r with
    | error e => exact hc ▸ h
    | ok _ => exact hP s s' h hc

theorem induction_after {P : Session → Prop} (hP : ∀ s s', P s → s.Settles s' → P s') (h : P s)
    (calls : List Call) : P (s.after calls) := by
  induction calls generalizing s with
  | nil => exact h
  | cons c rest ih => exact ih (induction_call hP h c)

/-- What is kept of a session fits together: a language and a diagram have the
rendering of the one under the other, which is also what the index was filled from,
and there is no other rendering. -/
structure Current (s : Session) : Prop where
  rendered : ∀ l d, s.language = some l → s.diagram = some d →
    ∃ r, l.render d.model = .ok r ∧ s.rendering = some r ∧ s.render = (.ok r, s) ∧
      d.index = d.index.indexVisuals r.graph
  absent : s.language = none ∨ s.diagram = none → s.rendering = none

namespace Current

theorem start (sourceId : String) (c : Credentials) (policy : DataPolicy) : (start sourceId c policy).Current where
  rendered := by
    intro l d hl _
    cases hl
  absent := fun _ => rfl

theorem of_settles (h : s.Current) (hs : s.Settles s') : s'.Current := by
  cases hs with
  | same hl hd hr =>
    refine ⟨fun l d hl' hd' => ?_, fun hlacks => ?_⟩
    · rw [hl] at hl'
      rw [hd] at hd'
      obtain ⟨r, hrender, hkept, _, hindex⟩ := h.rendered l d hl' hd'
      rw [← hr] at hkept
      exact ⟨r, hrender, hkept, by simp only [render, hkept], hindex⟩
    · rw [hl, hd] at hlacks
      rw [hr]
      exact h.absent hlacks
  | @rendered l d d' r _ hmade hl hd hr =>
    obtain ⟨hrender, hindex⟩ := Diagram.of_render hmade
    refine ⟨fun l' d'' hl' hd' => ?_, fun hlacks => ?_⟩
    · obtain rfl : l = l' := Option.some.inj (hl.symm.trans hl')
      obtain rfl : d' = d'' := Option.some.inj (hd.symm.trans hd')
      exact ⟨r, hrender, hr, by simp only [render, hr], hindex.symm⟩
    · simp [hl, hd] at hlacks
  | bare _ hlacks hr =>
    refine ⟨fun l d hl hd => ?_, fun _ => hr⟩
    rcases hlacks with hnone | hnone
    · simp [hnone] at hl
    · simp [hnone] at hd

end Current

/-- Whatever is asked of a session, its rendering is that of its model under its
language, and a call that is refused leaves it exactly as it was. -/
theorem current_of_reachable (h : s.Reachable) :
    s.Current ∧ ∀ c e, (s.call c).1 = .error e → (s.call c).2 = s := by
  obtain ⟨sourceId, credentials, policy, calls, rfl⟩ := h
  refine ⟨induction_after (fun _ _ => Current.of_settles) (Current.start sourceId credentials policy) calls, ?_⟩
  intro c e he
  have hc := answers_call ((start sourceId credentials policy).after calls) c
  cases hr : ((start sourceId credentials policy).after calls).call c with
  | mk r s' =>
    rw [hr] at hc he
    cases r with
    | error _ => exact hc
    | ok _ => cases he

/-- The model comes before the language, and an element is deleted that is not there. -/
theorem sample_current_of_reachable :
    ∃ s : Session,
      s = (start "sample" ⟨none⟩ .validate).after
        [.installModel sample.model, .installLanguage plain.language, .apply (.deleteElements ["a"]) .start,
          .apply (.deleteElements ["a"]) .start] ∧
      s.Reachable ∧ s.language.isSome ∧ s.diagram.map (·.model.ids) = some ["b"] ∧
      s.Current ∧ ∀ c e, (s.call c).1 = .error e → (s.call c).2 = s := by
  refine ⟨_, rfl, ⟨_, _, _, _, rfl⟩, rfl, rfl, ?_⟩
  exact current_of_reachable ⟨_, _, _, _, rfl⟩

/-- The diagram of a session has come about by the calls of a diagram. -/
theorem Reachable.diagram (h : s.Reachable) : ∀ d, s.diagram = some d → d.Reachable := by
  obtain ⟨sourceId, credentials, policy, calls, rfl⟩ := h
  refine induction_after (P := fun s => ∀ d, s.diagram = some d → d.Reachable) ?_ ?_ calls
  · intro s s' h hs d hd
    cases hs with
    | same _ hsame _ => exact h d (hsame ▸ hd)
    | rendered origin made _ hnew _ =>
      rw [hnew] at hd
      exact Option.some.inj hd ▸ (origin h).render made
    | bare origin _ _ => exact origin d hd
  · intro d hd
    cases hd

end Session

end DiagramEditor
