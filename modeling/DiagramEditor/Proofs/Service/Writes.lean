import DiagramEditor.Proofs.Service.Refusal

/-!
# What is written to the store

A call writes to the store if it is one to save and succeeds. It then puts the model there
that the session edits, under the name of the session's source. A store in memory stays
one, whatever happens, and wants the same token.
-/

set_option autoImplicit false

namespace DiagramEditor

namespace Store

/-- A store that keeps documents as they are, and wants a certain token or none. -/
def IsMemory (token : Option String) (st : Store) : Prop := ∃ t, st = .memory t ∧ t.requiredToken = token

namespace IsMemory

variable {token : Option String} {st : Store}

theorem putLanguage (h : st.IsMemory token) (d : LanguageDocument) : (st.putLanguage d).IsMemory token := by
  obtain ⟨t, rfl, htoken⟩ := h
  exact ⟨_, rfl, htoken⟩

theorem putModel (h : st.IsMemory token) (sourceId : String) (m : Model) (preview : Option String) :
    (st.putModel sourceId m preview).IsMemory token := by
  obtain ⟨t, rfl, htoken⟩ := h
  exact ⟨_, rfl, htoken⟩

theorem deleteModel (h : st.IsMemory token) (sourceId : String) : (st.deleteModel sourceId).2.IsMemory token := by
  obtain ⟨t, rfl, htoken⟩ := h
  rw [Store.deleteModel]
  split <;> exact ⟨_, rfl, htoken⟩

theorem save (h : st.IsMemory token) (sourceId : String) (m : Model) (preview : Option String) (who : Credentials) :
    (st.save sourceId m preview who).2.IsMemory token := by
  rw [Store.save]
  split
  · exact h
  · exact h.putModel sourceId m preview

theorem stored_putModel_self (h : st.IsMemory token) (sourceId : String) (m : Model) (preview : Option String) :
    (st.putModel sourceId m preview).stored sourceId = .ok (some ⟨sourceId, m, preview⟩) := by
  obtain ⟨t, rfl, _⟩ := h
  exact congrArg Except.ok (Table.get?_put_self sourceId _ t.models)

end IsMemory

theorem stored_putModel_of_ne {sourceId other : String} (h : other ≠ sourceId) (m : Model) (preview : Option String)
    (st : Store) : (st.putModel sourceId m preview).stored other = st.stored other := by
  cases st with
  | memory t => exact congrArg Except.ok (Table.get?_put_of_ne _ t.models h)
  | text t => simp only [putModel, stored, TextStore.putModel, TextStore.stored, Table.get?_put_of_ne _ t.models h]

theorem of_save {st st' : Store} {sourceId : String} {m : Model} {preview : Option String} {who : Credentials}
    (h : st.save sourceId m preview who = (.ok (), st')) : st' = st.putModel sourceId m preview := by
  rw [save] at h
  split at h
  · cases h
  · exact (Prod.mk.inj h).2.symm

end Store

/-- The diagram that a session edits; one that shows a type edits none. -/
def Session.edited? (s : Session) : Option Diagram :=
  match s.mode with
  | .editing => s.diagram
  | .showcase _ => none

namespace SessionCall

theorem edited?_adopt (call : SessionCall) (who : Option Credentials) (s : Session) :
    (call.adopt who s).edited? = s.edited? := by
  rw [adopt_eq]
  rfl

/-- A model that was saved is the one of the diagram that the session edits. -/
theorem of_saved {preview : Option String} {c c' : Shared} {s s' : Session} {a : Answer}
    (h : run (.saveModel preview) c s = (.ok a, c', s')) :
    ∃ d, s.edited? = some d ∧ s.model = .ok d.model ∧ c'.store = c.store.putModel s.sourceId d.model preview := by
  obtain ⟨m, hm, hsave⟩ := of_run_saveModel h
  have hediting : s.mode = .editing := by
    rw [run, runSaveModel] at h
    split at h
    · cases h
    · assumption
  rw [Session.model] at hm
  split at hm
  · rename_i d hd
    obtain rfl := Except.ok.inj hm
    exact ⟨d, by rw [Session.edited?, hediting, hd], by rw [Session.model, hd], Store.of_save hsave⟩
  · cases hm

end SessionCall

namespace Service

variable {v v' : Service} {call : Call} {who : Option Credentials}

theorem of_answer_saveModel {id : Uuid} {preview : Option String} {a : Answer}
    (h : v.answer (.inSession id (.saveModel preview)) who = (.ok a, v')) :
    ∃ s d, v.session? id = some s ∧ s.edited? = some d ∧ s.model = .ok d.model ∧
      v'.shared.store = v.shared.store.putModel s.sourceId d.model preview := by
  cases hs : v.session? id with
  | none =>
    rw [answer_inSession_none hs] at h
    cases h
  | some s =>
    rw [answer_inSession hs] at h
    cases hrun : (SessionCall.saveModel preview).run v.shared ((SessionCall.saveModel preview).adopt who s) with
    | mk r rest =>
      rw [hrun] at h
      obtain ⟨rfl, rfl⟩ := Prod.mk.inj h
      obtain ⟨d, hd, hm, hstore⟩ := SessionCall.of_saved hrun
      obtain ⟨hmodel, hsource⟩ := (SessionCall.saveModel preview).model_adopt who s
      rw [SessionCall.edited?_adopt] at hd
      rw [hmodel] at hm
      rw [hsource] at hstore
      exact ⟨s, d, rfl, hd, hm, hstore⟩

/-- Nothing is written unless a model is saved. -/
theorem store_of_unsaved
    (h : ∀ id preview a, call = .inSession id (.saveModel preview) → (v.answer call who).1 ≠ .ok a) :
    (v.answer call who).2.shared.store = v.shared.store := by
  by_cases hsaves : call.Saves
  · cases hanswer : (v.answer call who).1 with
    | error e => exact (answer_refused hanswer).1
    | ok a =>
      obtain ⟨id, preview, rfl⟩ : ∃ id preview, call = .inSession id (.saveModel preview) := by
        unfold Call.Saves at hsaves
        split at hsaves
        · exact ⟨_, _, rfl⟩
        · exact hsaves.elim
      exact absurd hanswer (h id preview a rfl)
  · exact store_answer hsaves who

theorem isMemory_step {token : Option String} (h : v.shared.store.IsMemory token) (e : Event) :
    (v.step e).shared.store.IsMemory token := by
  cases e with
  | putLanguage d => exact h.putLanguage d
  | putModel sourceId m => exact h.putModel sourceId m none
  | deleteModel sourceId => exact h.deleteModel sourceId
  | finish n =>
    rw [step, Shared.finish]
    split
    · exact h
    · rename_i save _
      exact h.save save.sourceId save.model save.preview save.credentials
  | call call who =>
    by_cases hsaved : ∃ id preview a, call = .inSession id (.saveModel preview) ∧ (v.answer call who).1 = .ok a
    · obtain ⟨id, preview, a, rfl, hanswer⟩ := hsaved
      obtain ⟨s, d, -, -, -, hstore⟩ := of_answer_saveModel (Prod.ext hanswer rfl)
      rw [step, hstore]
      exact h.putModel _ _ _
    · rw [step, store_of_unsaved fun id preview a hcall ha => hsaved ⟨id, preview, a, hcall, ha⟩]
      exact h

theorem isMemory_through {token : Option String} (h : v.shared.store.IsMemory token) (events : List Event) :
    (v.through events).shared.store.IsMemory token := by
  induction events generalizing v with
  | nil => exact h
  | cons e rest ih => exact ih (isMemory_step h e)

end Service

end DiagramEditor
