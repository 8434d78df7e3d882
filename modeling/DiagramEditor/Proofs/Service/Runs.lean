import DiagramEditor.Proofs.Diagram.Visuals
import DiagramEditor.Proofs.Session.Runs
import DiagramEditor.Service.Basic

/-!
# Runs of the service

A call to the service reaches one session at most, and is made of calls of that session.
The store is written when a model is saved and at no other time.
-/

set_option autoImplicit false

namespace DiagramEditor

namespace Session

variable {s : Session}

theorem after_append (s : Session) (calls more : List Call) : s.after (calls ++ more) = (s.after calls).after more := by
  induction calls generalizing s with
  | nil => rfl
  | cons c rest ih => exact ih (s.call c).2

theorem Reachable.after (h : s.Reachable) (calls : List Call) : (s.after calls).Reachable := by
  obtain ⟨sourceId, credentials, policy, before, rfl⟩ := h
  exact ⟨sourceId, credentials, policy, before ++ calls, after_append _ before calls⟩

end Session

theorem Shared.of_saveModel {c c' : Shared} {sourceId : String} {m : Model} {preview : Option String}
    {who : Credentials} (h : c.saveModel sourceId m preview who = (.ok (), c')) :
    c.store.save sourceId m preview who = (.ok (), c'.store) := by
  unfold saveModel consult at h
  cases hsave : c.store.save sourceId m preview who with
  | mk saved store =>
    rw [hsave] at h
    cases hreach : c.collaborators.saver.reach .modelSaver c.config.timeout with
    | error e => simp [hreach] at h
    | ok _ =>
      cases saved with
      | error e => simp [hreach] at h
      | ok _ =>
        simp only [hreach, Prod.mk.injEq, true_and] at h
        rw [← h]

namespace SessionCall

/-- A call leaves its session as some calls of the session do. -/
theorem session_run (call : SessionCall) (c : Shared) (s : Session) : ∃ calls, (call.run c s).2.2 = s.after calls := by
  cases call with
  | loadLanguage choice =>
    rw [run, runLoadLanguage]
    split
    · exact ⟨[], rfl⟩
    · rename_i l c' _
      exact ⟨[.installLanguage l], rfl⟩
  | loadModel =>
    rw [run, runLoadModel]
    split
    · exact ⟨[], rfl⟩
    · rename_i m c' _
      exact ⟨[.installModel m], rfl⟩
  | saveModel preview =>
    refine ⟨[], ?_⟩
    simp only [run, runSaveModel]
    repeat' split
    all_goals rfl
  | showType tag => exact ⟨[.showType tag c.ids.takeId.1], rfl⟩
  | apply op => exact ⟨[.apply op c.ids], rfl⟩
  | render => exact ⟨[.render], rfl⟩
  | copy selection => exact ⟨[], rfl⟩

theorem session_adopt (call : SessionCall) (who : Option Credentials) (s : Session) :
    ∃ calls, call.adopt who s = s.after calls := by
  cases who with
  | none => exact ⟨[], rfl⟩
  | some who =>
    rw [adopt]
    split
    · exact ⟨[.adopt who], rfl⟩
    · exact ⟨[], rfl⟩

theorem model_adopt (call : SessionCall) (who : Option Credentials) (s : Session) :
    (call.adopt who s).model = s.model ∧ (call.adopt who s).sourceId = s.sourceId := by
  cases who with
  | none => exact ⟨rfl, rfl⟩
  | some who =>
    rw [adopt]
    split <;> exact ⟨rfl, rfl⟩

/-- Only a call to save writes to the store. -/
theorem store_run (call : SessionCall) (h : ∀ preview, call ≠ .saveModel preview) (c : Shared) (s : Session) :
    (call.run c s).2.1.store = c.store := by
  cases call with
  | loadLanguage choice =>
    have hchosen : (c.chosenLanguage choice s.credentials).2.store = c.store := by
      rw [Shared.chosenLanguage]
      repeat' split
      all_goals rfl
    rw [run, runLoadLanguage]
    split <;> simp_all
  | loadModel =>
    have hprovided : (c.provideModel s.sourceId s.credentials).2.store = c.store := by
      rw [Shared.provideModel]
      split <;> rfl
    rw [run, runLoadModel]
    split <;> simp_all
  | saveModel preview => exact absurd rfl (h preview)
  | showType tag => rfl
  | apply op => rfl
  | render => rfl
  | copy selection => rfl

/-- A model that was saved is put into the store as it was. -/
theorem of_run_saveModel {preview : Option String} {c c' : Shared} {s s' : Session} {a : Answer}
    (h : run (.saveModel preview) c s = (.ok a, c', s')) :
    ∃ m, s.model = .ok m ∧ c.store.save s.sourceId m preview s.credentials = (.ok (), c'.store) := by
  rw [run, runSaveModel] at h
  split at h
  · cases h
  · split at h
    · cases h
    · rename_i m hm
      split at h
      · cases h
      · rename_i saved hsaved
        obtain ⟨_, heq⟩ := Prod.mk.inj h
        obtain ⟨rfl, _⟩ := Prod.mk.inj heq
        exact ⟨m, hm, Shared.of_saveModel hsaved⟩

end SessionCall

/-- A call that may write to the store. -/
def Call.Saves : Call → Prop
  | .inSession _ (.saveModel _) => True
  | _ => False

namespace Service

variable {v : Service}

/-- The service after calls, each with the credentials it came with. -/
def after (v : Service) : List (Call × Option Credentials) → Service
  | [] => v
  | (call, who) :: rest => (v.answer call who).2.after rest

/-- A service comes about by calls from one without sessions. -/
def Reachable (v : Service) : Prop := ∃ shared calls, (⟨shared, []⟩ : Service).after calls = v

theorem sessions_answer (h : ∀ p ∈ v.sessions, p.2.Reachable) (call : Call) (who : Option Credentials) :
    ∀ p ∈ (v.answer call who).2.sessions, p.2.Reachable := by
  cases call with
  | health => exact h
  | openSession sourceId =>
    rw [answer, openSession]
    split
    · exact h
    · intro p hp
      rcases Table.mem_of_mem_put hp with rfl | hp
      · exact ⟨_, _, _, [], rfl⟩
      · exact h p hp
  | closeSession id =>
    rw [answer, closeSession]
    split
    · exact h
    · intro p hp
      rw [Table.erase_eq_filter] at hp
      exact h p (List.mem_of_mem_filter hp)
  | inSession id call =>
    rw [answer, inSession]
    split
    · exact h
    · rename_i s hs
      intro p hp
      rcases Table.mem_of_mem_put hp with rfl | hp
      · obtain ⟨before, hbefore⟩ := call.session_adopt who s
        obtain ⟨calls, hcalls⟩ := call.session_run v.shared (call.adopt who s)
        have hreachable := ((h (id, s) (Table.mem_of_get? hs)).after before).after calls
        rw [← hbefore, ← hcalls] at hreachable
        exact hreachable
      · exact h p hp

/-- Every session of a service has come about by the calls of a session. -/
theorem Reachable.sessions (h : v.Reachable) : ∀ p ∈ v.sessions, p.2.Reachable := by
  obtain ⟨shared, calls, rfl⟩ := h
  have hstart : ∀ p ∈ (⟨shared, []⟩ : Service).sessions, p.2.Reachable := by simp
  generalize (⟨shared, []⟩ : Service) = v at hstart ⊢
  induction calls generalizing v with
  | nil => exact hstart
  | cons c rest ih => exact ih _ (sessions_answer hstart c.1 c.2)

theorem store_answer {call : Call} (h : ¬ call.Saves) (who : Option Credentials) :
    (v.answer call who).2.shared.store = v.shared.store := by
  cases call with
  | health => rfl
  | openSession sourceId =>
    rw [answer, openSession]
    split <;> rfl
  | closeSession id =>
    rw [answer, closeSession]
    split <;> rfl
  | inSession id call =>
    have hcall : ∀ preview, call ≠ .saveModel preview := by
      rintro preview rfl
      exact h trivial
    rw [answer, inSession]
    split
    · rfl
    · rename_i s _
      exact call.store_run hcall v.shared (call.adopt who s)

theorem store_after {calls : List (Call × Option Credentials)} (h : ∀ c ∈ calls, ¬ c.1.Saves) (v : Service) :
    (v.after calls).shared.store = v.shared.store := by
  induction calls generalizing v with
  | nil => rfl
  | cons c rest ih =>
    rw [List.forall_mem_cons] at h
    exact (ih h.2 _).trans (store_answer h.1 c.2)

end Service

end DiagramEditor
