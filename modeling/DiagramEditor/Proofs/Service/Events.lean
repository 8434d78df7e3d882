import DiagramEditor.Proofs.Service.Runs

/-!
# What happens to a service

A service is called, and its store may be written behind its back: by its owner, or by a slow
store that gets done with a save. A call concerns one session at most, the one it is addressed
to or the one it opens, and leaves the others as they are.
-/

set_option autoImplicit false

namespace DiagramEditor

/-- A call with the credentials it came with, a write to the store by its owner, or a save that gets
done after all. -/
inductive Event where
  | call (call : Call) (who : Option Credentials)
  | putLanguage (d : LanguageDocument)
  | putModel (sourceId : String) (m : Model)
  | deleteModel (sourceId : String)
  | finish (n : Nat)

/-- The session a call is addressed to, or the one it opens. -/
def Call.Concerns (call : Call) (v : Service) (id : Uuid) : Prop :=
  match call with
  | .health => False
  | .openSession _ => id = v.shared.ids.take.1
  | .closeSession target | .inSession target _ => id = target

namespace SessionCall

def loadById (languageId : String) : SessionCall := .loadLanguage ⟨some languageId, none⟩

/-! A call leaves the shared part alone but for the cache, the ids, the store or what it is at. -/

theorem shared_loadLanguage (choice : LanguageChoice) (c : Shared) (s : Session) :
    ∃ cache, ((loadLanguage choice).run c s).2.1 = { c with cache := cache } := by
  have hchosen : ∃ cache, (c.chosenLanguage choice s.credentials).2 = { c with cache := cache } := by
    rw [Shared.chosenLanguage]
    repeat' split
    all_goals exact ⟨_, rfl⟩
  rw [run, runLoadLanguage]
  split <;> simp_all

theorem shared_loadModel (c : Shared) (s : Session) : ∃ ids, (loadModel.run c s).2.1 = { c with ids := ids } := by
  have hprovided : ∃ ids, (c.provideModel s.sourceId s.credentials).2 = { c with ids := ids } := by
    rw [Shared.provideModel]
    split <;> exact ⟨_, rfl⟩
  rw [run, runLoadModel]
  split <;> simp_all

theorem shared_giveUp (save : OverdueSave) (c : Shared) :
    ∃ overdue, c.giveUp save = { c with overdue := overdue } := by
  rw [Shared.giveUp]
  split <;> exact ⟨_, rfl⟩

theorem shared_saveModel (preview : Option String) (c : Shared) (s : Session) :
    ∃ store overdue, ((saveModel preview).run c s).2.1 = { c with store := store, overdue := overdue } := by
  have hsaved : ∀ m, ∃ store overdue,
      (c.saveModel s.sourceId m preview s.credentials).2 = { c with store := store, overdue := overdue } := by
    intro m
    unfold Shared.saveModel
    dsimp only
    split
    · obtain ⟨overdue, hoverdue⟩ := shared_giveUp ⟨s.sourceId, m, preview, s.credentials⟩ c
      exact ⟨c.store, overdue, hoverdue⟩
    · exact ⟨_, c.overdue, rfl⟩
  rw [run, runSaveModel]
  split
  · exact ⟨c.store, c.overdue, rfl⟩
  · split
    · exact ⟨c.store, c.overdue, rfl⟩
    · rename_i m _
      specialize hsaved m
      split <;> simp_all

end SessionCall

namespace Service

variable {v : Service}

theorem answer_inSession {id : Uuid} {s : Session} (hs : v.session? id = some s) (call : SessionCall)
    (who : Option Credentials) :
    v.answer (.inSession id call) who =
      ((call.run v.shared (call.adopt who s)).1,
        ⟨(call.run v.shared (call.adopt who s)).2.1,
          Table.put id (call.run v.shared (call.adopt who s)).2.2 v.sessions⟩) := by
  rw [answer, inSession, hs]

theorem session?_answer_inSession {id : Uuid} {s : Session} (hs : v.session? id = some s) (call : SessionCall)
    (who : Option Credentials) :
    (v.answer (.inSession id call) who).2.session? id = some (call.run v.shared (call.adopt who s)).2.2 := by
  rw [answer_inSession hs]
  exact Table.get?_put_self id _ v.sessions

theorem answer_inSession_none {id : Uuid} (hs : v.session? id = none) (call : SessionCall)
    (who : Option Credentials) : v.answer (.inSession id call) who = (.error (.unknownSession id), v) := by
  rw [answer, inSession, hs]

/-- Sessions that a call does not concern stay as they are. -/
theorem session?_answer_of_ne {call : Call} {id : Uuid} (h : ¬ call.Concerns v id) (who : Option Credentials) :
    (v.answer call who).2.session? id = v.session? id := by
  cases call with
  | health => rfl
  | openSession sourceId =>
    rw [answer, openSession]
    split
    · rfl
    · exact Table.get?_put_of_ne _ v.sessions h
  | closeSession target =>
    rw [answer, closeSession]
    split
    · rfl
    · exact Table.get?_erase_of_ne v.sessions h
  | inSession target call =>
    cases hs : v.session? target with
    | none => rw [answer_inSession_none hs]
    | some s =>
      rw [answer_inSession hs]
      exact Table.get?_put_of_ne _ v.sessions h

def withStore (store : Store) (v : Service) : Service := { v with shared := { v.shared with store := store } }

def step (v : Service) : Event → Service
  | .call call who => (v.answer call who).2
  | .putLanguage d => v.withStore (v.shared.store.putLanguage d)
  | .putModel sourceId m => v.withStore (v.shared.store.putModel sourceId m none)
  | .deleteModel sourceId => v.withStore (v.shared.store.deleteModel sourceId).2
  | .finish n => { v with shared := v.shared.finish n }

/-- The service after events, the first of them first. -/
def through (v : Service) : List Event → Service
  | [] => v
  | e :: rest => (v.step e).through rest

theorem through_append (v : Service) (events more : List Event) :
    v.through (events ++ more) = (v.through events).through more := by
  induction events generalizing v with
  | nil => rfl
  | cons e rest ih => exact ih (v.step e)

/-- A service that has just been started: no session is open and nothing is compiled. -/
structure Begins (v : Service) : Prop where
  sessions : v.sessions = []
  cache : v.shared.cache = .empty

theorem begins_start (config : Config) (collaborators : Collaborators) (store : Store) :
    (start config collaborators store).Begins := ⟨rfl, rfl⟩

/-- A service that keeps its documents in memory, guarded by a token or not. -/
def inMemory (config : Config) (token : Option String) : Service :=
  start config .allStore (.memory (.empty token))

end Service

end DiagramEditor
