import DiagramEditor.Proofs.Service.Writes

/-!
# A store that wants a token

Languages are compiled in common, but the store is asked first, on behalf of the session
that wants one. So nothing that is stored or cached gets to a session without the token:
what it is told depends on the session alone.
-/

set_option autoImplicit false

namespace DiagramEditor

theorem Store.IsMemory.authorize {token : String} {st : Store} (h : st.IsMemory (some token)) (who : Credentials) :
    st.authorize who = if who.token = some token then .ok () else .error .unauthorized := by
  obtain ⟨t, rfl, htoken⟩ := h
  rw [Store.authorize, MemoryStore.authorize, htoken]

/-- Everybody who is asked for a document asks a store in memory that wants a token. -/
structure Shared.Guarded (token : String) (c : Shared) : Prop where
  collaborators : c.collaborators = .allStore
  store : c.store.IsMemory (some token)

namespace SessionCall

/-- A call that asks the store. -/
inductive AsksStore : SessionCall → Prop
  | loadById (languageId : String) : AsksStore (.loadById languageId)
  | loadModel : AsksStore .loadModel
  | saveModel (preview : Option String) : AsksStore (.saveModel preview)

/-- What a session without the token is told; one that has nothing to save is told so. -/
def rejection (call : SessionCall) (s : Session) : ServiceError :=
  match call with
  | .saveModel _ =>
    match s.mode, s.model with
    | .showcase _, _ => .showcaseNotSaved
    | .editing, .error e => .edit e
    | .editing, .ok _ => .store .unauthorized
  | _ => .store .unauthorized

theorem rejection_adopt (call : SessionCall) (who : Option Credentials) (s : Session) :
    call.rejection (call.adopt who s) = call.rejection s := by
  rw [adopt_eq]
  rfl

variable {call : SessionCall} {c : Shared} {s : Session} {token : String}

/-- The store is asked before anything is looked up, so neither what is stored nor what is
cached matters. -/
theorem run_of_rejected (hcall : call.AsksStore) (hc : c.Guarded token) (hs : s.credentials.token ≠ some token) :
    call.run c s = (.error (call.rejection s), c, s) := by
  obtain ⟨hcollaborators, hstore⟩ := hc
  have hrefused : c.store.authorize s.credentials = .error .unauthorized := by rw [hstore.authorize, if_neg hs]
  cases hcall with
  | loadById languageId =>
    simp only [run, loadById, runLoadLanguage, Shared.chosenLanguage, Shared.provideLanguage, Shared.consult,
      hcollaborators, Collaborators.allStore, Collaborator.reach, Store.language, hrefused, rejection]
  | loadModel =>
    simp only [run, runLoadModel, Shared.provideModel, Shared.consult, hcollaborators, Collaborators.allStore,
      Collaborator.reach, Store.model, hrefused, rejection]
  | saveModel preview =>
    -- whether there is a model to save is looked up in the session, before the store is asked
    rw [run, runSaveModel, rejection]
    cases s.mode with
    | showcase tag => rfl
    | editing =>
      cases hm : s.model with
      | error e => rfl
      | ok m =>
        simp only [Shared.saveModel, Shared.consult, hcollaborators, Collaborators.allStore, Collaborator.reach,
          Store.save, hrefused, Shared.giveUp]

theorem collaborators_run (call : SessionCall) (c : Shared) (s : Session) :
    (call.run c s).2.1.collaborators = c.collaborators := by
  cases call with
  | loadLanguage choice =>
    obtain ⟨cache, hcache⟩ := shared_loadLanguage choice c s
    rw [hcache]
  | loadModel =>
    obtain ⟨ids, hids⟩ := shared_loadModel c s
    rw [hids]
  | saveModel preview =>
    obtain ⟨store, overdue, hstore⟩ := shared_saveModel preview c s
    rw [hstore]
  | showType tag | apply op | render | copy selection => rfl

end SessionCall

namespace Service

variable {v v₀ v' : Service} {token : String} {id : Uuid} {call : SessionCall} {who : Option Credentials}

theorem guarded_step (h : v.shared.Guarded token) (e : Event) : (v.step e).shared.Guarded token := by
  refine ⟨?_, isMemory_step h.store e⟩
  cases e with
  | putLanguage | putModel | deleteModel => exact h.collaborators
  | finish n =>
    rw [step, Shared.finish]
    split <;> exact h.collaborators
  | call call who =>
    rw [step]
    cases call with
    | health => exact h.collaborators
    | openSession sourceId =>
      rw [answer, openSession]
      split <;> exact h.collaborators
    | closeSession target =>
      rw [answer, closeSession]
      split <;> exact h.collaborators
    | inSession target call =>
      cases hs : v.session? target with
      | none =>
        rw [answer_inSession_none hs]
        exact h.collaborators
      | some s =>
        rw [answer_inSession hs]
        exact (call.collaborators_run _ _).trans h.collaborators

theorem guarded_through (h : v.shared.Guarded token) (events : List Event) :
    (v.through events).shared.Guarded token := by
  induction events generalizing v with
  | nil => exact h
  | cons e rest ih => exact ih (guarded_step h e)

theorem answer_of_rejected (hcall : call.AsksStore) (h : v.shared.Guarded token) {s : Session}
    (hs : v.session? id = some s) (htoken : (call.adopt who s).credentials.token ≠ some token) :
    (v.answer (.inSession id call) who).1 = .error (call.rejection s) ∧
      (v.answer (.inSession id call) who).2.shared = v.shared ∧
      (v.answer (.inSession id call) who).2.session? id = some (s.adopt (call.adopt who s).credentials) := by
  have hrun := SessionCall.run_of_rejected hcall h htoken
  rw [SessionCall.rejection_adopt] at hrun
  rw [session?_answer_inSession hs, answer_inSession hs, hrun, ← SessionCall.adopt_eq]
  exact ⟨rfl, rfl, rfl⟩

/-- Languages and models are handed out and models are saved for a session with the token
only. Any other session is refused, nothing is changed but its credentials, and every
other service in which it stood that wants the token would say the same. -/
theorem answer_guarded (h₀ : v₀.shared.Guarded token) (events : List Event) (hcall : call.AsksStore)
    {r : Except ServiceError Answer} (h : (v₀.through events).answer (.inSession id call) who = (r, v')) :
    (∀ a, r = .ok a →
        ∃ s, (v₀.through events).session? id = some s ∧ (call.adopt who s).credentials.token = some token) ∧
      ∀ s, (v₀.through events).session? id = some s → (call.adopt who s).credentials.token ≠ some token →
        r = .error (call.rejection s) ∧ v'.shared = (v₀.through events).shared ∧
          v'.session? id = some (s.adopt (call.adopt who s).credentials) ∧
          (∀ other, other ≠ id → v'.session? other = (v₀.through events).session? other) ∧
          ∀ w : Service, w.shared.Guarded token → w.session? id = some s →
            (w.answer (.inSession id call) who).1 = r := by
  obtain rfl : ((v₀.through events).answer (.inSession id call) who).1 = r := congrArg Prod.fst h
  obtain rfl : ((v₀.through events).answer (.inSession id call) who).2 = v' := congrArg Prod.snd h
  have hguarded := guarded_through h₀ events
  constructor
  · intro a ha
    cases hs : (v₀.through events).session? id with
    | none =>
      rw [answer_inSession_none hs] at ha
      cases ha
    | some s =>
      refine ⟨s, rfl, Decidable.byContradiction fun htoken => ?_⟩
      cases (answer_of_rejected hcall hguarded hs htoken).1.symm.trans ha
  · intro s hs htoken
    obtain ⟨hanswer, hshared, hsession⟩ := answer_of_rejected hcall hguarded hs htoken
    refine ⟨hanswer, hshared, hsession, fun other hother => ?_, fun w hw hw' => ?_⟩
    · have hfree : ¬ (Call.inSession id call).Concerns (v₀.through events) other := hother
      exact session?_answer_of_ne hfree who
    · exact (answer_of_rejected hcall hw hw' htoken).1.trans hanswer.symm

/-- A language is compiled for a session with the token, and another session is opened
without. -/
def sharing : List Event :=
  [.putLanguage ⟨"uml", "", 1, [("class", .empty)], []⟩, .call (.openSession "d.uml") (some (.ofToken "t")),
    .call (.inSession (.numbered 1) (.loadById "uml")) none, .call (.openSession "d.uml") none]

def sharingSample : Service := (inMemory .standard (some "t")).through sharing

/-- The language is there for the one session and not for the other. -/
theorem sample_answer_guarded :
    (inMemory .standard (some "t")).shared.Guarded "t" ∧ sharingSample.shared.cache.size = 1 ∧
      (∃ a v' s, sharingSample.answer (.inSession (.numbered 1) (.loadById "uml")) none = (.ok a, v') ∧
        sharingSample.session? (.numbered 1) = some s ∧ s.credentials.token = some "t") ∧
      ∃ r v', sharingSample.answer (.inSession (.numbered 2) (.loadById "uml")) none = (r, v') ∧
        r = .error (.store .unauthorized) ∧ v'.shared = sharingSample.shared := by
  have hguarded : (inMemory .standard (some "t")).shared.Guarded "t" := ⟨rfl, _, rfl, rfl⟩
  have hasks : (SessionCall.loadById "uml").AsksStore := .loadById "uml"
  refine ⟨hguarded, rfl, ?_, ?_⟩
  · obtain ⟨a, v', h⟩ :
        ∃ a v', sharingSample.answer (.inSession (.numbered 1) (.loadById "uml")) none = (.ok a, v') :=
      ⟨_, _, rfl⟩
    obtain ⟨s, hs, htoken⟩ := (answer_guarded hguarded sharing hasks h).1 a rfl
    exact ⟨a, v', s, h, hs, htoken⟩
  · obtain ⟨s, hs, htoken⟩ :
        ∃ s, sharingSample.session? (.numbered 2) = some s ∧ s.credentials.token = none := ⟨_, rfl, rfl⟩
    have hrefused : ((SessionCall.loadById "uml").adopt none s).credentials.token ≠ some "t" := by
      change s.credentials.token ≠ some "t"
      rw [htoken]
      nofun
    have h := (Prod.eta (sharingSample.answer (.inSession (.numbered 2) (.loadById "uml")) none)).symm
    obtain ⟨hanswer, hshared, _⟩ := (answer_guarded hguarded sharing hasks h).2 s hs hrefused
    exact ⟨_, _, h, hanswer, hshared⟩

end Service

end DiagramEditor
