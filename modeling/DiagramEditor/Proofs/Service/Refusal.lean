import DiagramEditor.Proofs.Service.Events
import DiagramEditor.Service.Request

/-!
# What a refusal leaves behind

A request may be refused before it becomes a call, by whoever is asked for a document, or
by the session. In every case the store and all sessions are left as they were, but for the
credentials: a session takes up those that come along before anybody is asked, and keeps
them when the call is then refused. And a save that was refused because it took too long may
be written later, by the slow store that is still at it.
-/

set_option autoImplicit false

namespace DiagramEditor

namespace ServiceError

theorem editStatus_ne (e : EditError) : editStatus e ≠ 200 := by
  cases e <;> exact Nat.ne_of_beq_eq_false rfl

theorem storeStatus_ne (e : StoreError) : storeStatus e ≠ 200 := by
  cases e <;> exact Nat.ne_of_beq_eq_false rfl

theorem status_ne (e : ServiceError) : e.status ≠ 200 := by
  cases e with
  | edit e => exact editStatus_ne e
  | store e => exact storeStatus_ne e
  | unknownSession | unknownLanguage | blankSource | languageChoice | showcaseNotSaved | timedOut => nofun

end ServiceError

theorem Refusal.status_ne (refusal : Refusal) : refusal.status ≠ 200 := by
  cases refusal <;> decide

theorem Session.Answers.of_answer_error {α : Type} {s : Session} {r : Except EditError α × Session}
    (h : s.Answers r) {toAnswer : α → Answer} {e : ServiceError} (he : SessionCall.answer toAnswer r.1 = .error e) :
    r.2 = s := by
  obtain ⟨made, s'⟩ := r
  cases made with
  | error _ => exact h
  | ok _ => cases he

/-- A save that is refused has changed nothing, but a slow store may be at it still. -/
theorem Shared.saveModel_error {c c' : Shared} {sourceId : String} {m : Model} {preview : Option String}
    {who : Credentials} {e : ServiceError} (h : c.saveModel sourceId m preview who = (.error e, c')) :
    c' = c ∨ c.collaborators.saver = .slow ∧ e = .timedOut .modelSaver c.config.timeout ∧
      c' = { c with overdue := c.overdue ++ [⟨sourceId, m, preview, who⟩] } := by
  unfold saveModel at h
  dsimp only at h
  split at h
  · rename_i fault hfault
    obtain ⟨hfaults, rfl⟩ := Prod.mk.inj h
    obtain rfl := Except.error.inj hfaults
    cases hsaver : c.collaborators.saver with
    | slow =>
      simp only [consult, hsaver, Collaborator.reach] at hfault
      rw [giveUp, hsaver]
      exact .inr ⟨rfl, (Except.error.inj hfault).symm, rfl⟩
    | store | nobody | silent | failing =>
      rw [giveUp, hsaver]
      exact .inl rfl
  · cases (Prod.mk.inj h).1

/-- What comes of an overdue save if it gets done. -/
theorem Shared.store_finish {c : Shared} {n : Nat} {save : OverdueSave} (h : c.overdue[n]? = some save)
    (hwho : c.store.authorize save.credentials = .ok ()) :
    (c.finish n).store = c.store.putModel save.sourceId save.model save.preview := by
  simp only [finish, h, Store.save, hwho]

namespace SessionCall

/-- A call that is refused leaves the session as the call found it. -/
theorem session_of_refused {call : SessionCall} {c : Shared} {s : Session} {e : ServiceError}
    (h : (call.run c s).1 = .error e) : (call.run c s).2.2 = s := by
  cases call with
  | loadLanguage choice =>
    rw [run, runLoadLanguage] at h ⊢
    split at h
    · simp_all only
    · rename_i l c' _
      simp only
      exact (s.answers_installLanguage l).of_answer_error h
  | loadModel =>
    rw [run, runLoadModel] at h ⊢
    split at h
    · simp_all only
    · rename_i m c' _
      simp only
      exact (s.answers_installModel m).of_answer_error h
  | saveModel preview =>
    rw [run, runSaveModel]
    repeat' split
    all_goals rfl
  | showType tag => exact (s.answers_showType tag c.ids.takeId.1).of_answer_error h
  | apply op => exact (s.answers_apply op c.ids).of_answer_error h
  | render => exact s.answers_render.of_answer_error h
  | copy selection => rfl

theorem shared_of_unsaved {preview : Option String} {c : Shared} {s : Session} {e : ServiceError}
    (h : (runSaveModel preview c s).1 = .error e) :
    (runSaveModel preview c s).2.1 = c ∨
      ∃ m, s.model = .ok m ∧ c.collaborators.saver = .slow ∧ e = .timedOut .modelSaver c.config.timeout ∧
        (runSaveModel preview c s).2.1 =
          { c with overdue := c.overdue ++ [⟨s.sourceId, m, preview, s.credentials⟩] } := by
  rw [runSaveModel] at h ⊢
  split at h
  · exact .inl (by simp only [*])
  · split at h
    · exact .inl (by simp only [*])
    · rename_i m hm
      split at h
      · rename_i fault c' hsaved
        obtain rfl : fault = e := Except.error.inj h
        simp only [*]
        exact (Shared.saveModel_error hsaved).imp id fun hslow => ⟨m, rfl, hslow⟩
      · cases h

/-- A call that is refused writes nothing. -/
theorem store_of_refused {call : SessionCall} {c : Shared} {s : Session} {e : ServiceError}
    (h : (call.run c s).1 = .error e) : (call.run c s).2.1.store = c.store := by
  cases call with
  | saveModel preview =>
    rcases shared_of_unsaved h with hsame | ⟨_, _, _, _, hoverdue⟩
    · exact congrArg Shared.store hsame
    · rw [run, hoverdue]
  | loadLanguage choice => exact (loadLanguage choice).store_run (fun _ hsave => by cases hsave) c s
  | loadModel => exact loadModel.store_run (fun _ hsave => by cases hsave) c s
  | showType tag | apply op | render | copy selection => rfl

/-- Only a call to save leaves something to a slow store. -/
theorem overdue_run (call : SessionCall) (h : ∀ preview, call ≠ .saveModel preview) (c : Shared) (s : Session) :
    (call.run c s).2.1.overdue = c.overdue := by
  cases call with
  | loadLanguage choice =>
    obtain ⟨cache, hcache⟩ := shared_loadLanguage choice c s
    rw [hcache]
  | loadModel =>
    obtain ⟨ids, hids⟩ := shared_loadModel c s
    rw [hids]
  | saveModel preview => exact absurd rfl (h preview)
  | showType tag | apply op | render | copy selection => rfl

end SessionCall

/-- The call was to save a model, and a slow store is still at it. -/
inductive Call.LeftToStore (v v' : Service) (who : Option Credentials) : Call → Prop
  | save {id : Uuid} {preview : Option String} {s : Session} {m : Model} (slow : v.shared.collaborators.saver = .slow)
      (session : v.session? id = some s) (model : s.model = .ok m)
      (overdue : v'.shared.overdue = v.shared.overdue ++
        [⟨s.sourceId, m, preview, ((SessionCall.saveModel preview).adopt who s).credentials⟩]) :
      LeftToStore v v' who (.inSession id (.saveModel preview))

/-- The credentials of a session after a call: those that came along, if the call is
addressed to the session and asks a collaborator. -/
def Call.credentialsAfter (call : Call) (who : Option Credentials) (id : Uuid) (s : Session) : Credentials :=
  match call with
  | .inSession target call => if target = id then (call.adopt who s).credentials else s.credentials
  | _ => s.credentials

/-- The credentials of a session after a request. -/
def Request.credentialsAfter (q : Request) (id : Uuid) (s : Session) : Credentials :=
  match q.call with
  | .ok call => call.credentialsAfter q.credentials? id s
  | .error _ => s.credentials

theorem SessionCall.adopt_eq (call : SessionCall) (who : Option Credentials) (s : Session) :
    call.adopt who s = s.adopt (call.adopt who s).credentials := by
  cases who with
  | none => rfl
  | some who =>
    rw [adopt]
    split <;> rfl

namespace Call

theorem credentialsAfter_none (call : Call) (id : Uuid) (s : Session) :
    call.credentialsAfter none id s = s.credentials := by
  unfold credentialsAfter
  split
  · exact ite_self s.credentials
  · rfl

theorem credentialsAfter_of_ne {call : Call} {id : Uuid} (h : ∀ inner, call ≠ .inSession id inner)
    (who : Option Credentials) (s : Session) : call.credentialsAfter who id s = s.credentials := by
  cases call with
  | inSession target inner =>
    have hne : target ≠ id := by
      rintro rfl
      exact h inner rfl
    exact if_neg hne
  | health | openSession | closeSession => rfl

end Call

theorem Session.map_adopt_self {credentials : Session → Credentials} {found : Option Session}
    (h : ∀ s, found = some s → credentials s = s.credentials) :
    found.map (fun s => s.adopt (credentials s)) = found := by
  cases found with
  | none => rfl
  | some s =>
    rw [Option.map_some, h s rfl]
    rfl

namespace Service

variable {v v' : Service} {q : Request}

theorem answer_refused {call : Call} {who : Option Credentials} {e : ServiceError}
    (h : (v.answer call who).1 = .error e) :
    (v.answer call who).2.shared.store = v.shared.store ∧
      ∀ id, (v.answer call who).2.session? id =
        (v.session? id).map fun s => s.adopt (call.credentialsAfter who id s) := by
  cases call with
  | health => cases h
  | openSession sourceId =>
    rw [answer, openSession] at h ⊢
    split at h
    · simp only [*, if_true, true_and]
      exact fun id => (Session.map_adopt_self fun _ _ => rfl).symm
    · cases h
  | closeSession target =>
    rw [answer, closeSession] at h ⊢
    split at h
    · simp only [*, true_and]
      exact fun id => (Session.map_adopt_self fun _ _ => rfl).symm
    · cases h
  | inSession target call =>
    -- only the session that the call is addressed to takes up credentials
    have hother : ∀ {id}, id ≠ target →
        ∀ s, (Call.inSession target call).credentialsAfter who id s = s.credentials :=
      fun hid => Call.credentialsAfter_of_ne (fun _ heq => hid (Call.inSession.inj heq).1.symm) who
    cases hs : v.session? target with
    | none =>
      rw [answer_inSession_none hs]
      refine ⟨rfl, fun id => (Session.map_adopt_self fun s hid => hother ?_ s).symm⟩
      rintro rfl
      cases hs.symm.trans hid
    | some s =>
      have hrefused : (call.run v.shared (call.adopt who s)).1 = .error e := by
        rw [answer_inSession hs] at h
        exact h
      constructor
      · rw [answer_inSession hs]
        exact SessionCall.store_of_refused hrefused
      · intro id
        by_cases hid : id = target
        · subst hid
          rw [session?_answer_inSession hs, SessionCall.session_of_refused hrefused, hs, Option.map_some,
            Call.credentialsAfter, if_pos rfl, ← SessionCall.adopt_eq]
        · have hfree : ¬ (Call.inSession target call).Concerns v id := hid
          rw [session?_answer_of_ne hfree]
          exact (Session.map_adopt_self fun s _ => hother hid s).symm

/-- What a call that is refused leaves to the store, if anything. -/
theorem overdue_answer_refused {call : Call} {who : Option Credentials} {e : ServiceError}
    (h : (v.answer call who).1 = .error e) :
    (v.answer call who).2.shared.overdue = v.shared.overdue ∨
      e = .timedOut .modelSaver v.shared.config.timeout ∧ call.LeftToStore v (v.answer call who).2 who := by
  cases call with
  | health => exact .inl rfl
  | openSession sourceId =>
    rw [answer, openSession]
    split <;> exact .inl rfl
  | closeSession target =>
    rw [answer, closeSession]
    split <;> exact .inl rfl
  | inSession target call =>
    cases hs : v.session? target with
    | none =>
      rw [answer_inSession_none hs]
      exact .inl rfl
    | some s =>
      by_cases hsave : ∃ preview, call = .saveModel preview
      · obtain ⟨preview, rfl⟩ := hsave
        obtain ⟨hmodel, hsource⟩ := (SessionCall.saveModel preview).model_adopt who s
        rw [answer_inSession hs] at h ⊢
        rcases SessionCall.shared_of_unsaved h with hsame | ⟨m, hm, hslow, he, hoverdue⟩
        · exact .inl (congrArg Shared.overdue hsame)
        · refine .inr ⟨he, .save hslow hs (hmodel ▸ hm) ?_⟩
          rw [← hsource]
          exact congrArg Shared.overdue hoverdue
      · rw [answer_inSession hs]
        exact .inl (call.overdue_run (fun preview heq => hsave ⟨preview, heq⟩) _ _)

/-- A call is answered the same way with a body or without. -/
theorem handle_of_call {call : Call} (hmethod : q.method ≠ "OPTIONS") (hcall : q.call = .ok call) :
    (v.handle q).1.status = (Response.ofAnswer (v.answer call q.credentials?).1).status ∧
      (v.handle q).2 = (v.answer call q.credentials?).2 := by
  rw [handle, if_neg hmethod, hcall]
  refine ⟨?_, rfl⟩
  dsimp only
  split <;> rfl

/-- A request is answered with 200 just when it only asks what is allowed or its call is
granted, so every other status is a refusal. -/
theorem status_handle_iff : (v.handle q).1.status = 200 ↔
    q.method = "OPTIONS" ∨ ∃ call a, q.call = .ok call ∧ (v.answer call q.credentials?).1 = .ok a := by
  by_cases hmethod : q.method = "OPTIONS"
  · rw [handle, if_pos hmethod]
    exact ⟨fun _ => Or.inl hmethod, fun _ => rfl⟩
  · cases hcall : q.call with
    | error refusal =>
      rw [handle, if_neg hmethod, hcall]
      have hstatus : (Response.bare refusal.status).status ≠ 200 := refusal.status_ne
      simp [hmethod, hstatus]
    | ok call =>
      rw [(handle_of_call hmethod hcall).1]
      cases hanswer : (v.answer call q.credentials?).1 with
      | error e =>
        have hstatus : (Response.ofAnswer (.error e)).status ≠ 200 := e.status_ne
        simp [hmethod, hstatus, hanswer]
      | ok a => exact ⟨fun _ => Or.inr ⟨call, a, rfl, hanswer⟩, fun _ => rfl⟩

/-- Whatever a request is refused for, the store is as before and so is every session, but
for the credentials that the request brought. Nothing will be written because of the request
either, unless it is a save that was given up after the time limit and that a slow store is
still at. -/
theorem handle_refused {r : Response} (h : v.handle q = (r, v')) (hr : r.status ≠ 200) :
    v'.shared.store = v.shared.store ∧
      (∀ id, v'.session? id = (v.session? id).map fun s => s.adopt (q.credentialsAfter id s)) ∧
      (q.credentials? = none → ∀ id, v'.session? id = v.session? id) ∧
      (v'.shared.overdue = v.shared.overdue ∨
        ∃ call, q.call = .ok call ∧ r.status = 504 ∧ call.LeftToStore v v' q.credentials?) := by
  have hrefused : ¬ (q.method = "OPTIONS" ∨
      ∃ call a, q.call = .ok call ∧ (v.answer call q.credentials?).1 = .ok a) := by
    rw [← status_handle_iff, h]
    exact hr
  have hmethod : q.method ≠ "OPTIONS" := fun hoptions => hrefused (Or.inl hoptions)
  have hkept : (v'.shared.store = v.shared.store ∧
      ∀ id, v'.session? id = (v.session? id).map fun s => s.adopt (q.credentialsAfter id s)) ∧
      (v'.shared.overdue = v.shared.overdue ∨
        ∃ call, q.call = .ok call ∧ r.status = 504 ∧ call.LeftToStore v v' q.credentials?) := by
    obtain rfl : (v.handle q).2 = v' := congrArg Prod.snd h
    obtain rfl : (v.handle q).1 = r := congrArg Prod.fst h
    unfold Request.credentialsAfter
    cases hcall : q.call with
    | error refusal =>
      rw [handle, if_neg hmethod, hcall]
      exact ⟨⟨rfl, fun id => (Session.map_adopt_self fun _ _ => rfl).symm⟩, .inl rfl⟩
    | ok call =>
      rw [(handle_of_call hmethod hcall).2, (handle_of_call hmethod hcall).1]
      cases hanswer : (v.answer call q.credentials?).1 with
      | error e =>
        refine ⟨answer_refused hanswer, (overdue_answer_refused hanswer).imp id ?_⟩
        rintro ⟨rfl, hleft⟩
        exact ⟨call, rfl, rfl, hleft⟩
      | ok a => exact absurd (Or.inr ⟨call, a, hcall, hanswer⟩) hrefused
  obtain ⟨⟨hstore, hsessions⟩, hoverdue⟩ := hkept
  refine ⟨hstore, hsessions, fun hnone id => ?_, hoverdue⟩
  rw [hsessions id]
  refine Session.map_adopt_self fun s _ => ?_
  rw [Request.credentialsAfter, hnone]
  split
  · exact Call.credentialsAfter_none _ id s
  · rfl

/-- A service whose store wants a token, with a session that was opened with it. -/
def tokenSample : Service :=
  (inMemory .standard (some "Bearer abc")).after
    [(.openSession "d.uml", some (.ofToken "Bearer abc"))]

/-- A request to load the model of that session. -/
def loadRequest (headers : List (String × String)) : Request :=
  ⟨"POST", "/sessions/7ed1a9e0-0000-4000-8000-000000000001/model/load", headers, ""⟩

theorem call_loadRequest (headers : List (String × String)) :
    (loadRequest headers).call = .ok (.inSession (.numbered 1) .loadModel) := by
  have hroute : Route.ofPath? "/sessions/7ed1a9e0-0000-4000-8000-000000000001/model/load" =
      some (.session "7ed1a9e0-0000-4000-8000-000000000001".toList .loadModel) := by decide +kernel
  have hid : Route.sessionId? "7ed1a9e0-0000-4000-8000-000000000001".toList = some (.numbered 1) := by decide +kernel
  have hallowed : ∀ id, (Route.session id .loadModel).allows "POST" = true := fun _ => rfl
  simp only [Request.call, loadRequest, hroute, hallowed, if_true, Request.callOn, hid, Request.sessionCall]

theorem credentials_loadRequest :
    (loadRequest [("Authorization", "Bearer xyz")]).credentials? = some (.ofToken "Bearer xyz") := by
  decide +kernel

theorem handle_loadRequest {headers : List (String × String)} {who : Option Credentials}
    (h : (loadRequest headers).credentials? = who) (v : Service) :
    (v.handle (loadRequest headers)).1.status =
        (Response.ofAnswer (v.answer (.inSession (.numbered 1) .loadModel) who).1).status ∧
      (v.handle (loadRequest headers)).2 = (v.answer (.inSession (.numbered 1) .loadModel) who).2 := by
  have hmethod : (loadRequest headers).method ≠ "OPTIONS" := by
    change "POST" ≠ "OPTIONS"
    decide
  rw [← h]
  exact handle_of_call hmethod (call_loadRequest headers)

theorem credentials_tokenSample :
    ∃ s, tokenSample.session? (.numbered 1) = some s ∧ s.credentials = .ofToken "Bearer abc" := ⟨_, rfl, rfl⟩

theorem refused_tokenSample :
    (tokenSample.handle (loadRequest [("Authorization", "Bearer xyz")])).1.status = 401 := by
  rw [(handle_loadRequest credentials_loadRequest _).1]
  rfl

theorem sample_handle_refused :
    ∃ r v', tokenSample.handle (loadRequest [("Authorization", "Bearer xyz")]) = (r, v') ∧ r.status ≠ 200 ∧
      v'.shared.store = tokenSample.shared.store ∧
      ∃ s, tokenSample.session? (.numbered 1) = some s ∧
        v'.session? (.numbered 1) = some (s.adopt (.ofToken "Bearer xyz")) := by
  have hstatus : (tokenSample.handle (loadRequest [("Authorization", "Bearer xyz")])).1.status ≠ 200 := by
    rw [refused_tokenSample]
    decide
  obtain ⟨s, hs, -⟩ := credentials_tokenSample
  have hhandled := (Prod.eta (tokenSample.handle (loadRequest [("Authorization", "Bearer xyz")]))).symm
  obtain ⟨hstore, hsessions, -⟩ := handle_refused hhandled hstatus
  refine ⟨_, _, hhandled, hstatus, hstore, s, hs, ?_⟩
  rw [hsessions, hs, Option.map_some]
  simp only [Request.credentialsAfter, call_loadRequest, credentials_loadRequest, Call.credentialsAfter, if_true]
  rfl

/-- A session keeps credentials that were refused: its model could have been loaded before
the refusal, and cannot be loaded after it. -/
theorem refused_credentials_kept :
    ∃ v' s s', (tokenSample.handle (loadRequest [("Authorization", "Bearer xyz")])).2 = v' ∧
      (tokenSample.handle (loadRequest [("Authorization", "Bearer xyz")])).1.status = 401 ∧
      tokenSample.session? (.numbered 1) = some s ∧ v'.session? (.numbered 1) = some s' ∧
      s'.credentials ≠ s.credentials ∧
      (tokenSample.handle (loadRequest [])).1.status = 200 ∧ (v'.handle (loadRequest [])).1.status = 401 := by
  have hnone : (loadRequest []).credentials? = none := rfl
  obtain ⟨s, hs, htoken⟩ := credentials_tokenSample
  obtain ⟨s', hs', htoken'⟩ :
      ∃ s', (tokenSample.answer (.inSession (.numbered 1) .loadModel) (some (.ofToken "Bearer xyz"))).2.session?
        (.numbered 1) = some s' ∧ s'.credentials = .ofToken "Bearer xyz" := ⟨_, rfl, rfl⟩
  refine ⟨_, s, s', (handle_loadRequest credentials_loadRequest _).2, refused_tokenSample, hs, hs', ?_, ?_, ?_⟩
  · rw [htoken, htoken']
    decide
  · rw [(handle_loadRequest hnone _).1]
    rfl
  · rw [(handle_loadRequest hnone _).1]
    rfl

/-- A service with a slow saver, in which a session has a model. -/
def slowSample : Service :=
  (start .standard ⟨.store, .store, .slow⟩ (.text .empty)).after
    [(.openSession "d.uml", none), (.inSession (.numbered 1) .loadModel, none)]

/-- A save that is refused after the time limit is written all the same, and before it has been refused
there was no such model. -/
theorem overdue_save_written :
    ∃ v' s m, slowSample.answer (.inSession (.numbered 1) (.saveModel none)) none =
        (.error (.timedOut .modelSaver 10000), v') ∧
      slowSample.session? (.numbered 1) = some s ∧ s.model = .ok m ∧ v'.shared.store = .text .empty ∧
      (v'.shared.finish 0).store = .text (TextStore.empty.putModel "d.uml" m none) := by
  obtain ⟨v', s, m, hanswer, hs, hm, hstore, hoverdue⟩ :
      ∃ v' s m, slowSample.answer (.inSession (.numbered 1) (.saveModel none)) none =
          (.error (.timedOut .modelSaver 10000), v') ∧
        slowSample.session? (.numbered 1) = some s ∧ s.model = .ok m ∧ v'.shared.store = .text .empty ∧
        v'.shared.overdue[0]? = some ⟨"d.uml", m, none, .anonymous⟩ := ⟨_, _, _, rfl, rfl, rfl, rfl, rfl⟩
  have hwho : v'.shared.store.authorize .anonymous = .ok () := by
    rw [hstore]
    rfl
  refine ⟨v', s, m, hanswer, hs, hm, hstore, ?_⟩
  rw [Shared.store_finish hoverdue hwho, hstore]
  rfl

end Service

end DiagramEditor
