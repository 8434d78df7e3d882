import DiagramEditor.Proofs.Service.Writes
import Mathlib.Data.List.Induction

/-!
# Where a stored model comes from

The model that a session saves goes back to one that the session has loaded for its source,
by the operations that were carried out since. Whatever is asked of a session in between,
the diagram that it edits is never one made to look at a type.
-/

set_option autoImplicit false

namespace DiagramEditor

/-- A diagram is made from a model by operations that are carried out, the first of them
first. Renderings may come in between. -/
inductive Diagram.Descends (first : Model) : List Operation → Diagram → Prop
  | loaded {d : Diagram} (made : ofModel first = .ok d) : Descends first [] d
  | rendered {ops : List Operation} {d d' : Diagram} {l : Language} {r : Rendering} (before : Descends first ops d)
      (made : d.render l = .ok (d', r)) : Descends first ops d'
  | edited {ops : List Operation} {d : Diagram} {op : Operation} {context : EditContext} {ids : IdSupply}
      {outcome : Outcome} {w : Workspace} (before : Descends first ops d)
      (made : op.apply context ⟨d, ids⟩ = (.ok outcome, w)) : Descends first (ops ++ [op]) w.diagram

namespace Session

variable {s : Session}

theorem sourceId_call (s : Session) (c : Call) : (s.call c).2.sourceId = s.sourceId := by
  cases c with
  | adopt credentials | copy selection => rfl
  | installLanguage l | installModel m | showType tag modelId | apply op ids | render =>
    simp only [call, installLanguage, installModel, showType, apply, render]
    repeat' split
    all_goals rfl

theorem sourceId_after (s : Session) (calls : List Call) : (s.after calls).sourceId = s.sourceId := by
  induction calls generalizing s with
  | nil => rfl
  | cons c rest ih => exact (ih _).trans (sourceId_call s c)

end Session

namespace SessionCall

/-- The operation of a call, if it is one that is carried out. -/
def carriedOut (call : SessionCall) (c : Shared) (s : Session) : List Operation :=
  match call with
  | .apply op => if ((SessionCall.apply op).run c s).1.isOk then [op] else []
  | _ => []

theorem carriedOut_of_refused {call : SessionCall} {c : Shared} {s : Session} {e : ServiceError}
    (h : (call.run c s).1 = .error e) : call.carriedOut c s = [] := by
  cases call with
  | apply op =>
    rw [carriedOut, h]
    rfl
  | loadLanguage | loadModel | saveModel | showType | render | copy => rfl

/-- How a session has come to the diagram that it edits after a call: it has loaded it, or
the call has made it from the one before. -/
inductive Leads (call : SessionCall) (c : Shared) (s : Session) (d : Diagram) : Prop
  | loaded {first : Model} {rendering : Option Rendering} (isLoad : call = .loadModel)
      (answered : (call.run c s).1 = .ok (.modelLoaded first rendering))
      (provided : (c.provideModel s.sourceId s.credentials).1 = .ok first) (made : d.Descends first [])
  | kept {before : Diagram} (edits : s.edited? = some before)
      (made : ∀ first ops, before.Descends first ops → d.Descends first (ops ++ call.carriedOut c s))

variable {c : Shared} {s s' : Session} {d before made : Diagram} {call : SessionCall}

theorem Leads.same (h : s.edited? = some d) (hnone : call.carriedOut c s = []) : call.Leads c s d := by
  refine .kept h fun first ops hops => ?_
  rw [hnone, List.append_nil]
  exact hops

/-- A call that leaves the mode alone leads from the one diagram to the other. -/
theorem Leads.of_mode_eq (h : s'.edited? = some d) (hmode : s'.mode = s.mode) (hbefore : s.diagram = some before)
    (hmade : s'.diagram = some made)
    (hleads : ∀ first ops, before.Descends first ops → made.Descends first (ops ++ call.carriedOut c s)) :
    call.Leads c s d := by
  unfold Session.edited? at h
  rw [hmode, hmade] at h
  split at h
  · rename_i hediting
    obtain rfl := Option.some.inj h
    exact .kept (by rw [Session.edited?, hediting, hbefore]) hleads
  · cases h

theorem Leads.of_render {l : Language} {r : Rendering} (h : s'.edited? = some d) (hmode : s'.mode = s.mode)
    (hbefore : s.diagram = some before) (hmade : s'.diagram = some made) (hr : before.render l = .ok (made, r))
    (hnone : call.carriedOut c s = []) : call.Leads c s d := by
  refine .of_mode_eq h hmode hbefore hmade fun first ops hops => ?_
  rw [hnone, List.append_nil]
  exact hops.rendered hr

theorem leads_installLanguage {l : Language} {choice : LanguageChoice} (h : (s.installLanguage l).2.edited? = some d) :
    (loadLanguage choice).Leads c s d := by
  unfold Session.installLanguage at h
  split at h
  · rename_i hnone
    unfold Session.edited? at h
    split at h
    · cases hnone.symm.trans h
    · cases h
  · rename_i hbefore
    split at h
    · exact .same h rfl
    · rename_i hmade
      exact .of_render h rfl hbefore rfl hmade rfl

/-- A session that has loaded a model edits the diagram of it. -/
theorem descends_installModel {m : Model} {rendering : Option Rendering} (hok : (s.installModel m).1 = .ok rendering)
    (h : (s.installModel m).2.edited? = some d) : d.Descends m [] := by
  unfold Session.installModel at hok h
  cases hmade : Diagram.ofModel m with
  | error e => simp [hmade] at hok
  | ok made =>
    rw [hmade] at hok h
    dsimp only at hok h
    unfold Session.renderUnder at hok h
    cases hl : s.language with
    | none =>
      simp only [hl, Session.edited?] at h
      exact Option.some.inj h ▸ .loaded hmade
    | some l =>
      cases hr : made.render l with
      | error e => simp [hl, hr] at hok
      | ok rendered =>
        simp only [hl, hr, Session.edited?] at h
        exact Option.some.inj h ▸ (Diagram.Descends.loaded hmade).rendered hr

theorem edited?_showType {tag : TypeTag} {modelId : String} {r : Rendering}
    (hok : (s.showType tag modelId).1 = .ok r) : (s.showType tag modelId).2.edited? = none := by
  unfold Session.showType at hok ⊢
  split
  · simp_all
  · split
    · simp_all
    · split
      · simp_all
      · rfl

theorem leads_apply {op : Operation} {report : EditReport} (hok : (s.apply op c.ids).1 = .ok report)
    (h : (s.apply op c.ids).2.1.edited? = some d) : (apply op).Leads c s d := by
  have hcarried : (apply op).carriedOut c s = [op] := by
    simp only [carriedOut, run, runApply, hok, answer]
    rfl
  have happlies := s.applies_apply op c.ids
  generalize s.apply op c.ids = result at happlies hok h
  cases happlies with
  | noLanguage | noModel | refused | unrendered => cases hok
  | rendered _ hbefore hedit hmade =>
    refine .of_mode_eq h rfl hbefore rfl fun first ops hops => ?_
    rw [hcarried]
    exact (hops.edited hedit).rendered hmade

theorem leads_render (h : s.render.2.edited? = some d) : render.Leads c s d := by
  unfold Session.render at h
  split at h
  · exact .same h rfl
  · split at h
    · exact .same h rfl
    · exact .same h rfl
    · rename_i hbefore
      split at h
      · exact .same h rfl
      · rename_i hmade
        exact .of_render h rfl hbefore rfl hmade rfl

/-- Whatever is asked of a session, the diagram that it edits afterwards was loaded just now
or made from the one that it edited before. -/
theorem leads_run (h : (call.run c s).2.2.edited? = some d) : call.Leads c s d := by
  -- a refused call leaves the session as it was, so the cases are those of a call carried out
  cases hanswer : (call.run c s).1 with
  | error e =>
    rw [session_of_refused hanswer] at h
    exact .same h (carriedOut_of_refused hanswer)
  | ok a =>
    cases call with
    | loadLanguage choice =>
      rw [run, runLoadLanguage] at h hanswer
      split at h
      · exact .same h rfl
      · exact leads_installLanguage h
    | loadModel =>
      have hrun := hanswer
      rw [run, runLoadModel] at h hrun
      cases hprovided : c.provideModel s.sourceId s.credentials with
      | mk provided c' =>
        cases provided with
        | error e => simp [hprovided] at hrun
        | ok m =>
          simp only [hprovided] at h hrun
          cases hinstall : (s.installModel m).1 with
          | error e => simp [hinstall, answer] at hrun
          | ok rendering =>
            simp only [hinstall, answer] at hrun
            exact .loaded rfl (hanswer.trans hrun.symm) (by rw [hprovided]) (descends_installModel hinstall h)
    | saveModel preview =>
      have hsame : ((saveModel preview).run c s).2.2 = s := by
        simp only [run, runSaveModel]
        repeat' split
        all_goals rfl
      rw [hsame] at h
      exact .same h rfl
    | showType tag =>
      cases hshow : (s.showType tag c.ids.takeId.1).1 with
      | error e => simp [run, runShowType, hshow, answer] at hanswer
      | ok r =>
        have hnone := edited?_showType hshow
        cases hnone.symm.trans h
    | apply op =>
      cases happly : (s.apply op c.ids).1 with
      | error e => simp [run, runApply, happly, answer] at hanswer
      | ok report => exact leads_apply happly h
    | render => exact leads_render h
    | copy selection => exact .same h rfl

theorem sourceId_run (call : SessionCall) (c : Shared) (s : Session) : (call.run c s).2.2.sourceId = s.sourceId := by
  obtain ⟨calls, hcalls⟩ := call.session_run c s
  rw [hcalls, Session.sourceId_after]

end SessionCall

/-- A model that is provided is stored, or it is empty and nothing is stored. -/
theorem Shared.of_provideModel {c : Shared} {sourceId : String} {who : Credentials} {m : Model}
    (h : (c.provideModel sourceId who).1 = .ok m) :
    (∃ stored, c.store.stored sourceId = .ok (some stored) ∧ stored.model = m) ∨
      c.store.stored sourceId = .ok none ∧ m = .empty c.ids.takeId.1 := by
  unfold provideModel consult Store.model at h
  cases hreach : c.collaborators.models.reach .modelProvider c.config.timeout with
  | error e => simp [hreach] at h
  | ok _ =>
    cases hallowed : c.store.authorize who with
    | error e => simp [hreach, hallowed] at h
    | ok _ =>
      cases hstored : c.store.stored sourceId with
      | error e => simp [hreach, hallowed, hstored, Except.map] at h
      | ok found =>
        simp only [hreach, hallowed, hstored, Except.map] at h
        cases found with
        | none => exact Or.inr ⟨rfl, (Except.ok.inj h).symm⟩
        | some stored => exact Or.inl ⟨stored, rfl, Except.ok.inj h⟩

namespace Service

variable {v v₀ v' : Service} {id : Uuid} {s s' : Session} {d d' : Diagram} {sourceId : String} {events : List Event}

/-- The operations that a session carries out in an event, which is one at most. -/
def carriedOut (id : Uuid) (v : Service) : Event → List Operation
  | .call (.inSession target (.apply op)) who =>
    if target = id ∧ (v.answer (.inSession target (.apply op)) who).1.isOk then [op] else []
  | _ => []

/-- The operations that a session carries out in the course of events. -/
def accepted (id : Uuid) (v : Service) : List Event → List Operation
  | [] => []
  | e :: rest => v.carriedOut id e ++ (v.step e).accepted id rest

theorem accepted_append (id : Uuid) (v : Service) (events more : List Event) :
    v.accepted id (events ++ more) = v.accepted id events ++ (v.through events).accepted id more := by
  induction events generalizing v with
  | nil => rfl
  | cons e rest ih => simp only [List.cons_append, accepted, through, ih, List.append_assoc]

theorem carriedOut_inSession (hs : v.session? id = some s) (call : SessionCall) (who : Option Credentials) :
    v.carriedOut id (.call (.inSession id call) who) = call.carriedOut v.shared (call.adopt who s) := by
  cases call with
  | apply op => simp only [carriedOut, SessionCall.carriedOut, answer_inSession hs, true_and]
  | loadLanguage | loadModel | saveModel | showType | render | copy => rfl

theorem carriedOut_of_ne {call : Call} (h : ¬ call.Concerns v id) (who : Option Credentials) :
    v.carriedOut id (.call call who) = [] := by
  cases call with
  | health | openSession | closeSession => rfl
  | inSession target call =>
    cases call with
    | apply op => exact if_neg fun hboth => h hboth.1.symm
    | loadLanguage | loadModel | saveModel | showType | render | copy => rfl

/-- A session loads a model of its source: the stored one, or an empty one where nothing
is stored. -/
structure Loads (v : Service) (id : Uuid) (sourceId : String) (who : Option Credentials) (m : Model) : Prop where
  answered : ∃ rendering, (v.answer (.inSession id .loadModel) who).1 = .ok (.modelLoaded m rendering)
  provided : (∃ stored, v.shared.store.stored sourceId = .ok (some stored) ∧ stored.model = m) ∨
    v.shared.store.stored sourceId = .ok none ∧ m = .empty v.shared.ids.takeId.1

/-- In the course of events a session loads a model of a source, and what it carries out
from then on makes the diagram of it. -/
inductive Makes (v : Service) (id : Uuid) (sourceId : String) (d : Diagram) : List Event → Prop
  | intro {before after : List Event} {who : Option Credentials} {first : Model}
      (loads : (v.through before).Loads id sourceId who first)
      (made : d.Descends first (((v.through before).step (.call (.inSession id .loadModel) who)).accepted id after)) :
      Makes v id sourceId d (before ++ .call (.inSession id .loadModel) who :: after)

/-- In the course of events a session is opened on its source and not closed, and after it
was opened the diagram is made that it edits. -/
inductive Traced (v : Service) (id : Uuid) (s : Session) : List Event → Prop
  | intro {before after : List Event} {who : Option Credentials}
      (opened : ((v.through before).answer (.openSession s.sourceId) who).1 = .ok (.opened id s.sourceId))
      (stays : ∀ who, .call (.closeSession id) who ∉ after)
      (makes : ∀ d, s.edited? = some d →
        ((v.through before).step (.call (.openSession s.sourceId) who)).Makes id s.sourceId d after) :
      Traced v id s (before ++ .call (.openSession s.sourceId) who :: after)

theorem through_cons_append (v : Service) (before : List Event) (e : Event) (after : List Event) :
    v.through (before ++ e :: after) = ((v.through before).step e).through after := by
  rw [through_append]
  rfl

theorem Makes.snoc (h : v.Makes id sourceId d events) {e : Event}
    (hleads : ∀ first ops, d.Descends first ops →
      d'.Descends first (ops ++ (v.through events).carriedOut id e)) :
    v.Makes id sourceId d' (events ++ [e]) := by
  obtain @⟨before, after, who, first, loads, made⟩ := h
  rw [through_cons_append] at hleads
  rw [List.append_assoc, List.cons_append]
  refine .intro loads ?_
  rw [accepted_append, accepted, accepted, List.append_nil]
  exact hleads first _ made

theorem Makes.load {who : Option Credentials} {first : Model} (h : (v.through events).Loads id sourceId who first)
    (hmade : d.Descends first []) : v.Makes id sourceId d (events ++ [.call (.inSession id .loadModel) who]) :=
  .intro h hmade

/-- What an event has a session edit was loaded in the event or edited before. -/
inductive Leads (v : Service) (id : Uuid) (s : Session) (d : Diagram) : Event → Prop
  | loaded {who : Option Credentials} {first : Model} (loads : v.Loads id s.sourceId who first)
      (made : d.Descends first []) : Leads v id s d (.call (.inSession id .loadModel) who)
  | kept {e : Event} {before : Diagram} (edits : s.edited? = some before)
      (made : ∀ first ops, before.Descends first ops → d.Descends first (ops ++ v.carriedOut id e)) :
      Leads v id s d e

theorem Traced.snoc (h : v.Traced id s events) {e : Event} (hopen : ∀ who, e ≠ .call (.closeSession id) who)
    (hsource : s'.sourceId = s.sourceId) (hleads : ∀ d, s'.edited? = some d → (v.through events).Leads id s d e) :
    v.Traced id s' (events ++ [e]) := by
  obtain @⟨before, after, who, opened, stays, makes⟩ := h
  rw [List.append_assoc, List.cons_append, ← hsource]
  rw [← hsource] at opened makes
  refine .intro opened (fun who hclosed => ?_) fun d hd => ?_
  · rcases List.mem_append.mp hclosed with hearlier | hlast
    · exact stays who hearlier
    · exact hopen who (List.mem_singleton.mp hlast).symm
  rw [through_cons_append, ← hsource] at hleads
  cases hleads d hd with
  | loaded loads made => exact .load (hsource ▸ loads) made
  | kept edits made => exact (makes _ edits).snoc made

theorem leads_inSession (hs : v.session? id = some s) {call : SessionCall} {who : Option Credentials}
    (hs' : (v.answer (.inSession id call) who).2.session? id = some s') (hd : s'.edited? = some d) :
    v.Leads id s d (.call (.inSession id call) who) := by
  rw [session?_answer_inSession hs] at hs'
  rw [← Option.some.inj hs'] at hd
  cases SessionCall.leads_run hd with
  | @loaded first rendering isLoad answered provided made =>
    subst isLoad
    have hprovided := Shared.of_provideModel provided
    rw [(SessionCall.loadModel.model_adopt who s).2] at hprovided
    refine .loaded ⟨⟨rendering, ?_⟩, hprovided⟩ made
    rw [answer_inSession hs]
    exact answered
  | kept edits made =>
    rw [SessionCall.edited?_adopt] at edits
    refine .kept edits fun first ops hops => ?_
    rw [carriedOut_inSession hs]
    exact made first ops hops

/-- The session under the id that comes next is one just opened, or it was there before. -/
theorem of_answer_openSession {who : Option Credentials}
    (hs : (v.answer (.openSession sourceId) who).2.session? v.shared.ids.take.1 = some s) :
    v.session? v.shared.ids.take.1 = some s ∨
      (v.answer (.openSession sourceId) who).1 = .ok (.opened v.shared.ids.take.1 sourceId) ∧
        s.sourceId = sourceId ∧ s.edited? = none := by
  rw [answer, openSession] at hs ⊢
  split at hs
  · exact Or.inl hs
  · rename_i hblank
    refine Or.inr ⟨by rw [if_neg hblank], ?_⟩
    obtain rfl := Option.some.inj ((Table.get?_put_self _ _ v.sessions).symm.trans hs)
    exact ⟨rfl, rfl⟩

theorem session?_closeSession (id : Uuid) (v : Service) (who : Option Credentials) :
    (v.answer (.closeSession id) who).2.session? id = none := by
  rw [answer, closeSession]
  split
  · assumption
  · exact Table.get?_erase_self id v.sessions

/-- Every session was opened on its source, and has loaded the model for whatever it edits. -/
theorem traced_through (h₀ : v₀.Begins) (events : List Event) (hs : (v₀.through events).session? id = some s) :
    v₀.Traced id s events := by
  induction events using List.reverseRecOn generalizing s with
  | nil =>
    rw [through, session?, h₀.sessions] at hs
    cases hs
  | append_singleton events e ih =>
    rw [through_append] at hs
    -- an event that leaves the session as it was leaves its trace
    have hkeep : (∀ who, e ≠ .call (.closeSession id) who) → (v₀.through events).session? id = some s →
        (v₀.through events).carriedOut id e = [] → v₀.Traced id s (events ++ [e]) := by
      intro hopen hbefore hnone
      refine (ih hbefore).snoc hopen rfl fun d hd => .kept hd fun first ops hops => ?_
      rw [hnone, List.append_nil]
      exact hops
    cases e with
    | putLanguage | putModel | deleteModel | finish => exact hkeep nofun hs rfl
    | call call who =>
      change ((v₀.through events).answer call who).2.session? id = some s at hs
      by_cases hconcerns : call.Concerns (v₀.through events) id
      · cases call with
        | health => exact hconcerns.elim
        | openSession sourceId =>
          obtain rfl : id = (v₀.through events).shared.ids.take.1 := hconcerns
          -- a session just opened edits nothing, so its trace begins here
          rcases of_answer_openSession hs with hbefore | ⟨opened, rfl, hnone⟩
          · exact hkeep nofun hbefore rfl
          · exact .intro opened (fun _ => List.not_mem_nil) fun d hd => by cases hnone.symm.trans hd
        | closeSession target =>
          obtain rfl : id = target := hconcerns
          cases (session?_closeSession id _ who).symm.trans hs
        | inSession target call =>
          obtain rfl : id = target := hconcerns
          cases hbefore : (v₀.through events).session? id with
          | none =>
            rw [answer_inSession_none hbefore] at hs
            cases hbefore.symm.trans hs
          | some old =>
            refine (ih hbefore).snoc nofun ?_ fun d hd => leads_inSession hbefore hs hd
            rw [session?_answer_inSession hbefore] at hs
            rw [← Option.some.inj hs, SessionCall.sourceId_run, (call.model_adopt who old).2]
      · rw [session?_answer_of_ne hconcerns] at hs
        refine hkeep (fun closer hclose => ?_) hs (carriedOut_of_ne hconcerns who)
        obtain rfl := (Event.call.inj hclose).1
        exact hconcerns rfl

/-- What is stored changes only when a session saves the model that it edits, and goes
back to what the session has loaded of that source; sessions that a call does not concern
stay as they are. -/
theorem stored_answer (h₀ : v₀.Begins) {token : Option String} (hstore : v₀.shared.store.IsMemory token)
    (events : List Event) {call : Call} {who : Option Credentials} {r : Except ServiceError Answer}
    (h : (v₀.through events).answer call who = (r, v')) :
    (∀ id, ¬ call.Concerns (v₀.through events) id → v'.session? id = (v₀.through events).session? id) ∧
      (∀ id preview a, call = .inSession id (.saveModel preview) → r = .ok a →
        ∃ s d, (v₀.through events).session? id = some s ∧ s.edited? = some d ∧ s.model = .ok d.model ∧
          v₀.Traced id s events ∧
          v'.shared.store.stored s.sourceId = .ok (some ⟨s.sourceId, d.model, preview⟩) ∧
          ∀ other, other ≠ s.sourceId →
            v'.shared.store.stored other = (v₀.through events).shared.store.stored other) ∧
      ((∀ id preview a, call = .inSession id (.saveModel preview) → r ≠ .ok a) →
        v'.shared.store = (v₀.through events).shared.store) := by
  obtain rfl : ((v₀.through events).answer call who).1 = r := congrArg Prod.fst h
  obtain rfl : ((v₀.through events).answer call who).2 = v' := congrArg Prod.snd h
  refine ⟨fun id hid => session?_answer_of_ne hid who, ?_, store_of_unsaved⟩
  rintro id preview a rfl ha
  obtain ⟨s, d, hs, hedits, hm, hput⟩ := of_answer_saveModel (h.trans (Prod.ext ha rfl))
  have hmemory := isMemory_through hstore events
  refine ⟨s, d, hs, hedits, hm, traced_through h₀ events hs, ?_, fun other hother => ?_⟩
  · exact hput ▸ hmemory.stored_putModel_self _ _ _
  · exact hput ▸ Store.stored_putModel_of_ne hother _ _ _

/-- A class is made in a model that was not stored before. -/
def drafting : List Event :=
  let inSession (call : SessionCall) : Event := .call (.inSession (.numbered 1) call) none
  [.call (.openSession "d.uml") none,
    inSession (.loadLanguage ⟨none, some ⟨"uml", "", 1, [("class", .empty)], []⟩⟩), inSession .loadModel,
    inSession (.apply (.createNode "class" none))]

theorem sample_stored_answer :
    ∃ a v' s d, (inMemory .standard none).Begins ∧ (inMemory .standard none).shared.store.IsMemory none ∧
      ((inMemory .standard none).through drafting).answer (.inSession (.numbered 1) (.saveModel none)) none =
        (.ok a, v') ∧
      ((inMemory .standard none).through drafting).session? (.numbered 1) = some s ∧ s.edited? = some d ∧
      (inMemory .standard none).Traced (.numbered 1) s drafting ∧
      v'.shared.store.stored s.sourceId = .ok (some ⟨s.sourceId, d.model, none⟩) := by
  have hanswer : ∃ a v', ((inMemory .standard none).through drafting).answer
      (.inSession (.numbered 1) (.saveModel none)) none = (.ok a, v') := ⟨_, _, rfl⟩
  obtain ⟨a, v', h⟩ := hanswer
  have hbegins : (inMemory .standard none).Begins := begins_start _ _ _
  have hmemory : (inMemory .standard none).shared.store.IsMemory none := ⟨_, rfl, rfl⟩
  obtain ⟨s, d, hs, hd, _, htraced, hstored, _⟩ := (stored_answer hbegins hmemory drafting h).2.1 _ _ a rfl rfl
  exact ⟨a, v', s, d, hbegins, hmemory, h, hs, hd, htraced, hstored⟩

end Service

end DiagramEditor
