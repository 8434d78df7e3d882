import DiagramEditor.Proofs.LanguageCache
import DiagramEditor.Proofs.Service.Events

/-!
# Which language a session gets

A language that is asked for by its id is provided as a document and compiled in common
for all sessions. The cache is at all times what the documents provided so far have left
in it. So a session gets what the first of them with the same id and version was compiled
to; a document that was replaced under its version is still the one that counts.
-/

set_option autoImplicit false

namespace DiagramEditor

namespace LanguageCache

theorem after_append (c : LanguageCache) (given more : List LanguageDocument) :
    c.after (given ++ more) = (c.after given).after more := by
  induction given generalizing c with
  | nil => rfl
  | cons d rest ih => exact ih (c.getOrCompile d).2

end LanguageCache

/-- What a session answers that is to take up the language of a document, and the session
after it. -/
def Session.takeUp (d : LanguageDocument) (s : Session) : Except ServiceError Answer × Session :=
  match Language.compile d with
  | .error e => (.error (.edit (.template e)), s)
  | .ok l => (SessionCall.answer (.languageLoaded l) (s.installLanguage l).1, (s.installLanguage l).2)

namespace Session

variable {s : Session} {d : LanguageDocument}

theorem language_installLanguage {l : Language} {rendering : Option Rendering}
    (h : (s.installLanguage l).1 = .ok rendering) : (s.installLanguage l).2.language = some l := by
  unfold installLanguage at h ⊢
  split
  · rfl
  · rename_i d hd
    rw [hd] at h
    dsimp only at h
    split at h
    · cases h
    · simp only [*]

theorem language_takeUp {a : Answer} (h : (s.takeUp d).1 = .ok a) :
    ∃ l, Language.compile d = .ok l ∧ (s.takeUp d).2.language = some l := by
  rw [takeUp] at h ⊢
  cases hl : Language.compile d with
  | error e =>
    rw [hl] at h
    cases h
  | ok l =>
    rw [hl] at h
    cases hinstall : (s.installLanguage l).1 with
    | error e => simp [hinstall, SessionCall.answer] at h
    | ok rendering => exact ⟨l, rfl, language_installLanguage hinstall⟩

theorem takeUp_of_error {fault : TemplateFault} (h : Language.compile d = .error fault) :
    s.takeUp d = (.error (.edit (.template fault)), s) := by
  rw [takeUp, h]

end Session

namespace SessionCall

/-- The document that is provided to a call, if it asks for a language by its id. -/
def provided? (call : SessionCall) (c : Shared) (s : Session) : Option LanguageDocument :=
  match call with
  | .loadLanguage ⟨some languageId, none⟩ => (c.provideLanguage languageId s.credentials).toOption
  | _ => none

section

variable {c : Shared} {s : Session} {languageId : String}

theorem of_provided? {d : LanguageDocument} (h : (loadById languageId).provided? c s = some d) :
    c.provideLanguage languageId s.credentials = .ok d := by
  change (c.provideLanguage languageId s.credentials).toOption = some d at h
  cases hd : c.provideLanguage languageId s.credentials with
  | error e => simp [hd, Except.toOption] at h
  | ok made => rw [hd] at h; exact congrArg Except.ok (Option.some.inj h)

theorem error_of_provided?_none (h : (loadById languageId).provided? c s = none) :
    ∃ e, (loadById languageId).run c s = (.error e, c, s) := by
  change (c.provideLanguage languageId s.credentials).toOption = none at h
  cases hd : c.provideLanguage languageId s.credentials with
  | error e => exact ⟨e, by simp only [loadById, run, runLoadLanguage, Shared.chosenLanguage, hd]⟩
  | ok made => simp [hd, Except.toOption] at h

/-- The session takes up the forerunner of the document it is provided with. -/
theorem run_loadById {given : List LanguageDocument} (hcache : c.cache = LanguageCache.empty.after given)
    {d : LanguageDocument} (h : (loadById languageId).provided? c s = some d) :
    ((loadById languageId).run c s).1 = (s.takeUp (LanguageCache.forerunner given d)).1 ∧
      ((loadById languageId).run c s).2.2 = (s.takeUp (LanguageCache.forerunner given d)).2 := by
  have hcompiled := LanguageCache.getOrCompile_after given d
  rw [← hcache] at hcompiled
  simp only [loadById, run, runLoadLanguage, Shared.chosenLanguage, of_provided? h, Session.takeUp]
  cases hfound : c.cache.getOrCompile d with
  | mk found cache =>
    rw [hfound] at hcompiled
    dsimp only at hcompiled
    subst hcompiled
    cases Language.compile (LanguageCache.forerunner given d) <;> exact ⟨rfl, rfl⟩

end

/-- A call leaves in the cache what the document leaves that it is provided with. -/
theorem cache_run (call : SessionCall) (c : Shared) (s : Session) :
    (call.run c s).2.1.cache = c.cache.after (call.provided? c s).toList := by
  cases call with
  | loadLanguage choice =>
    rw [run, runLoadLanguage]
    obtain ⟨languageId | languageId, document | document⟩ := choice
    · rfl
    · simp only [Shared.chosenLanguage]
      cases Language.compile document <;> rfl
    · simp only [Shared.chosenLanguage, provided?]
      cases c.provideLanguage languageId s.credentials with
      | error e => rfl
      | ok d =>
        cases hfound : c.cache.getOrCompile d with
        | mk found cache =>
          simp only [Except.toOption, Option.toList_some, LanguageCache.after, hfound]
          cases found <;> rfl
    · rfl
  | loadModel =>
    obtain ⟨ids, hids⟩ := shared_loadModel c s
    rw [hids]
    rfl
  | saveModel preview =>
    obtain ⟨store, overdue, hstore⟩ := shared_saveModel preview c s
    rw [hstore]
    rfl
  | showType tag | apply op | render | copy selection => rfl

end SessionCall

namespace Service

variable {v v₀ v' : Service}

/-- The document that is provided for an event, if a language is asked for by its id. -/
def provided? (v : Service) : Event → Option LanguageDocument
  | .call (.inSession id call) who => (v.session? id).bind fun s => call.provided? v.shared (call.adopt who s)
  | _ => none

/-- The documents that are provided in the course of events. -/
def given (v : Service) : List Event → List LanguageDocument
  | [] => []
  | e :: rest => (v.provided? e).toList ++ (v.step e).given rest

theorem cache_step (v : Service) (e : Event) :
    (v.step e).shared.cache = v.shared.cache.after (v.provided? e).toList := by
  cases e with
  | putLanguage | putModel | deleteModel => rfl
  | finish n =>
    rw [step, Shared.finish]
    split <;> rfl
  | call call who =>
    cases call with
    | health => rfl
    | openSession sourceId =>
      rw [step, answer, openSession]
      split <;> rfl
    | closeSession id =>
      rw [step, answer, closeSession]
      split <;> rfl
    | inSession id call =>
      cases hs : v.session? id with
      | none =>
        rw [step, answer_inSession_none hs, provided?, hs]
        rfl
      | some s =>
        rw [step, answer_inSession hs, provided?, hs]
        exact call.cache_run v.shared (call.adopt who s)

theorem cache_through (v : Service) (events : List Event) :
    (v.through events).shared.cache = v.shared.cache.after (v.given events) := by
  induction events generalizing v with
  | nil => rfl
  | cons e rest ih => rw [through, ih, cache_step, given, LanguageCache.after_append]

/-- A session that asks for a language by its id gets what the forerunner of the document
it is provided with was compiled to, and is refused if that cannot be compiled. As long as
no other document was provided under that id and version, the forerunner is the document. -/
theorem language_of_loadById (h₀ : v₀.Begins) (events : List Event) {id : Uuid} {languageId : String}
    {who : Option Credentials} {r : Except ServiceError Answer}
    (h : (v₀.through events).answer (.inSession id (.loadById languageId)) who = (r, v')) :
    (∀ a, r = .ok a →
        ∃ d, (v₀.through events).provided? (.call (.inSession id (.loadById languageId)) who) = some d) ∧
      ∀ d, (v₀.through events).provided? (.call (.inSession id (.loadById languageId)) who) = some d →
        (∀ a, r = .ok a → ∃ l s, Language.compile (LanguageCache.forerunner (v₀.given events) d) = .ok l ∧
          v'.session? id = some s ∧ s.language = some l) ∧
        (∀ fault, Language.compile (LanguageCache.forerunner (v₀.given events) d) = .error fault →
          r = .error (.edit (.template fault))) ∧
        ((∀ g ∈ v₀.given events, g.id = d.id → g.version = d.version → g = d) →
          LanguageCache.forerunner (v₀.given events) d = d) := by
  -- nothing was compiled at first, so the cache is what the provided documents have left in it
  have hcache := cache_through v₀ events
  rw [h₀.cache] at hcache
  generalize v₀.through events = v at h hcache ⊢
  cases hs : v.session? id with
  | none =>
    rw [answer_inSession_none hs] at h
    obtain rfl := (Prod.mk.inj h).1
    simp [provided?, hs]
  | some s =>
    have hsession := session?_answer_inSession hs (.loadById languageId) who
    rw [h] at hsession
    have hanswer : r =
        ((SessionCall.loadById languageId).run v.shared ((SessionCall.loadById languageId).adopt who s)).1 := by
      rw [answer_inSession hs] at h
      exact (Prod.mk.inj h).1.symm
    simp only [provided?, hs, Option.bind_some]
    generalize (SessionCall.loadById languageId).adopt who s = adopted at hsession hanswer ⊢
    constructor
    · rintro a rfl
      cases hd : (SessionCall.loadById languageId).provided? v.shared adopted with
      | none =>
        obtain ⟨e, he⟩ := SessionCall.error_of_provided?_none hd
        rw [he] at hanswer
        cases hanswer
      | some d => exact ⟨d, rfl⟩
    · intro d hd
      obtain ⟨hresult, hleft⟩ := SessionCall.run_loadById hcache hd
      rw [hleft] at hsession
      rw [hresult] at hanswer
      refine ⟨fun a ha => ?_, fun fault hfault => ?_, LanguageCache.forerunner_eq_self⟩
      · obtain ⟨l, hl, hlanguage⟩ := Session.language_takeUp (hanswer.symm.trans ha)
        exact ⟨l, _, hl, hsession, hlanguage⟩
      · rw [hanswer, Session.takeUp_of_error hfault]

open Json in
/-- A document for a language with one type. -/
def erDocument (template : Option Value) : LanguageDocument :=
  ⟨"er", "", 1, [("entity", { TypeDocument.empty with visualTemplate := template })], []⟩

theorem compile_erDocument :
    Language.compile (erDocument (some (.bool true))) = .error (.inType "entity" (.notObject (.bool true))) := by
  have hroot : Template.compileRoot (.bool true) = .error (.notObject (.bool true)) := by
    simp only [Template.compileRoot, Template.compile]
  simp only [Language.compile, erDocument, ElementType.compileAll, ElementType.compile,
    ElementType.compileTemplate, hroot]

/-- A document is loaded and then replaced by one that does not compile. -/
def replacement : List Event :=
  [.putLanguage (erDocument none), .call (.openSession "d.er") none,
    .call (.inSession (.numbered 1) (.loadById "er")) none, .putLanguage (erDocument (some (.bool true)))]

def replacedSample : Service := (inMemory .standard none).through replacement

theorem sample_language_of_loadById :
    ∃ a v' l s, (inMemory .standard none).Begins ∧
      replacedSample.answer (.inSession (.numbered 1) (.loadById "er")) none = (.ok a, v') ∧
      Language.compile (erDocument none) = .ok l ∧ v'.session? (.numbered 1) = some s ∧ s.language = some l := by
  have hanswer : ∃ a v', replacedSample.answer (.inSession (.numbered 1) (.loadById "er")) none = (.ok a, v') :=
    ⟨_, _, rfl⟩
  obtain ⟨a, v', h⟩ := hanswer
  have hprovided : replacedSample.provided? (.call (.inSession (.numbered 1) (.loadById "er")) none) =
      some (erDocument (some (.bool true))) := rfl
  have hforerunner : LanguageCache.forerunner ((inMemory .standard none).given replacement)
      (erDocument (some (.bool true))) = erDocument none := rfl
  have hbegins : (inMemory .standard none).Begins := begins_start _ _ _
  obtain ⟨l, s, hl, hs, hlanguage⟩ := ((language_of_loadById hbegins replacement h).2 _ hprovided).1 a rfl
  rw [hforerunner] at hl
  exact ⟨a, v', l, s, hbegins, h, hl, hs, hlanguage⟩

/-- A document that does not compile is loaded all the same, since the one that it replaced
has the same version. -/
theorem replaced_document_loaded :
    ∃ d fault a, (inMemory .standard none).Begins ∧
      replacedSample.provided? (.call (.inSession (.numbered 1) (.loadById "er")) none) = some d ∧
      Language.compile d = .error fault ∧
      (replacedSample.answer (.inSession (.numbered 1) (.loadById "er")) none).1 = .ok a :=
  ⟨_, _, _, begins_start _ _ _, rfl, compile_erDocument, rfl⟩

end Service

end DiagramEditor
