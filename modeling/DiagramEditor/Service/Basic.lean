import DiagramEditor.LanguageCache
import DiagramEditor.Service.Answer
import DiagramEditor.Service.Error
import DiagramEditor.Config
import DiagramEditor.Store.Basic

/-!
# The editing service

The service keeps open sessions and what they share: a store, compiled languages and
the ids not yet handed out. A call in a session sees that session and the shared part
only, so it cannot touch another session.
-/

set_option autoImplicit false

namespace DiagramEditor

inductive Collaborator where
  | store
  /-- The store, while it takes longer than a call waits. It does what it was asked to all the same. -/
  | slow
  | nobody
  /-- Somebody who never answers. -/
  | silent
  /-- Somebody who refuses every call. -/
  | failing (error : StoreError)
deriving DecidableEq

/-- Whether a call to a collaborator is answered by the store in time. -/
def Collaborator.reach (role : Role) (limit : Nat) : Collaborator → Except ServiceError Unit
  | store => .ok ()
  | slow => .error (.timedOut role limit)
  | nobody => .error (.missing role)
  | silent => .error (.timedOut role limit)
  | failing e => .error (.store e)

structure Collaborators where
  languages : Collaborator
  models : Collaborator
  saver : Collaborator
deriving DecidableEq

def Collaborators.allStore : Collaborators := ⟨.store, .store, .store⟩

/-- A save that whoever asked for it waits for no longer. -/
structure OverdueSave where
  sourceId : String
  model : Model
  preview : Option String
  credentials : Credentials

structure Shared where
  config : Config
  collaborators : Collaborators
  store : Store
  /-- What a slow store is still at. -/
  overdue : List OverdueSave
  cache : LanguageCache
  ids : IdSupply

/-- A language by its id, or a document that is not stored. -/
structure LanguageChoice where
  languageId : Option String
  document : Option LanguageDocument

inductive SessionCall where
  | loadLanguage (choice : LanguageChoice)
  | loadModel
  | saveModel (preview : Option String)
  | showType (tag : TypeTag)
  | apply (op : Operation)
  | render
  | copy (selection : List ElementId)

inductive Call where
  | health
  | openSession (sourceId : String)
  | closeSession (id : Uuid)
  | inSession (id : Uuid) (call : SessionCall)

namespace Shared

/-- What the store says to a call that reaches it. -/
def consult {α : Type} (role : Role) (who : Collaborator) (c : Shared) (found : Except StoreError α) :
    Except ServiceError α :=
  match who.reach role c.config.timeout with
  | .error e => .error e
  | .ok () =>
    match found with
    | .error e => .error (.store e)
    | .ok a => .ok a

/-- The stored document of a language. It is asked for even if the language has been
compiled before. -/
def provideLanguage (id : String) (who : Credentials) (c : Shared) : Except ServiceError LanguageDocument :=
  match consult .languageProvider c.collaborators.languages c (c.store.language id who) with
  | .error e => .error e
  | .ok none => .error (.unknownLanguage id)
  | .ok (some d) => .ok d

/-- The model of a source, an empty one if nothing is stored. -/
def provideModel (sourceId : String) (who : Credentials) (c : Shared) : Except ServiceError Model × Shared :=
  match consult .modelProvider c.collaborators.models c (c.store.model sourceId who) with
  | .error e => (.error e, c)
  | .ok (some m) => (.ok m, c)
  | .ok none =>
    let (id, ids) := c.ids.takeId
    (.ok (.empty id), { c with ids := ids })

/-- Stops waiting for a save. A slow store is not told, and goes on with it. -/
def giveUp (save : OverdueSave) (c : Shared) : Shared :=
  match c.collaborators.saver with
  | .slow => { c with overdue := c.overdue ++ [save] }
  | .store | .nobody | .silent | .failing _ => c

def saveModel (sourceId : String) (m : Model) (preview : Option String) (who : Credentials) (c : Shared) :
    Except ServiceError Unit × Shared :=
  let (saved, store) := c.store.save sourceId m preview who
  match consult .modelSaver c.collaborators.saver c saved with
  | .error e => (.error e, c.giveUp ⟨sourceId, m, preview, who⟩)
  | .ok () => (.ok (), { c with store := store })

/-- A slow store is done with one of the overdue saves. They may be done in any order. -/
def finish (n : Nat) (c : Shared) : Shared :=
  match c.overdue[n]? with
  | none => c
  | some save =>
    { c with
      store := (c.store.save save.sourceId save.model save.preview save.credentials).2
      overdue := c.overdue.eraseIdx n }

/-- The language that was chosen. A stored one is compiled once for all sessions. -/
def chosenLanguage (choice : LanguageChoice) (who : Credentials) (c : Shared) :
    Except ServiceError Language × Shared :=
  match choice.languageId, choice.document with
  | some id, none =>
    match c.provideLanguage id who with
    | .error e => (.error e, c)
    | .ok d =>
      match c.cache.getOrCompile d with
      | (.error e, cache) => (.error (.edit e), { c with cache := cache })
      | (.ok l, cache) => (.ok l, { c with cache := cache })
  | none, some d =>
    match Language.compile d with
    | .error e => (.error (.edit (.template e)), c)
    | .ok l => (.ok l, c)
  | _, _ => (.error .languageChoice, c)

end Shared

namespace SessionCall

/-- What a call answers, and the shared part and the session after it. -/
abbrev Result := Except ServiceError Answer × Shared × Session

def answer {α : Type} (toAnswer : α → Answer) (r : Except EditError α) : Except ServiceError Answer :=
  match r with
  | .error e => .error (.edit e)
  | .ok a => .ok (toAnswer a)

def runLoadLanguage (choice : LanguageChoice) (c : Shared) (s : Session) : Result :=
  match c.chosenLanguage choice s.credentials with
  | (.error e, c) => (.error e, c, s)
  | (.ok l, c) =>
    let (r, s) := s.installLanguage l
    (answer (.languageLoaded l) r, c, s)

def runLoadModel (c : Shared) (s : Session) : Result :=
  match c.provideModel s.sourceId s.credentials with
  | (.error e, c) => (.error e, c, s)
  | (.ok m, c) =>
    let (r, s) := s.installModel m
    (answer (.modelLoaded m) r, c, s)

/-- Saves the model of a session; a diagram made to look at a type is none. -/
def runSaveModel (preview : Option String) (c : Shared) (s : Session) : Result :=
  match s.mode with
  | .showcase _ => (.error .showcaseNotSaved, c, s)
  | .editing =>
    match s.model with
    | .error e => (.error (.edit e), c, s)
    | .ok m =>
      match c.saveModel s.sourceId m preview s.credentials with
      | (.error e, c) => (.error e, c, s)
      | (.ok (), c) => (.ok (.saved s.sourceId m.id), c, s)

def runShowType (tag : TypeTag) (c : Shared) (s : Session) : Result :=
  let (id, ids) := c.ids.takeId
  let (r, s) := s.showType tag id
  (answer .rendered r, { c with ids := ids }, s)

def runApply (op : Operation) (c : Shared) (s : Session) : Result :=
  let (r, s, ids) := s.apply op c.ids
  (answer (.applied op) r, { c with ids := ids }, s)

def runRender (c : Shared) (s : Session) : Result :=
  let (r, s) := s.render
  (answer .rendered r, c, s)

/-- Calls that ask a collaborator take up the credentials they came with. -/
def adopts : SessionCall → Bool
  | loadLanguage _ | loadModel | saveModel _ => true
  | showType _ | apply _ | render | copy _ => false

def adopt (call : SessionCall) (who : Option Credentials) (s : Session) : Session :=
  match who with
  | some who => if call.adopts then s.adopt who else s
  | none => s

def run (call : SessionCall) (c : Shared) (s : Session) : Result :=
  match call with
  | loadLanguage choice => runLoadLanguage choice c s
  | loadModel => runLoadModel c s
  | saveModel preview => runSaveModel preview c s
  | showType tag => runShowType tag c s
  | apply op => runApply op c s
  | render => runRender c s
  | copy selection => (answer .copied (s.copy selection), c, s)

end SessionCall

structure Service where
  shared : Shared
  sessions : Table Uuid Session

namespace Service

def start (config : Config) (collaborators : Collaborators) (store : Store) : Service :=
  ⟨⟨config, collaborators, store, [], .empty, .start⟩, []⟩

def session? (id : Uuid) (v : Service) : Option Session := Table.get? id v.sessions

def openSession (sourceId : String) (who : Option Credentials) (v : Service) :
    Except ServiceError Answer × Service :=
  if (Text.trim sourceId.toList).isEmpty then (.error .blankSource, v)
  else
    let (id, ids) := v.shared.ids.take
    let session := Session.start sourceId (who.getD .anonymous) v.shared.config.policy
    (.ok (.opened id sourceId), ⟨{ v.shared with ids := ids }, Table.put id session v.sessions⟩)

def closeSession (id : Uuid) (v : Service) : Except ServiceError Answer × Service :=
  match v.session? id with
  | none => (.error (.unknownSession id), v)
  | some _ => (.ok .closed, { v with sessions := Table.erase id v.sessions })

def inSession (id : Uuid) (call : SessionCall) (who : Option Credentials) (v : Service) :
    Except ServiceError Answer × Service :=
  match v.session? id with
  | none => (.error (.unknownSession id), v)
  | some s =>
    let (r, c, s) := call.run v.shared (call.adopt who s)
    (r, ⟨c, Table.put id s v.sessions⟩)

/-- Answers a call that came with some credentials or none. -/
def answer (call : Call) (who : Option Credentials) (v : Service) : Except ServiceError Answer × Service :=
  match call with
  | .health => (.ok (.health v.sessions.length v.shared.cache.size), v)
  | .openSession sourceId => v.openSession sourceId who
  | .closeSession id => v.closeSession id
  | .inSession id call => v.inSession id call who

end Service

end DiagramEditor
