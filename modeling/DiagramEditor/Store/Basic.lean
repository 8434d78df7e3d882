import DiagramEditor.Credentials
import DiagramEditor.Model.Wire
import DiagramEditor.Store.Error

/-!
# Stores

Languages are kept under their id and models under the name of their source, one of
each. A store keeps documents either as they are, and may then ask for a token, or as
text, which is read again whenever a document is asked for.
-/

set_option autoImplicit false

namespace DiagramEditor

structure StoredModel where
  sourceId : String
  model : Model
  /-- The picture that was saved along with the model. -/
  preview : Option String

structure LanguageSummary where
  id : String
  name : String
  version : Nat
deriving DecidableEq

namespace LanguageSummary

def sortById (summaries : List LanguageSummary) : List LanguageSummary :=
  summaries.mergeSort fun a b => !decide (b.id < a.id)

end LanguageSummary

/-- Documents as they are. -/
structure MemoryStore where
  languages : Table String LanguageDocument
  models : Table String StoredModel
  /-- The token that every call must present, if there is one. -/
  requiredToken : Option String

namespace MemoryStore

def empty (requiredToken : Option String) : MemoryStore := ⟨[], [], requiredToken⟩

def authorize (c : Credentials) (s : MemoryStore) : Except StoreError Unit :=
  match s.requiredToken with
  | none => .ok ()
  | some token => if c.token = some token then .ok () else .error .unauthorized

def putLanguage (d : LanguageDocument) (s : MemoryStore) : MemoryStore :=
  { s with languages := Table.put d.id d s.languages }

def putModel (sourceId : String) (m : Model) (preview : Option String) (s : MemoryStore) : MemoryStore :=
  { s with models := Table.put sourceId ⟨sourceId, m, preview⟩ s.models }

def summaries (s : MemoryStore) : List LanguageSummary :=
  LanguageSummary.sortById (s.languages.map fun (id, d) => ⟨id, d.name, d.version⟩)

end MemoryStore

structure LanguageRow where
  name : String
  version : Nat
  document : String
deriving DecidableEq

structure ModelRow where
  document : String
  preview : Option String
deriving DecidableEq

/-- Documents as text. -/
structure TextStore where
  languages : Table String LanguageRow
  models : Table String ModelRow
deriving DecidableEq

namespace TextStore

def empty : TextStore := ⟨[], []⟩

def putLanguage (d : LanguageDocument) (s : TextStore) : TextStore :=
  { s with languages := Table.put d.id ⟨d.name, d.version, d.toValue.compact⟩ s.languages }

def putModel (sourceId : String) (m : Model) (preview : Option String) (s : TextStore) : TextStore :=
  { s with models := Table.put sourceId ⟨m.toValue.compact, preview⟩ s.models }

/-- Reads a stored text. -/
def read {α : Type} (d : Decoder α) (text : String) : Except StoreError α :=
  match d.ofText text with
  | .ok a => .ok a
  | .error e => .error (.document (.locate d text e))

def language (id : String) (s : TextStore) : Except StoreError (Option LanguageDocument) :=
  match Table.get? id s.languages with
  | none => .ok none
  | some row => (read LanguageDocument.decode row.document).map some

def stored (sourceId : String) (s : TextStore) : Except StoreError (Option StoredModel) :=
  match Table.get? sourceId s.models with
  | none => .ok none
  | some row => (read Model.decode row.document).map fun m => some ⟨sourceId, m, row.preview⟩

def summaries (s : TextStore) : List LanguageSummary :=
  LanguageSummary.sortById (s.languages.map fun (id, row) => ⟨id, row.name, row.version⟩)

def deleteLanguage (id : String) (s : TextStore) : Except StoreError Unit × TextStore :=
  match Table.get? id s.languages with
  | none => (.error (.languageNotFound id), s)
  | some _ => (.ok (), { s with languages := Table.erase id s.languages })

end TextStore

inductive Store where
  | memory (s : MemoryStore)
  | text (s : TextStore)

namespace Store

/-- Only documents kept as they are are guarded by a token. -/
def authorize (c : Credentials) : Store → Except StoreError Unit
  | memory s => s.authorize c
  | text _ => .ok ()

def putLanguage (d : LanguageDocument) : Store → Store
  | memory s => memory (s.putLanguage d)
  | text s => text (s.putLanguage d)

def putModel (sourceId : String) (m : Model) (preview : Option String) : Store → Store
  | memory s => memory (s.putModel sourceId m preview)
  | text s => text (s.putModel sourceId m preview)

def findLanguage (id : String) : Store → Except StoreError (Option LanguageDocument)
  | memory s => .ok (Table.get? id s.languages)
  | text s => s.language id

def stored (sourceId : String) : Store → Except StoreError (Option StoredModel)
  | memory s => .ok (Table.get? sourceId s.models)
  | text s => s.stored sourceId

def hasModel (sourceId : String) : Store → Bool
  | memory s => (Table.get? sourceId s.models).isSome
  | text s => (Table.get? sourceId s.models).isSome

def eraseModel (sourceId : String) : Store → Store
  | memory s => memory { s with models := Table.erase sourceId s.models }
  | text s => text { s with models := Table.erase sourceId s.models }

def summaries : Store → List LanguageSummary
  | memory s => s.summaries
  | text s => s.summaries

def deleteModel (sourceId : String) (s : Store) : Except StoreError Unit × Store :=
  if s.hasModel sourceId then (.ok (), s.eraseModel sourceId) else (.error (.modelNotFound sourceId), s)

/-- The language of that id, for a client with these credentials. -/
def language (id : String) (c : Credentials) (s : Store) : Except StoreError (Option LanguageDocument) :=
  match s.authorize c with
  | .error e => .error e
  | .ok () => s.findLanguage id

/-- The model of a source, for a client with these credentials. -/
def model (sourceId : String) (c : Credentials) (s : Store) : Except StoreError (Option Model) :=
  match s.authorize c with
  | .error e => .error e
  | .ok () => (s.stored sourceId).map fun found => found.map (·.model)

/-- Saves a model for a client with these credentials. -/
def save (sourceId : String) (m : Model) (preview : Option String) (c : Credentials) (s : Store) :
    Except StoreError Unit × Store :=
  match s.authorize c with
  | .error e => (.error e, s)
  | .ok () => (.ok (), s.putModel sourceId m preview)

end Store

end DiagramEditor
