import DiagramEditor.EditError
import DiagramEditor.Store.Error

/-!
# Why the service refuses

Each cause has a status, a code for programs and a message for people.
-/

set_option autoImplicit false

namespace DiagramEditor

open Json

/-- Who is asked for documents, or to keep them. -/
inductive Role where
  | languageProvider
  | modelProvider
  | modelSaver
deriving DecidableEq, Repr

def Role.title : Role → String
  | .languageProvider => "language provider"
  | .modelProvider => "model provider"
  | .modelSaver => "model saver"

inductive ServiceError where
  | edit (error : EditError)
  | unknownSession (id : Uuid)
  | unknownLanguage (id : String)
  | blankSource
  /-- A language must be named or given, not both. -/
  | languageChoice
  | showcaseNotSaved
  | store (error : StoreError)
  | timedOut (role : Role) (limit : Nat)

namespace ServiceError

/-- A role that nobody fills. -/
def missing (role : Role) : ServiceError := .edit (.configuration ("no " ++ role.title ++ " was defined"))

def editStatus : EditError → Nat
  | .notFound _ => 404
  | .unknownType _ | .danglingReference _ _ | .bindingNotFound _ | .malformedClipboard _
  | .duplicateId _ | .schemaViolation _ _ => 400
  | .template _ => 422
  | .noModelLoaded | .noLanguageLoaded => 409
  | .configuration _ => 500

def storeStatus : StoreError → Nat
  | .languageNotFound _ | .modelNotFound _ => 404
  | .unauthorized => 401
  | .provider _ => 502
  | .document _ | .database _ | .migration _ => 500

def status : ServiceError → Nat
  | edit e => editStatus e
  | unknownSession _ | unknownLanguage _ => 404
  | blankSource | languageChoice | showcaseNotSaved => 400
  | store e => storeStatus e
  | timedOut _ _ => 504

def storeCode : StoreError → String
  | .languageNotFound _ | .modelNotFound _ => "NOT_FOUND"
  | .unauthorized => "UNAUTHORIZED"
  | .provider _ => "COLLABORATOR_ERROR"
  | .document _ | .database _ | .migration _ => "INTERNAL_ERROR"

def code : ServiceError → String
  | edit e => e.kind
  | unknownSession _ | unknownLanguage _ => "NOT_FOUND"
  | blankSource | languageChoice | showcaseNotSaved => "BAD_REQUEST"
  | store e => storeCode e
  | timedOut _ _ => "TIMEOUT"

def message : ServiceError → String
  | edit e => e.message
  | unknownSession id => "session '" ++ id.print ++ "'"
  | unknownLanguage id => "language '" ++ id ++ "'"
  | blankSource => "sourceId must not be empty"
  | languageChoice => "exactly one of languageId or language is required"
  | showcaseNotSaved => "a showcase diagram cannot be saved"
  | store e => e.message
  | timedOut role limit => role.title ++ " did not answer within " ++ toString limit ++ "ms"

/-- What a client is told besides the message. -/
def details : ServiceError → Option Value
  | edit (.schemaViolation _ issues) => some (Value.ofStrings (issues.map Issue.message))
  | _ => none

def toValue (e : ServiceError) : Value :=
  .object
    [("success", .bool false),
     ("error", .object
       ([("code", .string e.code), ("message", .string e.message)] ++
        Members.whenSome "details" id e.details))]

end ServiceError

end DiagramEditor
