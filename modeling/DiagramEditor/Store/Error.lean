import DiagramEditor.Store.Reading

/-!
# Why a store does not answer
-/

set_option autoImplicit false

namespace DiagramEditor

inductive StoreError where
  /-- A stored document cannot be read back. -/
  | document (fault : ReadingFault)
  | database (reason : String)
  | migration (reason : String)
  | languageNotFound (id : String)
  | modelNotFound (sourceId : String)
  | unauthorized
  | provider (reason : String)
deriving DecidableEq

namespace StoreError

def message : StoreError → String
  | document fault => "serialization error: " ++ fault.message
  | database reason => "sqlite error: " ++ reason
  | migration reason => "migration error: " ++ reason
  | languageNotFound id => "language not found: " ++ id
  | modelNotFound sourceId => "model not found: " ++ sourceId
  | unauthorized => "unauthorized"
  | provider reason => "provider error: " ++ reason

end StoreError

end DiagramEditor
