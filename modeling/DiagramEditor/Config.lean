import DiagramEditor.Schema.Basic
import DiagramEditor.Text.Blank

/-!
# Configuration

Read from variables of the environment. One that is not set keeps its default, and
one that cannot be read refuses the whole configuration.
-/

set_option autoImplicit false

namespace DiagramEditor

structure Config where
  databasePath : String
  bind : String
  port : Nat
  /-- How long a collaborator may take, in milliseconds. -/
  timeout : Nat
  policy : DataPolicy
deriving DecidableEq

inductive ConfigError where
  | port (text : String)
  | timeout (text : String)
  | flag (text : String)
deriving DecidableEq

def ConfigError.message : ConfigError → String
  | port text => "DYNLANG_PORT: invalid port '" ++ text ++ "'"
  | timeout text => "DYNLANG_COLLABORATOR_TIMEOUT_MS: invalid duration '" ++ text ++ "'"
  | flag text => "DYNLANG_VALIDATE_BOUND_DATA: expected a boolean, got '" ++ text ++ "'"

namespace Config

def standard : Config := ⟨"dynlang.db", "0.0.0.0", 3001, 10000, .permissive⟩

def readPort (text : String) : Except ConfigError Nat :=
  match Text.natBelow? (Nat.pow 2 16) text.toList with
  | some n => .ok n
  | none => .error (.port text)

def readTimeout (text : String) : Except ConfigError Nat :=
  match Text.natBelow? (Nat.pow 2 64) text.toList with
  | some n => .ok n
  | none => .error (.timeout text)

/-- Whether bound data is checked. Letters may be of either case. -/
def readPolicy (text : String) : Except ConfigError DataPolicy :=
  let lower := text.toLower
  if ["1", "true", "yes"].contains lower then .ok .validate
  else if ["0", "false", "no", ""].contains lower then .ok .permissive
  else .error (.flag lower)

/-- Reads a variable where it is set. -/
def setting {α : Type} (read : String → Except ConfigError α) (default : α) :
    Option String → Except ConfigError α
  | none => .ok default
  | some text => read text

/-- The configuration that the variables give. -/
def ofVariables (lookUp : String → Option String) : Except ConfigError Config := do
  let path ← setting .ok standard.databasePath (lookUp "DYNLANG_DB_PATH")
  let bind ← setting .ok standard.bind (lookUp "DYNLANG_BIND")
  let port ← setting readPort standard.port (lookUp "DYNLANG_PORT")
  let timeout ← setting readTimeout standard.timeout (lookUp "DYNLANG_COLLABORATOR_TIMEOUT_MS")
  let policy ← setting readPolicy standard.policy (lookUp "DYNLANG_VALIDATE_BOUND_DATA")
  return ⟨path, bind, port, timeout, policy⟩

/-- Where the service listens. -/
def listenAddress (c : Config) : String := c.bind ++ ":" ++ toString c.port

end Config

end DiagramEditor
